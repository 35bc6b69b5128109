import Mathlib
import Inkwell.Proofs.Heap.Renaming
import Inkwell.Proofs.Machine.Ownership
import Inkwell.Proofs.Plain.Pushing
import Inkwell.Proofs.Plain.Runs

/-!
# Frames are reused unseen

A call in tail position takes over the frame of its caller. In the pushing form of a program it gets
a frame of its own, and apart from the number of frames nobody can tell the difference: whenever the
pushing form stays within the limit, the program ends like it or goes on forever like it, with the
same output and never more frames.

Both are compared without owners, where one round of the program is one or more rounds of its pushing
form (`Unfolds.run`), and the rounds of both machines are those of their mirror images (`Ran`).
-/

namespace Inkwell

variable {round round' : Plain.Round}

/-! ## Ends of runs -/

namespace Machine

/-- The run of a program comes to an end with a result. -/
def Ends (m : Machine) (p : Program) (result : EStateM.Result Failure Machine Value) : Prop :=
  ∃ fuel, perform fuel (.run p) m = result ∧ Finished result

/-- The run of a program never comes to an end. -/
def Diverges (m : Machine) (p : Program) : Prop := ∀ fuel, ¬ Finished (perform fuel (.run p) m)

end Machine

/-- Functions are the same if they have the same code and, up to their places, the same cells. -/
def SameFunction (f : Nat → Nat) (part part' : FunctionPart) : Prop :=
  part' = (part.1, part.2.map f)

/-- Two runs end in the same way: with the same value up to the places of objects, or with an error
that has the same message and position, and with the same output. -/
inductive SameEnd : EStateM.Result Failure Machine Value → EStateM.Result Failure Machine Value → Prop
  | value {v v' : Value} {m m' : Machine}
      (same : SameValue SameFunction m.store.heap v m'.store.heap v')
      (output : m.store.output = m'.store.output) : SameEnd (.ok v m) (.ok v' m')
  | error {error error' : RunError} {m m' : Machine} (message : error.message = error'.message)
      (position : error.position = error'.position) (output : m.store.output = m'.store.output) :
      SameEnd (.error (.run error) m) (.error (.run error') m')
  | outOfRange {m m' : Machine} : SameEnd (.error .outOfRange m) (.error .outOfRange m')

theorem SameEnd.finished {result result' : EStateM.Result Failure Machine Value}
    (h : SameEnd result result') : Machine.Finished result ∧ Machine.Finished result' := by
  cases h <;> exact ⟨nofun, nofun⟩

/-- Values with the same shadow are the same. -/
theorem Heap.Exact.sameValue {h h' p : Heap} {v : Value} (hexact : h.Exact [v])
    (hexact' : h'.Exact [v]) (hshadows : p.Shadows h) (hshadows' : p.Shadows h') :
    SameValue SameFunction h v h' v := by
  have hlives : ∀ {h : Heap} {v : Value} {place : Nat}, h.Lives v → v.object? = some place →
      ∃ o, h.objects[place]? = some o ∧ o.released = false := fun hv hplace => by
    obtain ⟨o, ho, hreleased, -⟩ := hv _ hplace
    exact ⟨o, ho, hreleased⟩
  refine ⟨id, fun place => (∃ o, h.objects[place]? = some o ∧ o.released = false) ∧
    ∃ o, h'.objects[place]? = some o ∧ o.released = false, ⟨?_, fun _ _ _ _ h => h, ?_⟩, ?_, ?_⟩
  · exact hshadows'.strings.symm.trans hshadows.strings
  · rintro place ⟨⟨o, ho, hreleased⟩, o', ho', hreleased'⟩
    obtain ⟨shadow, hshadow, hbody⟩ := hshadows.bodies place o ho hreleased
    obtain ⟨shadow', hshadow', hbody'⟩ := hshadows'.bodies place o' ho' hreleased'
    have hsame : o'.body = o.body := by
      rw [hshadow] at hshadow'
      cases hshadow'
      exact hbody'.symm.trans hbody
    refine ⟨o, o', ho, ho', hreleased, hreleased', ?_, fun w hw other hother => ?_⟩
    · rw [hsame]
      cases o.body with
      | composite c =>
        have hrenamed := @Body.Renamed.composite id (SameFunction id) c
        rwa [c.rename_id] at hrenamed
      | cell w =>
        have hrenamed := @Body.Renamed.cell id (SameFunction id) w
        rwa [w.rename_id] at hrenamed
      | closure block cells => exact .closure (by simp [SameFunction])
    · have hw' : w ∈ o'.body.owned := by rwa [hsame]
      exact ⟨hlives (hexact.held_lives ho hreleased hw) hother,
        hlives (hexact'.held_lives ho' hreleased' hw') hother⟩
  · intro place hplace
    exact ⟨hlives (hexact.root_lives (.head _)) hplace, hlives (hexact'.root_lives (.head _)) hplace⟩
  · exact v.rename_id.symm

/-! ## The same code in pushing form -/

/-- A pass that only gives tail calls a code of their own leaves the pushing form as it is. -/
theorem TailCalls.pushing_instruction (ins : Instruction) :
    (instruction ins).pushing = ins.pushing := by
  unfold instruction isTailCall
  split
  · rename_i hcall
    have hop : ins.op = .call := by simpa using (Bool.and_eq_true_iff.1 hcall).1
    simp [Instruction.pushing, hop]
  · rfl

theorem TailCalls.pushing_result? {p q : Program} (h : pass.result? p = some q) :
    q.pushing = p.pushing := by
  have himprove : ∀ (s : Program × Bool) (place : Nat) (s' : Program × Bool),
      s.1.pushing = p.pushing → pass.improve s place = some s' → s'.1.pushing = p.pushing := by
    rintro ⟨q, changed⟩ place s' hs hs'
    cases hs'
    rw [← hs]
    have hblock : Block.pushing { q.block place with code := (q.block place).code.map instruction } =
        (q.block place).pushing := by
      simp only [Block.pushing, Array.map_map]
      congr 2
      exact funext pushing_instruction
    refine congrArg Program.mk (Array.ext_getElem? fun i => ?_)
    rw [Array.getElem?_map, Array.getElem?_map, Array.getElem?_setIfInBounds]
    split
    · rename_i hplace
      subst hplace
      split
      · rename_i hlt
        rw [Array.getElem?_eq_getElem hlt]
        simp only [Option.map_some, hblock]
        simp [Program.block, Array.getElem?_eq_getElem hlt]
      · rename_i hle
        rw [Array.getElem?_eq_none (Nat.le_of_not_lt hle)]
    · rfl
  unfold Pass.result? at h
  split at h
  · rename_i hfold
    split at h
    · cases h
      exact foldlM_keeps himprove p.places (p, false) _ rfl hfold
    · cases h
  · cases h

/-! ## Runs side by side -/

/-- Rounds of two machines have led to the same, which may stand at different places of the code. -/
inductive Alike : Plain.Round → Plain.Round → Prop
  | goesOn {s s' : Plain} (output : s.store.output = s'.store.output) :
      Alike (.goesOn s) (.goesOn s')
  | ended (result : Value) {s s' : Store} (heap : s.heap = s'.heap) (output : s.output = s'.output) :
      Alike (.ended result s) (.ended result s')
  | failed (failure : Failure) (position : Position) {s s' : Store} (output : s.output = s'.output) :
      Alike (.failed failure position s) (.failed failure position s')

theorem Abreast.alike (h : Abreast round round') :
    Alike round round' := by
  cases h with
  | goesOn unfolds =>
    cases unfolds
    exact .goesOn rfl
  | ended result s => exact .ended result rfl rfl
  | failed failure position s => exact .failed failure position rfl

theorem Alike.symm (h : Alike round round') : Alike round' round := by
  cases h with
  | goesOn output => exact .goesOn output.symm
  | ended result heap output => exact .ended result heap.symm output.symm
  | failed failure position output => exact .failed failure position output.symm

theorem Alike.trans {round'' : Plain.Round} (h : Alike round round') (h' : Alike round' round'') :
    Alike round round'' := by
  cases h with
  | goesOn output =>
    cases h' with
    | goesOn output' => exact .goesOn (output.trans output')
  | ended result heap output =>
    cases h' with
    | ended _ heap' output' => exact .ended result (heap.trans heap') (output.trans output')
  | failed failure position output =>
    cases h' with
    | failed _ _ output' => exact .failed failure position (output.trans output')

/-- Two runs have come equally far: both go on with the same output, or they have ended in the same
way. -/
def Beside (result result' : EStateM.Result Failure Machine Value) : Prop :=
  (∃ m m', result = .error .unfinished m ∧ result' = .error .unfinished m' ∧
    m.store.output = m'.store.output) ∨ SameEnd result result'

section Ran

variable {result result' : EStateM.Result Failure Machine Value} {round round' : Plain.Round}

/-- What holds of rounds holds of the runs that they are the image of. -/
theorem Ran.beside (h : Ran [] result round) (h' : Ran [] result' round')
    (halike : Alike round round') : Beside result result' := by
  cases halike with
  | goesOn same =>
    cases h with
    | unfinished output =>
      cases h' with
      | unfinished output' =>
        exact .inl ⟨_, _, rfl, rfl, output.symm.trans (same.trans output')⟩
  | ended value heap same =>
    cases h with
    | ended rested shadows output =>
      cases h' with
      | ended rested' shadows' output' =>
        exact .inr (.value (rested.exact.sameValue rested'.exact shadows (heap ▸ shadows'))
          (output.symm.trans (same.trans output')))
  | failed failure position same =>
    cases h with
    | failed message place overflow output =>
      cases h' with
      | failed message' place' overflow' output' =>
        exact .inr (.error (message.trans message'.symm) (place.trans place'.symm)
          (output.symm.trans (same.trans output')))
    | strays =>
      cases h' with
      | strays => exact .inr .outOfRange

/-- The rounds of a run that has ended have ended too. -/
theorem Ran.ended_of_finished (h : Ran [] result round) (hfinished : Machine.Finished result)
    (s : Plain) : round ≠ .goesOn s := by
  rintro rfl
  cases h with
  | unfinished output => exact hfinished _ rfl

end Ran

theorem Block.Tidy.pushing {b : Block} (hb : b.Tidy) : b.pushing.Tidy :=
  ⟨hb.constants, hb.params_nonneg, hb.params_le⟩

namespace Machine

/-- The pushing form of a program has enough room: it does not overflow. -/
def HasRoom (m : Machine) (p : Program) : Prop :=
  ∀ failure m', m.Ends p.pushing (.error failure m') → failure.isOverflow = false

section Runs

variable {p : Program} {output : Output} {limit : Nat}

theorem tidy_of_built (hp : p.Built) : ∀ b ∈ p.blocks, b.Tidy := fun b hb => (hp.inOrder b hb).1

theorem tidy_pushing (hp : p.Built) : ∀ b ∈ p.pushing.blocks, b.Tidy := fun b hb => by
  obtain ⟨b', hb', rfl⟩ := Array.mem_map.mp hb
  exact (tidy_of_built hp b' hb').pushing

theorem HasRoom.pos (hroom : (fresh output limit).HasRoom p) (hp : p.Built) : 0 < limit := by
  refine Nat.pos_of_ne_zero ?_
  rintro rfl
  obtain ⟨m, hm, -⟩ := perform_fresh_zero (tidy_pushing hp) output 0
  cases hroom _ m ⟨1, hm, nofun⟩

theorem HasRoom.fits (hroom : (fresh output limit).HasRoom p) (hp : p.Built) (fuel : Nat) :
    (Plain.start output p.pushing).height fuel ≤ limit := by
  by_contra hfull
  have hran := (ran_fresh (tidy_pushing hp) output (hroom.pos hp) fuel).1
  obtain ⟨position, s, hround⟩ :=
    Plain.runWithin_of_lt_height (hroom.pos hp) (Nat.not_le.mp hfull)
  rw [hround] at hran
  generalize hresult : perform (fuel + 1) (.run p.pushing) (fresh output limit) = result at hran
  cases hran with
  | failed message place overflow =>
    cases overflow.symm.trans (hroom _ _ ⟨fuel + 1, hresult, nofun⟩)

/-- However many rounds a program takes, its pushing form has come as far after as many or more. -/
theorem exists_alike (hp : p.Built) (output : Output) (fuel : Nat) :
    ∃ fuel', fuel ≤ fuel' ∧
      Alike ((Plain.start output p).run fuel) ((Plain.start output p.pushing).run fuel') ∧
      (Plain.start output p).height fuel ≤ (Plain.start output p.pushing).height fuel' := by
  have hunfolds := p.unfolds_start (fun b hb => (hp.inOrder b hb).2) { output }
  obtain ⟨fuel', hfuel, habreast, hheight⟩ := hunfolds.run fuel
  exact ⟨fuel', hfuel, habreast.alike, hheight⟩

/-- The same for runs. -/
theorem exists_beside (hp : p.Built) (hroom : (fresh output limit).HasRoom p) (fuel : Nat) :
    ∃ fuel', fuel ≤ fuel' ∧ Beside (perform fuel (.run p) (fresh output limit))
        (perform fuel' (.run p.pushing) (fresh output limit)) ∧
      (left (perform fuel (.run p) (fresh output limit))).peak ≤
        (left (perform fuel' (.run p.pushing) (fresh output limit))).peak := by
  cases fuel with
  | zero => exact ⟨0, Nat.le_refl _, .inl ⟨_, _, rfl, rfl, rfl⟩, Nat.le_refl _⟩
  | succ fuel =>
    obtain ⟨fuel', hfuel, halike, hheight⟩ := exists_alike hp output fuel
    have hfits' := hroom.fits hp fuel'
    have hfits := Nat.le_trans hheight hfits'
    obtain ⟨hran, hpeak⟩ := ran_of_height_le (tidy_of_built hp) (hroom.pos hp) hfits
    obtain ⟨hran', hpeak'⟩ := ran_of_height_le (tidy_pushing hp) (hroom.pos hp) hfits'
    refine ⟨fuel' + 1, Nat.succ_le_succ hfuel, hran.beside hran' halike, ?_⟩
    rwa [hpeak, hpeak']

/-- A run that has ended stays as it is. -/
theorem run_of_ended {s : Plain} {fuel fuel' : Nat} (hfuel : fuel ≤ fuel')
    (hended : ∀ t, s.run fuel ≠ .goesOn t) : s.run fuel' = s.run fuel := by
  obtain ⟨more, rfl⟩ := Nat.exists_eq_add_of_le hfuel
  rw [Plain.run_add]
  cases hround : s.run fuel with
  | goesOn t => exact absurd hround (hended t)
  | ended result t => rfl
  | failed failure position t => rfl

/-- Programs with the same pushing form end in the same way. -/
theorem ends_of_pushing_eq {q : Program} (hp : p.Built) (hq : q.Built) (hpq : q.pushing = p.pushing)
    (hroom : (fresh output limit).HasRoom p) {result : EStateM.Result Failure Machine Value}
    (hends : (fresh output limit).Ends p result) :
    ∃ result', (fresh output limit).Ends q result' ∧ SameEnd result' result := by
  obtain ⟨fuel, hresult, hfinished⟩ := hends
  cases fuel with
  | zero =>
    cases hresult
    exact absurd rfl (hfinished _)
  | succ fuel =>
    obtain ⟨fuel', -, halike, hheight⟩ := exists_alike hp output fuel
    have hfits := Nat.le_trans hheight (hroom.fits hp fuel')
    have hran := (ran_of_height_le (tidy_of_built hp) (hroom.pos hp) hfits).1
    rw [hresult] at hran
    have hended : ∀ t, (Plain.start output p.pushing).run fuel' ≠ .goesOn t := fun t ht => by
      rw [ht] at halike
      generalize (Plain.start output p).run fuel = round at halike hran
      cases halike with
      | goesOn => exact hran.ended_of_finished hfinished _ rfl
    -- The other program has come to the same end after as many rounds as the pushing form took.
    obtain ⟨fuel'', hfuel'', halike', hheight'⟩ := exists_alike hq output fuel'
    rw [hpq] at halike' hheight'
    rw [run_of_ended hfuel'' hended] at halike'
    have hfits' := Nat.le_trans hheight' (hroom.fits hp fuel'')
    have hran' := (ran_of_height_le (tidy_of_built hq) (hroom.pos hp) hfits').1
    have hbeside := hran'.beside hran (halike'.trans halike.symm)
    rcases hbeside with ⟨-, m', -, hunfinished, -⟩ | hsame
    · exact absurd hunfinished (hfinished m')
    · exact ⟨_, ⟨fuel' + 1, rfl, hsame.finished.1⟩, hsame⟩

end Runs

/-- A frame that is reused is not missed. If the pushing form of a program does not overflow, the
program ends as that does, or never ends if that does not, with the same output and at most as many
frames. A pass that marks tail calls changes nothing about that. -/
theorem frame_reuse_unseen {p : Program} (hp : p.Built) (output : Output) (limit : Nat)
    (hroom : (fresh output limit).HasRoom p) :
    (∀ result', (fresh output limit).Ends p.pushing result' →
      ∃ result, (fresh output limit).Ends p result ∧ SameEnd result result' ∧
        (left result).peak ≤ (left result').peak) ∧
    ((fresh output limit).Diverges p.pushing →
      (fresh output limit).Diverges p ∧
      ∀ fuel, ∃ fuel', fuel ≤ fuel' ∧
        (left (perform fuel (.run p) (fresh output limit))).store.output =
          (left (perform fuel' (.run p.pushing) (fresh output limit))).store.output ∧
        (left (perform fuel (.run p) (fresh output limit))).peak ≤
          (left (perform fuel' (.run p.pushing) (fresh output limit))).peak) ∧
    ∀ q, TailCalls.pass.result? p = some q →
      (∀ result, (fresh output limit).Ends p result →
        ∃ result', (fresh output limit).Ends q result' ∧ SameEnd result' result) ∧
      ((fresh output limit).Diverges p → (fresh output limit).Diverges q) := by
  refine ⟨?_, ?_, fun q hq => ?_⟩
  · rintro result' ⟨fuel, hresult, hfinished⟩
    obtain ⟨fuel', hfuel, hbeside, hpeak⟩ := exists_beside hp hroom fuel
    rw [perform_of_le hfuel rfl (hresult ▸ hfinished), hresult] at hbeside hpeak
    rcases hbeside with ⟨-, m', -, hunfinished, -⟩ | hsame
    · exact absurd hunfinished (hfinished m')
    · exact ⟨_, ⟨fuel, rfl, hsame.finished.1⟩, hsame, hpeak⟩
  · intro hdiverges
    refine ⟨fun fuel hfinished => ?_, fun fuel => ?_⟩
    all_goals obtain ⟨fuel', hfuel, hbeside, hpeak⟩ := exists_beside hp hroom fuel
    · rcases hbeside with ⟨m, -, hunfinished, -⟩ | hsame
      · exact hfinished m hunfinished
      · exact hdiverges fuel' hsame.finished.2
    · rcases hbeside with ⟨m, m', hresult, hresult', houtput⟩ | hsame
      · refine ⟨fuel', hfuel, ?_, hpeak⟩
        rw [hresult, hresult']
        exact houtput
      · exact absurd hsame.finished.2 (hdiverges fuel')
  · have hbuilt : q.Built := .improved hp .tailCalls hq
    have hpushing := TailCalls.pushing_result? hq
    have hroom' : (fresh output limit).HasRoom q := by
      unfold HasRoom
      rwa [hpushing]
    refine ⟨fun result hends => ends_of_pushing_eq hp hbuilt hpushing hroom hends,
      fun hdiverges fuel hfinished => ?_⟩
    obtain ⟨result, ⟨fuel', rfl, hfinished'⟩, -⟩ :=
      ends_of_pushing_eq hbuilt hp hpushing.symm hroom' ⟨fuel, rfl, hfinished⟩
    exact hdiverges fuel' hfinished'

end Machine

/-! ## A call in tail position -/

/-- A program that calls a function. -/
def tailCall : Script := ⟨default, "", [.call default (.function default "" [] (.empty default)) []]⟩

/-- Its code. -/
def tailCallCode : Program :=
  ⟨#[{ name := "<program>", slots := 2, ret := 1, constants := #[.block 1]
       code := #[{ op := .closure }, { op := .call, dest := 1, tail := true }] },
     { id := 1, name := "<anonymous>", slots := 1, constants := #[.empty]
       code := #[{ op := .loadConstant }] }]⟩

theorem built_tailCallCode : tailCallCode.Built := by
  have hcompile : tailCall.compile (fun _ => none) "" {} = .ok tailCallCode := by cbv
  exact .compiled hcompile

namespace Machine

theorem Ends.unique {m : Machine} (hm : m.depth = m.frames.length) {p : Program}
    {result result' : EStateM.Result Failure Machine Value} (h : m.Ends p result)
    (h' : m.Ends p result') : result = result' := by
  obtain ⟨fuel, rfl, hfinished⟩ := h
  obtain ⟨fuel', rfl, hfinished'⟩ := h'
  rcases Nat.le_total fuel fuel' with hle | hle
  · exact (perform_of_le hle hm hfinished).symm
  · exact perform_of_le hle hm hfinished'

/-- With room for two frames the function gets a frame of its own in the pushing form, and takes over
that of the program otherwise; both give the empty value. -/
theorem frame_reuse_unseen_tailCall :
    tailCallCode.Built ∧ (fresh {} 2).HasRoom tailCallCode ∧
      ∃ result result', (fresh {} 2).Ends tailCallCode result ∧
        (fresh {} 2).Ends tailCallCode.pushing result' ∧ value? result' = some .empty ∧
        SameEnd result result' ∧ (left result).peak ≤ (left result').peak := by
  obtain ⟨m, hm⟩ := exists_of_value? (by decide +kernel : value? (perform 8
    (.run tailCallCode.pushing) (fresh {} 2)) = some .empty)
  have hends : (fresh {} 2).Ends tailCallCode.pushing (.ok .empty m) :=
    ⟨8, hm, fun _ h => (by cases h)⟩
  have hroom : (fresh {} 2).HasRoom tailCallCode := fun failure m' hfails => by
    cases Ends.unique rfl hends hfails
  obtain ⟨result, hresult, hsame, hpeak⟩ :=
    (frame_reuse_unseen built_tailCallCode {} 2 hroom).1 _ hends
  exact ⟨built_tailCallCode, hroom, result, _, hresult, hends, rfl, hsame, hpeak⟩

end Machine

end Inkwell
