import Mathlib
import Inkwell.Proofs.Plain.Starts

/-!
# Whole runs on both machines

A machine does round by round what its mirror image does, until it would have more frames than its
limit allows. So a run of a program on a fresh machine is a run of the machine without owners that
fails where a round leads to too many activations (`Plain.runWithin`): the same value, the same fault
at the same position or no end at all, with the same output (`Ran`). The highest number of frames is
the same too, up to the limit.
-/

namespace Inkwell

variable {p : Program} {limit : Nat}

/-! ## Runs within a limit -/

namespace Plain

/-- The position of the instruction that runs next. -/
def position (s : Plain) : Position :=
  match s.frames with
  | f :: _ => ((f.block.code[f.counter]?.map Instruction.position).getD {})
  | [] => {}

/-- A round that leads to more activations than there may be fails instead. -/
def Round.within (limit : Nat) (s : Plain) : Round → Round
  | .goesOn t =>
    if t.frames.length ≤ limit then .goesOn t
    else .failed (.fault .stackOverflow) s.position s.store
  | round => round

/-- What `n` rounds lead to if there may be no more than `limit` activations. -/
def runWithin (limit : Nat) : Nat → Plain → Round
  | 0, s => .goesOn s
  | n + 1, s => (s.turn.within limit s).andThen (runWithin limit n)

/-- Rounds that need no more activations than there may be lead to the same as always. -/
theorem runWithin_of_height_le {n : Nat} {s : Plain} (h : s.height n ≤ limit) :
    s.runWithin limit n = s.run n := by
  induction n generalizing s with
  | zero => rfl
  | succ n ih =>
    rw [runWithin, run]
    cases hturn : s.turn with
    | goesOn t =>
      rw [height_of_goesOn hturn] at h
      have ht := Nat.le_trans (Nat.le_max_right _ _) h
      rw [Round.within, if_pos (Nat.le_trans (t.length_le_height n) ht)]
      exact ih ht
    | ended result t => rfl
    | failed failure position t => rfl

/-- Rounds that need more activations than there may be fail. -/
theorem runWithin_of_lt_height {n : Nat} {s : Plain} (hs : s.frames.length ≤ limit)
    (h : limit < s.height n) :
    ∃ position t, s.runWithin limit n = .failed (.fault .stackOverflow) position t := by
  induction n generalizing s with
  | zero => exact absurd h (Nat.not_lt.mpr hs)
  | succ n ih =>
    rw [runWithin]
    cases hturn : s.turn with
    | goesOn t =>
      rw [height_of_goesOn hturn] at h
      rw [Round.within]
      split
      · rename_i ht
        exact ih ht (by omega)
      · exact ⟨_, _, rfl⟩
    | ended | failed =>
      rw [height, hturn] at h
      exact absurd h (Nat.not_lt.mpr hs)

end Plain

/-! ## The rounds of a machine -/

/-- The machine that an action leaves. -/
def Machine.left {α : Type} : EStateM.Result Failure Machine α → Machine
  | .ok _ m => m
  | .error _ m => m

/-- What a run of a machine has come to, beside what the rounds of its mirror image have led to. -/
inductive Ran (held : List Value) : EStateM.Result Failure Machine Value → Plain.Round → Prop
  | unfinished {m : Machine} {s : Plain} (output : s.store.output = m.store.output) :
      Ran held (.error .unfinished m) (.goesOn s)
  | ended {result : Value} {m : Machine} {s : Store} (rested : Rested (result :: held) m)
      (shadows : s.heap.Shadows m.store.heap) (output : s.output = m.store.output) :
      Ran held (.ok result m) (.ended result s)
  | failed {cause : Fault} {error : RunError} {position : Position} {m : Machine} {s : Store}
      (message : error.message = cause.message) (place : error.position = position)
      (overflow : error.overflow = decide (cause = .stackOverflow))
      (output : s.output = m.store.output) :
      Ran held (.error (.run error) m) (.failed (.fault cause) position s)
  | strays {position : Position} {m : Machine} {s : Store} :
      Ran held (.error .outOfRange m) (.failed .outOfRange position s)

section Runs

variable {held : List Value} {m : Machine} {s : Plain}

theorem Mirrors.length_eq (hm : Mirrors held m s) : s.frames.length = m.depth := by
  rw [hm.depth, hm.frames, List.length_map]

theorem Mirrors.position_eq (hm : Mirrors held m s) {f : Frame} {below : List Frame}
    {ins : Instruction} (hframes : m.frames = f :: below)
    (hins : f.block.code[f.counter]? = some ins) : s.position = ins.position := by
  have hs : s.frames = f.activation :: below.map Frame.activation := by rw [hm.frames, hframes]; rfl
  have hins' : f.activation.block.code[f.activation.counter]? = some ins := hins
  rw [Plain.position, hs]
  simp only [hins', Option.map_some, Option.getD_some]

/-- A machine that nobody calls off does what its mirror image does. -/
theorem Mirrors.ran (hm : Mirrors held m s) (hrunning : m.frames ≠ []) (hlevel : m.Level)
    (hcancelled : m.cancelled = false) (fuel since : Nat) :
    Ran held (Machine.execute fuel 0 since m) (s.runWithin m.maxFrames fuel) ∧
      (Machine.left (Machine.execute fuel 0 since m)).peak =
        max m.peak (min (s.height fuel) m.maxFrames) := by
  induction fuel generalizing m s since with
  | zero =>
    refine ⟨.unfinished hm.output, ?_⟩
    have hheight : s.height 0 = m.depth := hm.length_eq
    have hpeak := hlevel.depth_le_peak
    show m.peak = _
    omega
  | succ fuel ih =>
    have hdepth := hm.length_eq
    have hfits := hlevel.depth_le
    have hpeak := hlevel.depth_le_peak
    have hlast : m.peak = max m.peak (min s.frames.length m.maxFrames) := by omega
    have hturned := hm.turned hrunning fuel since
    have hsteady := Machine.keeps_turn fuel 0 since m (.own hm.depth)
    rw [Machine.execute_succ, Plain.runWithin, Plain.height]
    generalize s.turn = round at hturned
    cases hturn : Machine.turn (Machine.perform fuel) 0 since m with
    | ok turned m' =>
      rw [hturn] at hturned hsteady
      rw [Machine.bind_of_ok hturn]
      cases hturned with
      | @goesOn since' _ t mirrors running rises =>
        have hsettings : m'.settings = m.settings := hsteady.settings
        have hlimit : m'.maxFrames = m.maxFrames := congrArg Machine.Settings.maxFrames hsettings
        have hrises := rises hlevel
        have hdepth' := mirrors.length_eq
        have hfits' := hrises.depth_le
        have hheight := t.length_le_height fuel
        obtain ⟨hran, hmost⟩ := ih mirrors running hrises.level
          ((congrArg Machine.Settings.cancelled hsettings).trans hcancelled) since'
        rw [hlimit] at hran hmost hfits'
        rw [Plain.Round.within, if_pos (hdepth' ▸ hfits')]
        refine ⟨hran, hmost.trans ?_⟩
        rw [hrises.peak_eq]
        simp only
        omega
      | ended rested shadows code output peak =>
        exact ⟨.ended rested shadows output, peak.trans hlast⟩
    | error failure m' =>
      rw [hturn] at hturned
      rw [Machine.bind_of_error hturn]
      cases hturned with
      | failed rested noRelease message place overflow output peak =>
        exact ⟨.failed message place overflow output, peak.trans hlast⟩
      | strays peak => exact ⟨.strays, peak.trans hlast⟩
      | @overflows _ _ _ _ _ t rested overflow full close frames code message place output peak =>
        have hheight := t.length_le_height fuel
        rw [Plain.Round.within, if_neg (Nat.not_le.mpr full)]
        refine ⟨.failed message (place.trans (hm.position_eq frames code).symm)
          (by simpa using overflow) (hm.output.trans output.symm), peak.trans ?_⟩
        simp only
        omega
      | cancelled rested called =>
        rw [hcancelled] at called
        cases called

end Runs

/-! ## A program on a fresh machine -/

/-- A machine that has run nothing yet. -/
def Machine.fresh (output : Output) (limit : Nat) : Machine :=
  { store := { output }, maxFrames := limit, natives := Natives.standard }

/-- A program about to run on a machine without owners. -/
def Plain.start (output : Output) (p : Program) : Plain :=
  ⟨{ code := p.blocks, output }, [.begin p.root [] [] (-1)]⟩

theorem Machine.codeWith_fresh (output : Output) (limit : Nat) (p : Program) :
    (fresh output limit).codeWith p = p.blocks := by
  have hmoved : Block.moved 0 = id := funext Block.moved_zero
  simp [codeWith, fresh, hmoved]

variable (hp : ∀ b ∈ p.blocks, b.Tidy)

include hp

/-- A fresh machine starts a program together with its mirror image, unless it may have no frame. -/
theorem Machine.startProgram_fresh (output : Output) (limit : Nat) :
    (∃ m, startProgram p (fresh output limit) = .ok () m ∧ Mirrors [] m (Plain.start output p) ∧
      m.frames ≠ [] ∧ m.Rises 0 ∧ m.settings = (fresh output limit).settings) ∨
    ∃ m, startProgram p (fresh output limit) = .error (.fault .stackOverflow) m ∧
      m.store.output = output ∧ m.peak = 0 ∧ limit < 1 := by
  have hrested : Rested [] (fresh output limit) := .fresh output limit false
  have hshadows : Heap.Shadows {} (fresh output limit).store.heap :=
    ⟨rfl, rfl, nofun, nofun⟩
  have hmatches := hrested.startProgram hp (s := { output }) hshadows rfl
  have hrises := (sturdy_rises 0).keeps_startProgram p (fresh output limit)
    ⟨rfl, Nat.zero_le _, rfl⟩
  have hsteady := (sturdy_steady (fresh output limit).settings).keeps_startProgram p
    (fresh output limit) ⟨rfl, rfl⟩
  have hstart : Plain.start output p = ⟨{ output, code := (fresh output limit).codeWith p },
      [Plain.root (fresh output limit).store.code p]⟩ := by
    have hroot : Plain.root (fresh output limit).store.code p = .begin p.root [] [] (-1) :=
      congrArg (fun code : Array Block => Activation.begin (code[0]?.getD default) [] [] (-1))
        (codeWith_fresh output limit p)
    rw [hroot, codeWith_fresh]
    rfl
  rw [← hstart] at hmatches
  cases hresult : startProgram p (fresh output limit) with
  | ok _ m =>
    rw [hresult] at hmatches hrises hsteady
    cases hmatches with
    | goesOn mirrors =>
      refine .inl ⟨m, rfl, mirrors, fun hnone => ?_, hrises, hsteady.settings⟩
      have hlength := congrArg List.length mirrors.frames
      rw [hnone] at hlength
      cases hlength
  | error failure m =>
    rw [hresult] at hmatches
    cases hmatches with
    | overflows kept full => exact .inr ⟨m, rfl, kept.output, kept.peak, full⟩

/-- A fresh machine does what the machine without owners does within its limit. -/
theorem Machine.ran_fresh (output : Output) (hlimit : 0 < limit) (fuel : Nat) :
    Ran [] (perform (fuel + 1) (.run p) (fresh output limit))
        ((Plain.start output p).runWithin limit fuel) ∧
      (left (perform (fuel + 1) (.run p) (fresh output limit))).peak =
        min ((Plain.start output p).height fuel) limit := by
  have hone : 1 ≤ (Plain.start output p).height fuel := (Plain.start output p).length_le_height fuel
  rw [perform]
  rcases startProgram_fresh hp output limit with ⟨m, hstart, mirrors, hframes, hrises, hsettings⟩ |
    ⟨m, -, -, -, hfull⟩
  · rw [bind_of_ok hstart]
    have hdepth : 1 = m.depth := mirrors.length_eq
    have hsame : m.maxFrames = limit := congrArg Settings.maxFrames hsettings
    obtain ⟨hran, hpeak⟩ :=
      mirrors.ran hframes hrises.level (congrArg Settings.cancelled hsettings) fuel 0
    rw [hsame] at hran hpeak
    refine ⟨hran, hpeak.trans ?_⟩
    rw [hrises.peak_eq]
    omega
  · exact absurd hlimit (Nat.not_lt.mpr (Nat.le_of_lt_succ hfull))

theorem Machine.ran_of_height_le {output : Output} {fuel : Nat}
    (hlimit : 0 < limit) (hfits : (Plain.start output p).height fuel ≤ limit) :
    Ran [] (perform (fuel + 1) (.run p) (fresh output limit)) ((Plain.start output p).run fuel) ∧
      (left (perform (fuel + 1) (.run p) (fresh output limit))).peak =
        (Plain.start output p).height fuel := by
  obtain ⟨hran, hpeak⟩ := ran_fresh hp output hlimit fuel
  rw [Plain.runWithin_of_height_le hfits] at hran
  exact ⟨hran, hpeak.trans (Nat.min_eq_left hfits)⟩

/-- A machine that may have no frame cannot start a program. -/
theorem Machine.perform_fresh_zero (output : Output) (fuel : Nat) :
    ∃ m, perform (fuel + 1) (.run p) (fresh output 0) = .error (.fault .stackOverflow) m ∧
      m.store.output = output ∧ m.peak = 0 := by
  rw [perform]
  rcases startProgram_fresh hp output 0 with ⟨m, -, mirrors, -, hrises, hsettings⟩ |
    ⟨m, hstart, houtput, hpeak, -⟩
  · have hdepth : 1 = m.depth := mirrors.length_eq
    have hle := hrises.depth_le
    rw [show m.maxFrames = 0 from congrArg Settings.maxFrames hsettings] at hle
    omega
  · exact ⟨m, bind_of_error hstart, houtput, hpeak⟩

end Inkwell
