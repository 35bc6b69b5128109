import Mathlib
import Inkwell.Proofs.Heap.Labels
import Inkwell.Proofs.Optimizer.Facts
import Inkwell.Proofs.Plain.Recoding

/-!
# Machines that know what has been done

A machine is informed when its innermost activation knows what the instructions in front have done,
and each one that waits for a result will know it whatever the result is (`Plain.Informed`). Every
round keeps a machine informed.

What is known about the text of a string holds only while nothing may have changed one. But if nothing
reads a register and only loads write it, nobody else can get hold of the string in it, and its text
stays what was loaded (`Plain.Guards`).
-/

namespace Inkwell

open List Activation

variable {buffer : Nat}

/-- The instruction of a call or an arm writes a register. -/
def Block.Awaits (b : Block) (r : Int) : Prop :=
  ∃ (o : Nat) (ins : Instruction) (c : Nat), b.code[o]? = some ins ∧ ins.Stirs c ∧ ins.writes? = some r

/-- Each activation but the first waits for the result of the one in front of it, and will know
everything whatever the result is. -/
def Waiting : List Activation → Prop
  | f :: g :: below =>
    (0 ≤ f.destination → g.block.Awaits f.destination ∧
      ∀ v h, (g.put f.destination v).Knows h) ∧ Waiting (g :: below)
  | _ => True

theorem Waiting.replace {f g : Activation} {below : List Activation} (h : Waiting (f :: below))
    (hsame : g.destination = f.destination) : Waiting (g :: below) := by
  cases below with
  | nil => trivial
  | cons next rest =>
    refine ⟨?_, h.2⟩
    rw [hsame]
    exact h.1

/-- All strings that an object or a register refers to are there. -/
structure Heap.Covers (h : Heap) (frames : List Activation) : Prop where
  held : ∀ buffer, h.Holds buffer → buffer < h.strings.size
  registers : ∀ f ∈ frames, ∀ r buffer, f.register? r = some (.string buffer) →
    buffer < h.strings.size

/-- A register that nothing reads and only loads write. -/
structure Block.Secret (b : Block) (r : Int) : Prop where
  params : b.params ≤ r
  ret : r ≠ b.ret
  reads : ∀ (o : Nat) ins, b.code[o]? = some ins → r ∉ ins.sources
  writes : ∀ (o : Nat) ins, b.code[o]? = some ins → ins.writes? = some r → ins.op = .loadConstant

/-- Where the string in a secret register can be but in secret registers. -/
def Plain.Shows (s : Plain) (buffer : Nat) : Prop :=
  s.store.heap.Holds buffer ∨
    ∃ f ∈ s.frames, ∃ r, ¬ f.block.Secret r ∧ f.register? r = some (.string buffer)

/-- No string in a secret register is anywhere else, and its text is a constant that is loaded into
the register. -/
def Plain.Guards (s : Plain) : Prop :=
  ∀ f ∈ s.frames, ∀ r buffer, f.block.Secret r → f.register? r = some (.string buffer) →
    ¬ s.Shows buffer ∧ ∃ (o : Nat) (ins : Instruction), f.block.code[o]? = some ins ∧
      ins.op = .loadConstant ∧ ins.dest = r ∧
      f.block.constant? ins.k = some (.string (s.store.heap.text buffer))

/-- All activations know, or will know, what the instructions in front have done, and keep their
secrets. The blocks that run are of a kind `K`. -/
structure Plain.Informed (K : Block → Prop) (s : Plain) : Prop where
  code : ∀ place, K (s.store.block place)
  blocks : ∀ f ∈ s.frames, K f.block
  covers : s.store.heap.Covers s.frames
  knows : ∀ f below, s.frames = f :: below → f.Knows s.store.heap
  waiting : Waiting s.frames
  guards : s.Guards

namespace Activation

variable {f : Activation} {r r' : Int} {v : Value}

theorem nonneg_of_isSome (h : (f.register? r).isSome = true) : 0 ≤ r := by
  unfold register? at h
  split at h
  · cases h
  · omega

theorem register?_put_of_ne (hr : 0 ≤ r) (hne : r' ≠ r) :
    (f.put r v).register? r' = f.register? r' := by
  unfold register? put
  split
  · rfl
  · simp only [Array.getElem?_setIfInBounds]
    rw [if_neg (by omega)]

/-- A string in a register after a value has been put into one. -/
theorem string_of_put (hinside : (f.register? r).isSome = true)
    (h : (f.put r v).register? r' = some (.string buffer)) :
    r' = r ∧ v = .string buffer ∨ r' ≠ r ∧ f.register? r' = some (.string buffer) := by
  by_cases hr : r' = r
  · obtain ⟨old, hold⟩ := Option.isSome_iff_exists.mp hinside
    rw [hr, register?_put hold] at h
    exact .inl ⟨hr, Option.some.inj h⟩
  · rw [register?_put_of_ne (nonneg_of_isSome hinside) hr] at h
    exact .inr ⟨hr, h⟩

end Activation

namespace Plain

variable {r : Int}
variable {K : Block → Prop} {s : Plain} {f g : Activation} {below own : List Activation}
  {ins : Instruction} {h h' : Heap} {t : Plain}

/-- Strings that come from a covered heap and from the registers of an activation are there. -/
theorem lt_of_comes (hcovers : h.Covers (f :: below)) (hgrows : h.strings.size ≤ h'.strings.size)
    (hcomes : Heap.Comes ((passing f).looked ins) h h' buffer) : buffer < h'.strings.size := by
  rcases hcomes with hheld | hlooked | ⟨-, hlt⟩
  · exact Nat.lt_of_lt_of_le (hcovers.held _ hheld) hgrows
  · obtain ⟨r, -, hr⟩ := mem_filterMap.mp hlooked
    exact Nat.lt_of_lt_of_le (hcovers.registers f mem_cons_self r _ hr) hgrows
  · exact hlt

/-- A string in a register of one of the activations that an instruction leaves was in the same
register before, or it comes from somewhere and is now in a parameter or in the destination. -/
theorem string_of_stroke {store : Store} (hstroke : Stroke store h (passing f) ins own)
    (hg : g ∈ own) (hr : g.register? r = some (.string buffer)) :
    g.block = f.block ∧ f.register? r = some (.string buffer) ∨
      Heap.Comes ((passing f).looked ins) store.heap h buffer ∧ (r < g.block.params ∨
        own = [g] ∧ g.block = f.block ∧ (ins.writes? = some r ∨ ins.op = .tailCall ∧ r = ins.dest) ∧
          (∀ r' ≠ r, g.register? r' = f.register? r') ∧
          (ins.Makes → (passing f).Gives store.heap h ins (.string buffer))) := by
  cases hstroke with
  | moves c value _ inside gives _ comes =>
    obtain rfl := mem_singleton.mp hg
    cases value with
    | none => exact .inl ⟨rfl, hr⟩
    | some v =>
      obtain ⟨hinside, hwrites⟩ := inside v rfl
      rcases string_of_put (f := { passing f with counter := c }) hinside hr with
        ⟨rfl, rfl⟩ | ⟨-, hr⟩
      · refine .inr ⟨comes buffer rfl, .inr ⟨rfl, rfl, hwrites.imp_right fun hop => ⟨hop, rfl⟩,
          fun r' hr' => ?_, fun hmakes => ?_⟩⟩
        · exact register?_put_of_ne (f := { passing f with counter := c })
            (nonneg_of_isSome hinside) hr'
        · obtain ⟨v, hv, hgives⟩ := gives hmakes
          rwa [← Option.some.inj hv] at hgives
      · exact .inl ⟨rfl, hr⟩
  | pushes g' c _ _ _ _ hbegins =>
    rcases mem_cons.mp hg with rfl | hg
    · obtain ⟨hparam, hcomes⟩ := hbegins.strings r buffer hr
      exact .inr ⟨hcomes, .inl hparam⟩
    · obtain rfl := mem_singleton.mp hg
      exact .inl ⟨rfl, hr⟩
  | replaces g' _ hbegins =>
    obtain rfl := mem_singleton.mp hg
    obtain ⟨hparam, hcomes⟩ := hbegins.strings r buffer hr
    exact .inr ⟨hcomes, .inl hparam⟩

/-- The data in the registers of an activation stay what they are unless an element is set. -/
theorem datum_of_strikes (hstrikes : Strikes s.store (passing f) below ins t)
    (hcovers : s.store.heap.Covers (f :: below)) (hop : ins.op ≠ .setElement) {x : Value}
    (hx : f.register? r = some x) : t.store.heap.datum x = s.store.heap.datum x := by
  cases x with
  | string buffer =>
    have hlt := hcovers.registers f mem_cons_self r buffer hx
    exact congrArg Datum.string (hstrikes.texts buffer hlt fun h => absurd h hop)
  | _ => rfl

section Knows

variable {c : Nat} (hforward : f.block.Forward) (hins : f.block.code[f.counter]? = some ins)
  (hknows : f.Knows h) (hleads : c = f.counter + 1 ∨ ins.op.isBranch = true ∧ c = ins.target.toNat)

include hforward hins hknows hleads

/-- An activation goes on after an instruction that is no call, with everything known. -/
theorem knows_of_moves {value : Option Value}
    (hinside : ∀ v, value = some v → (f.register? ins.dest).isSome = true ∧
      (ins.writes? = some ins.dest ∨ ins.op = .tailCall))
    (hgives : ins.Makes → ∃ v, value = some v ∧ (passing f).Gives h h' ins v)
    (hfails : ins.IsTest → (c : Int) < ins.target → (passing f).Fails h ins)
    (hdatum : ins.op ≠ .setElement → ∀ r x, f.register? r = some x → h'.datum x = h.datum x) :
    ((passing f).moved ins.dest c value).Knows h' := by
  have hblock : ((passing f).moved ins.dest c value).block = f.block := by cases value <;> rfl
  have hcounter : ((passing f).moved ins.dest c value).counter = c := by cases value <;> rfl
  have hsame : ins.op ≠ .tailCall → ∀ r, ins.writes? ≠ some r →
      ((passing f).moved ins.dest c value).register? r = f.register? r := by
    intro htail r hr
    cases value with
    | none => rfl
    | some v =>
      obtain ⟨hin, hwrites⟩ := hinside v rfl
      refine register?_put_of_ne (f := { passing f with counter := c })
        (nonneg_of_isSome hin) ?_
      rintro rfl
      exact hr (hwrites.resolve_right htail)
  have hdest : ∀ v, value = some v →
      ((passing f).moved ins.dest c value).register? ins.dest = some v := by
    rintro v rfl
    obtain ⟨old, hold⟩ := Option.isSome_iff_exists.mp (hinside v rfl).1
    exact register?_put (f := { passing f with counter := c }) hold v
  refine hknows.advance hforward hins hblock ?_ hsame (fun hcalm => hdatum fun hop => hcalm (.inl hop))
    fun htail hbefore => ?_
  · rw [hcounter]
    exact hleads
  rw [hcounter] at hbefore
  have hstable : ∀ r, f.block.StableAt r f.counter →
      ((passing f).moved ins.dest c value).register? r = f.register? r := fun r hr =>
    hsame htail r (hr.not_writes hins (Nat.le_refl _))
  refine ⟨fun hop _ d hd => ?_, fun hop _ ha => ?_, fun hop _ ha hb _ => ?_, fun hop ha hb => ?_⟩
  · obtain ⟨v, hv, hgives⟩ := hgives (.inr (.inl hop))
    obtain ⟨d', hd', hload⟩ := hgives.load hop
    rw [hblock] at hd
    obtain rfl : d' = d := Option.some.inj (hd'.symm.trans hd)
    have hdatum' : h'.datum v = d' := by
      have hloaded := Heap.datum_load h d'
      rwa [hload] at hloaded
    exact ⟨v, hdest v hv, by rw [hdatum'], fun _ => hdatum'⟩
  · obtain ⟨v, hv, hgives⟩ := hgives (.inl hop)
    rw [hblock] at ha
    exact ⟨v, hdest v hv, (hstable _ ha).trans (hgives.move hop)⟩
  · obtain ⟨v, hv, hgives⟩ := hgives (.inr (.inr hop))
    obtain ⟨d, hd, hload⟩ := hgives.result hop
    rw [hblock] at ha hb
    have hquiet : ins.op ≠ .setElement := fun hset => by rw [hset] at hop; cases hop
    refine ⟨v, d, hdest v hv, ?_, fun _ => ?_⟩
    · rw [← hd]
      exact result?_congr (f := f) (hstable _ ha) (hb.imp_right fun hb => hstable _ hb)
        (hdatum hquiet)
    · have hloaded := Heap.datum_load h d
      rwa [hload] at hloaded
  · obtain ⟨x, y, hx, hy, hequal⟩ := hfails hop (hbefore hop)
    rw [hblock] at ha hb
    have hquiet : ins.op ≠ .setElement := fun hset => by rcases hop with hop | hop <;> simp [hset] at hop
    refine ⟨x, y, (hstable _ ha).trans hx, (hstable _ hb).trans hy, fun _ => ?_⟩
    unfold Heap.equal at hequal ⊢
    rw [hdatum hquiet _ x hx, hdatum hquiet _ y hy]
    exact hequal

/-- An activation that waits for the result of a call or an arm will know everything when it goes
on. -/
theorem knows_of_waiting (hstirs : ins.Stirs c) (hwrites : ins.writes? = some ins.dest) (hnonneg : 0 ≤ ins.dest)
    (v : Value) (h' : Heap) : ({ passing f with counter := c }.put ins.dest v).Knows h' := by
  have hquiet : ¬ ins.Makes ∧ (ins.IsTest → ins.target ≤ c) := by
    unfold Instruction.Makes Instruction.IsTest
    rcases hstirs with hop | hop | hop | ⟨hop | hop, htarget⟩ <;> simp [hop, Opcode.isPure]
    exact htarget
  refine hknows.advance hforward hins rfl hleads (fun _ r hr => ?_) (fun hcalm => absurd hstirs hcalm)
    fun _ hbefore => ⟨fun hop => absurd (.inr (.inl hop)) hquiet.1, fun hop => absurd (.inl hop) hquiet.1,
      fun hop => absurd (.inr (.inr hop)) hquiet.1, fun htest => ?_⟩
  · refine register?_put_of_ne (f := { passing f with counter := c }) hnonneg ?_
    rintro rfl
    exact hr hwrites
  · -- an arm that was entered has not failed
    have hle := hquiet.2 htest
    have hlt : (c : Int) < ins.target := hbefore htest
    omega

end Knows

/-- The activations that an instruction leaves wait as they should, and the innermost one knows what
it should. -/
theorem informed_of_stroke (hforward : f.block.Forward)
    (hins : f.block.code[f.counter]? = some ins) (hknows : f.Knows s.store.heap)
    (hcovers : s.store.heap.Covers (f :: below)) (hwaiting : Waiting (f :: below))
    (hstrikes : Strikes s.store (passing f) below ins t)
    (hstroke : Stroke s.store t.store.heap (passing f) ins own) :
    Waiting (own ++ below) ∧ ∀ g rest, own ++ below = g :: rest → g.Knows t.store.heap := by
  cases hstroke with
  | moves c value leads inside gives fails comes =>
    refine ⟨hwaiting.replace (by cases value <;> rfl), fun g rest hg => ?_⟩
    obtain ⟨rfl, -⟩ := List.cons.inj hg
    exact knows_of_moves hforward hins hknows leads inside gives fails fun hop r x hx =>
      datum_of_strikes hstrikes hcovers hop hx
  | pushes g c leads stirs writes destination begins =>
    refine ⟨⟨fun hnonneg => ?_, hwaiting.replace rfl⟩, fun g rest hg => ?_⟩
    · rw [destination] at hnonneg ⊢
      exact ⟨⟨f.counter, ins, c, hins, stirs, writes⟩,
        knows_of_waiting hforward hins hknows leads stirs writes hnonneg⟩
    · obtain ⟨rfl, -⟩ := List.cons.inj hg
      exact knows_of_start begins.counter
  | replaces g destination begins =>
    refine ⟨hwaiting.replace destination, fun g rest hg => ?_⟩
    obtain ⟨rfl, -⟩ := List.cons.inj hg
    exact knows_of_start begins.counter

/-- The blocks of the activations that an instruction leaves are those of the activation and of the
code. -/
theorem block_of_stroke {store : Store} (hstroke : Stroke store h f ins own) (hg : g ∈ own) :
    g.block = f.block ∨ ∃ place, g.block = store.block place := by
  cases hstroke with
  | moves c value =>
    obtain rfl := mem_singleton.mp hg
    cases value <;> exact .inl rfl
  | pushes g' _ _ _ _ _ hbegins =>
    rcases mem_cons.mp hg with rfl | hg
    · exact .inr hbegins.known
    · exact .inl (by rw [mem_singleton.mp hg])
  | replaces g' _ hbegins => exact .inr (by rw [mem_singleton.mp hg]; exact hbegins.known)

/-- A round after which a machine goes on does an instruction, or it ends an activation. -/
theorem turn_eq_goesOn (hturn : s.turn = .goesOn t) : ∃ f below, s.frames = f :: below ∧
    ((∃ ins, f.block.code[f.counter]? = some ins ∧ Strikes s.store (passing f) below ins t) ∨
      ∃ g rest result, below = g :: rest ∧ f.register? f.block.ret = some result ∧
        (g.register? f.destination).isSome = true ∧
        t = ⟨s.store, g.put f.destination result :: rest⟩) := by
  obtain ⟨store, frames⟩ := s
  cases frames with
  | nil => cases hturn
  | cons f below =>
    refine ⟨f, below, rfl, ?_⟩
    cases hins : f.block.code[f.counter]? with
    | some ins =>
      rw [turn_of_instruction hins] at hturn
      refine .inl ⟨ins, rfl, strikes_of_step ?_⟩
      cases hstep : step { f with counter := f.counter + 1 } below store ins <;>
        rw [hstep] at hturn <;> cases hturn
      exact hstep
    | none =>
      rw [turn_of_end hins] at hturn
      cases hresult : f.register f.block.ret with
      | error failure =>
        rw [hresult] at hturn
        cases hturn
      | ok result =>
        rw [hresult] at hturn
        cases below with
        | nil => cases hturn
        | cons g rest =>
          refine .inr ⟨g, rest, result, rfl, register_eq_ok hresult, ?_⟩
          cases hold : g.register f.destination with
          | error failure =>
            simp only [handOn, give, hold] at hturn
            cases hturn
          | ok old =>
            simp only [handOn, give, hold] at hturn
            cases hturn
            exact ⟨by rw [register_eq_ok hold]; rfl, rfl⟩

section Secrets

variable (hframes : s.frames = f :: below) (hins : f.block.code[f.counter]? = some ins)

include hframes hins

/-- A string that an instruction looks at shows. -/
theorem Shows.of_looked (hr : r ∈ ins.sources)
    (hbuffer : f.register? r = some (.string buffer)) : s.Shows buffer :=
  .inr ⟨f, by rw [hframes]; exact mem_cons_self, r, fun hsecret => hsecret.reads _ _ hins hr, hbuffer⟩

/-- What shows after an instruction showed before, or it is new. -/
theorem Shows.of_strikes (hstrikes : Strikes s.store (passing f) below ins t)
    (hshows : t.Shows buffer) : s.Shows buffer ∨ s.store.heap.strings.size ≤ buffer := by
  have hcomes : Heap.Comes ((passing f).looked ins) s.store.heap t.store.heap buffer →
      s.Shows buffer ∨ s.store.heap.strings.size ≤ buffer := by
    rintro (hheld | hlooked | ⟨hnew, -⟩)
    · exact .inl (.inl hheld)
    · obtain ⟨r, hr, hbuffer⟩ := mem_filterMap.mp hlooked
      exact .inl (.of_looked hframes hins hr hbuffer)
    · exact .inr hnew
  rcases hshows with hheld | ⟨g, hg, r, hr, hbuffer⟩
  · exact hcomes (hstrikes.held buffer hheld)
  · obtain ⟨own, hown, hstroke⟩ := hstrikes.frames
    rw [hown] at hg
    rcases mem_append.mp hg with hg | hg
    · rcases string_of_stroke hstroke hg hbuffer with ⟨hblock, hold⟩ | ⟨hnew, -⟩
      · rw [hblock] at hr
        exact .inl (.inr ⟨f, by rw [hframes]; exact mem_cons_self, r, hr, hold⟩)
      · exact hcomes hnew
    · exact .inl (.inr ⟨g, by rw [hframes]; exact mem_cons_of_mem _ hg, r, hr, hbuffer⟩)

/-- An instruction keeps the secrets. -/
theorem Guards.of_strikes (hguards : s.Guards) (hforward : f.block.Forward)
    (hcovers : s.store.heap.Covers (f :: below))
    (hstrikes : Strikes s.store (passing f) below ins t) : t.Guards := by
  -- a secret from before is still one
  have hold : ∀ g ∈ f :: below, ∀ r buffer, g.block.Secret r → g.register? r = some (.string buffer) →
      ¬ t.Shows buffer ∧ ∃ (o : Nat) (ins : Instruction), g.block.code[o]? = some ins ∧
        ins.op = .loadConstant ∧ ins.dest = r ∧
        g.block.constant? ins.k = some (.string (t.store.heap.text buffer)) := by
    intro g hg r buffer hsecret hr
    obtain ⟨hhidden, hloaded⟩ := hguards g (hframes ▸ hg) r buffer hsecret hr
    have hlt := hcovers.registers g hg r buffer hr
    refine ⟨fun hshows => ?_, ?_⟩
    · rcases hshows.of_strikes hframes hins hstrikes with hshows | hnew
      · exact hhidden hshows
      · omega
    · rwa [hstrikes.texts buffer hlt fun hop hset => hhidden
        (.of_looked hframes hins (by simp [Instruction.sources, hop]) hset)]
  intro g hg r buffer hsecret hr
  obtain ⟨own, hown, hstroke⟩ := hstrikes.frames
  rw [hown] at hg
  rcases mem_append.mp hg with hg | hg
  · rcases string_of_stroke hstroke hg hr with ⟨hblock, hr⟩ |
      ⟨-, hparam | ⟨rfl, hblock, hwrites, hothers, hgives⟩⟩
    · rw [hblock] at hsecret ⊢
      exact hold f mem_cons_self r buffer hsecret hr
    · have := hsecret.params
      omega
    · rw [hblock] at hsecret ⊢
      -- only a load writes a secret register, and its string is new
      have hwrites : ins.writes? = some r := hwrites.resolve_right fun htail =>
        hsecret.ret (htail.2.trans (hforward.tailCall _ _ hins htail.1).2)
      have hop := hsecret.writes _ _ hins hwrites
      obtain ⟨d, hd, hload⟩ := (hgives (.inr (.inl hop))).load hop
      have hdest : ins.dest = r := by simpa [Instruction.writes?, hop] using hwrites
      have hstring : (s.store.heap.load d).1 = .string buffer := by rw [hload]
      have hheap : t.store.heap = (s.store.heap.load d).2 := by rw [hload]
      have hsize := (Heap.new_of_load hstring).1
      refine ⟨?_, f.counter, ins, hins, hop, hdest, ?_⟩
      · rintro (⟨place, o, ho, hmem⟩ | ⟨k, hk, r', hr', hk'⟩)
        · rw [hheap, Heap.objects_load] at ho
          have := hcovers.held buffer ⟨place, o, ho, hmem⟩
          omega
        · rw [hown] at hk
          rcases mem_cons.mp hk with rfl | hk
          · have hne : r' ≠ r := fun heq => hr' (by rw [heq, hblock]; exact hsecret)
            rw [hothers r' hne] at hk'
            have := hcovers.registers f mem_cons_self r' buffer hk'
            omega
          · have := hcovers.registers k (mem_cons_of_mem _ hk) r' buffer hk'
            omega
      · have hdatum : t.store.heap.datum (.string buffer) = d := by
          rw [hheap, ← hstring]
          exact Heap.datum_load _ d
        exact hd.trans (congrArg some hdatum.symm)
  · exact hold g (mem_cons_of_mem _ hg) r buffer hsecret hr

end Secrets

/-- The end of an activation keeps the secrets. -/
theorem Guards.of_end {rest : List Activation} {result : Value} (hguards : s.Guards)
    (hframes : s.frames = f :: g :: rest) (hret : f.register? f.block.ret = some result)
    (hinside : (g.register? f.destination).isSome = true) (hawaits : g.block.Awaits f.destination) :
    Guards ⟨s.store, g.put f.destination result :: rest⟩ := by
  have hshows : ∀ buffer, Shows ⟨s.store, g.put f.destination result :: rest⟩ buffer →
      s.Shows buffer := by
    rintro buffer (hheld | ⟨k, hk, r, hr, hbuffer⟩)
    · exact .inl hheld
    · refine .inr ?_
      rw [hframes]
      rcases mem_cons.mp hk with rfl | hk
      · rcases string_of_put hinside hbuffer with ⟨-, rfl⟩ | ⟨-, hbuffer⟩
        · exact ⟨f, by simp, _, fun hsecret => hsecret.ret rfl, hret⟩
        · exact ⟨g, by simp, r, hr, hbuffer⟩
      · exact ⟨k, by simp [hk], r, hr, hbuffer⟩
  have hold : ∀ k ∈ f :: g :: rest, ∀ r buffer, k.block.Secret r →
      k.register? r = some (.string buffer) → _ := fun k hk => hguards k (hframes ▸ hk)
  intro k hk r buffer hsecret hr
  rcases mem_cons.mp hk with rfl | hk
  · rcases string_of_put hinside hr with ⟨rfl, -⟩ | ⟨-, hr⟩
    · obtain ⟨o, ins, c, hins, hstirs, hwrites⟩ := hawaits
      have hop := hsecret.writes o ins hins hwrites
      rcases hstirs with hop' | hop' | hop' | ⟨hop' | hop', -⟩ <;> rw [hop'] at hop <;> cases hop
    · exact (hold g (by simp) r buffer hsecret hr).imp_left fun hhidden => mt (hshows buffer) hhidden
  · exact (hold k (by simp [hk]) r buffer hsecret hr).imp_left fun hhidden => mt (hshows buffer) hhidden

/-- Every round keeps a machine informed. -/
theorem Informed.turn (hs : s.Informed K) (hK : ∀ b, K b → b.Forward) (hturn : s.turn = .goesOn t) :
    t.Informed K := by
  obtain ⟨f, below, hframes, hround⟩ := turn_eq_goesOn hturn
  have hcovers : s.store.heap.Covers (f :: below) := hframes ▸ hs.covers
  have hwaiting : Waiting (f :: below) := hframes ▸ hs.waiting
  have hblocks : ∀ g ∈ f :: below, K g.block := hframes ▸ hs.blocks
  rcases hround with ⟨ins, hins, hstrikes⟩ | ⟨g, rest, result, rfl, hret, hinside, rfl⟩
  · obtain ⟨own, hown, hstroke⟩ := hstrikes.frames
    have hinformed := informed_of_stroke (hK _ (hblocks f mem_cons_self)) hins
      (hs.knows f below hframes) hcovers hwaiting hstrikes hstroke
    refine ⟨fun place => ?_, fun g hg => ?_, ⟨fun buffer hheld => ?_, fun g hg r buffer hr => ?_⟩,
      hown ▸ hinformed.2, hown ▸ hinformed.1,
      hs.guards.of_strikes hframes hins (hK _ (hblocks f mem_cons_self)) hcovers hstrikes⟩
    · rw [Store.block, hstrikes.code]
      exact hs.code place
    · rw [hown] at hg
      rcases mem_append.mp hg with hg | hg
      · rcases block_of_stroke hstroke hg with hsame | ⟨place, hplace⟩
        · rw [hsame]
          exact hblocks f mem_cons_self
        · rw [hplace]
          exact hs.code place
      · exact hblocks g (mem_cons_of_mem _ hg)
    · exact lt_of_comes hcovers hstrikes.grows (hstrikes.held buffer hheld)
    · rw [hown] at hg
      rcases mem_append.mp hg with hg | hg
      · rcases string_of_stroke hstroke hg hr with ⟨-, hold⟩ | ⟨hcomes, -⟩
        · exact Nat.lt_of_lt_of_le (hcovers.registers f mem_cons_self r buffer hold) hstrikes.grows
        · exact lt_of_comes hcovers hstrikes.grows hcomes
      · exact Nat.lt_of_lt_of_le (hcovers.registers g (mem_cons_of_mem _ hg) r buffer hr)
          hstrikes.grows
  · have hwaits := hwaiting.1 (nonneg_of_isSome hinside)
    refine ⟨hs.code, fun k hk => ?_, ⟨hcovers.held, fun k hk r buffer hr => ?_⟩, fun k more hk => ?_,
      hwaiting.2.replace rfl, hs.guards.of_end hframes hret hinside hwaits.1⟩
    · rcases mem_cons.mp hk with rfl | hk
      · exact hblocks g (by simp)
      · exact hblocks k (by simp [hk])
    · rcases mem_cons.mp hk with rfl | hk
      · rcases string_of_put hinside hr with ⟨-, rfl⟩ | ⟨-, hr⟩
        · exact hcovers.registers f mem_cons_self _ _ hret
        · exact hcovers.registers g (by simp) r buffer hr
      · exact hcovers.registers k (by simp [hk]) r buffer hr
    · obtain ⟨rfl, -⟩ := List.cons.inj hk
      exact hwaits.2 result _

end Plain

end Inkwell
