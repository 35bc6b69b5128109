import Mathlib
import Inkwell.Proofs.Engine.Generated
import Inkwell.Proofs.Machine.InStep
import Inkwell.Proofs.Optimizer.Informed

/-!
# Exchanging single instructions

A loop of a pass goes through the instructions of a block from front to back and may exchange each for
one that goes straight on. If the new instruction does the same as the old one on every machine that
runs the new block and knows what has been done (`Block.Imitates`), the program with the new blocks
runs in step with the old one (`Program.Sourced.sameRuns`).

While the loop is at an instruction, everything in front of it is as it will be in the end, and
everything behind as it was at the start (`Stage`).
-/

namespace Inkwell

open List Option Activation Compile

variable {i : Nat} {p : Program} {value : Datum}

namespace Block.Revises

variable {b b' : Block}

theorem resembles (h : b'.Revises b) : b'.Resembles b where
  id := h.id
  name := h.name
  slots := h.slots
  params := h.params
  ret := h.ret
  binds := h.nesting.binds
  nested k := by
    unfold nested?
    cases hk : b.constant? k with
    | some value => rw [h.kept k value hk]
    | none =>
      cases hk' : b'.constant? k with
      | none => rfl
      | some value =>
        have hbare := (h.fresh k value hk').resolve_left (by rw [hk]; simp)
        cases value <;> first | rfl | cases hbare
  positions i := by
    cases hins : b'.code[i]? with
    | none =>
      have hsize := h.size
      rw [Array.getElem?_eq_none_iff] at hins
      rw [Array.getElem?_eq_none_iff.mpr (by omega)]
    | some ins =>
      rcases h.code i ins hins with hold | ⟨old, hold, heases⟩
      · rw [hold]
      · rw [hold, map_some, map_some, heases.position]

theorem forward (h : b'.Revises b) (hb : b.Forward) : b'.Forward where
  targets o ins hins hop := by
    rcases h.code o ins hins with hold | ⟨_, _, heases⟩
    · exact hb.targets o ins hold hop
    · rw [heases.straight.isBranch_eq] at hop
      cases hop
  tailCall o ins hins hop := by
    rw [h.size, h.ret]
    rcases h.code o ins hins with hold | ⟨_, _, heases⟩
    · exact hb.tailCall o ins hold hop
    · have hstraight := heases.straight
      simp [Instruction.IsStraight, hop] at hstraight

/-- Facts about a block are still right when instructions have been exchanged. -/
theorem describes (h : b'.Revises b) {f : Flow} (hf : f.Describes b) : f.Describes b' where
  params := hf.params.trans h.params.symm
  writers o ins r hins hwrites := by
    rcases h.code o ins hins with hold | ⟨old, hold, heases⟩
    · exact hf.writers o ins r hold hwrites
    · refine hf.writers o old r hold (heases.writes.elim (fun hnone => ?_) fun hsame => hsame ▸ hwrites)
      rw [hnone] at hwrites
      cases hwrites
  jumps o ins hins hop := by
    rcases h.code o ins hins with hold | ⟨_, _, heases⟩
    · exact hf.jumps o ins hold hop
    · rw [heases.straight.isBranch_eq] at hop
      cases hop
  inside o r ho := by
    obtain ⟨old, hold, hwrites⟩ := hf.inside o r ho
    have hlt : o < b'.code.size := h.size ▸ (Array.getElem?_eq_some_iff.mp hold).1
    refine ⟨_, Array.getElem?_eq_getElem hlt, ?_⟩
    rcases h.code o _ (Array.getElem?_eq_getElem hlt) with hsame | ⟨old', hold', heases⟩
    · cases hold.symm.trans hsame
      exact hwrites
    · cases hold.symm.trans hold'
      rcases heases.writes with hnone | hsame
      · exact .inl hnone
      · rw [hsame]
        exact hwrites

end Block.Revises

/-! ## Loops -/

/-- A step at instruction `i` of a loop that makes the block `b'` out of `b`: it makes `t'` out of
`t`. The loop puts only instructions of one kind in. -/
structure Stage (New : Instruction → Prop) (b b' : Block) (i : Nat) (t t' : Block) : Prop where
  before : t.Revises b
  revises : t'.Revises t
  after : b'.Revises t'
  behind : t.code[i]? = b.code[i]?
  here : b'.code[i]? = t'.code[i]?
  front : ∀ j < i, b'.code[j]? = t.code[j]?
  changed : ∀ (j : Nat) ins, b'.code[j]? = some ins → b.code[j]? = some ins ∨ New ins

/-- A step of a loop, which revises a block at one instruction. -/
def Revision (New : Instruction → Prop) (step : Block × Bool → Nat → Option (Block × Bool)) : Prop :=
  ∀ s i s', step s i = some s' → s'.1.Revises s.1 ∧
    (s'.1 = s.1 ∨ ∃ ins, New ins ∧ s'.1.code = s.1.code.setIfInBounds i ins)

theorem Block.getElem?_setInstruction {b : Block} {old : Instruction} (ins : Instruction)
    (hold : b.code[i]? = some old) : (b.setInstruction i ins).code[i]? = some ins :=
  Array.getElem?_setIfInBounds_self_of_lt (Array.getElem?_eq_some_iff.1 hold).1

namespace Revision

variable {New : Instruction → Prop} {step : Block × Bool → Nat → Option (Block × Bool)}

theorem getElem? (hstep : Revision New step) {s s' : Block × Bool} (h : step s i = some s') :
    (∀ j ≠ i, s'.1.code[j]? = s.1.code[j]?) ∧
      ∀ ins, s'.1.code[i]? = some ins → s.1.code[i]? = some ins ∨ New ins := by
  rcases (hstep s i s' h).2 with hsame | ⟨new, hnew, hcode⟩
  · exact ⟨fun j _ => by rw [hsame], fun ins hins => .inl (hsame ▸ hins)⟩
  · rw [hcode]
    refine ⟨fun j hj => Array.getElem?_setIfInBounds_ne hj.symm, fun ins hins => ?_⟩
    rw [Array.getElem?_setIfInBounds_self] at hins
    split at hins
    · cases hins
      exact .inr hnew
    · cases hins

/-- What a loop over some of the instructions does. -/
theorem foldlM (hstep : Revision New step) (places : List Nat) (s s' : Block × Bool)
    (h : places.foldlM step s = some s') : s'.1.Revises s.1 ∧
      (∀ j, j ∉ places → s'.1.code[j]? = s.1.code[j]?) ∧
      ∀ (j : Nat) ins, s'.1.code[j]? = some ins → s.1.code[j]? = some ins ∨ New ins := by
  refine foldlM_keeps_mem (P := fun t => t.1.Revises s.1 ∧
      (∀ j, j ∉ places → t.1.code[j]? = s.1.code[j]?) ∧
      ∀ (j : Nat) ins, t.1.code[j]? = some ins → s.1.code[j]? = some ins ∨ New ins)
    (fun t k t' hk ht ht' => ?_) s s' ⟨.refl _, fun _ _ => rfl, fun _ _ hins => .inl hins⟩ h
  obtain ⟨helsewhere, hhere⟩ := hstep.getElem? ht'
  refine ⟨(hstep t k t' ht').1.trans ht.1, fun j hj => ?_, fun j ins hins => ?_⟩
  · exact (helsewhere j fun heq => hj (heq ▸ hk)).trans (ht.2.1 j hj)
  · by_cases hjk : j = k
    · subst hjk
      exact (hhere ins hins).elim (ht.2.2 j ins) .inr
    · exact ht.2.2 j ins (helsewhere j hjk ▸ hins)

/-- Each instruction has its step in a loop. -/
theorem stage (hstep : Revision New step) {n : Nat} (hi : i < n) {s s' : Block × Bool}
    (h : (List.range n).foldlM step s = some s') :
    ∃ t t', step t i = some t' ∧ Stage New s.1 s'.1 i t.1 t'.1 := by
  have hchanged := (hstep.foldlM _ _ _ h).2.2
  obtain ⟨more, rfl⟩ := Nat.exists_eq_add_of_lt hi
  rw [Nat.add_assoc, List.range_add, List.range_succ_eq_map, List.map_cons, List.foldlM_append] at h
  obtain ⟨t, ht, h⟩ := Option.bind_eq_some_iff.1 h
  rw [List.foldlM_cons] at h
  obtain ⟨t', ht', h⟩ := Option.bind_eq_some_iff.1 h
  obtain ⟨hbefore, hbehind, -⟩ := hstep.foldlM _ _ _ ht
  obtain ⟨hafter, hfront, -⟩ := hstep.foldlM _ _ _ h
  have hnot : ∀ j ≤ i, j ∉ ((List.range more).map Nat.succ).map (i + ·) := by
    intro j hj hmem
    simp only [List.mem_map, List.mem_range] at hmem
    omega
  refine ⟨t, t', ht', hbefore, (hstep t i t' ht').1, hafter, hbehind i (by simp), ?_, fun j hj => ?_,
    hchanged⟩
  · exact hfront i (hnot i (Nat.le_refl i))
  · rw [hfront j (hnot j (Nat.le_of_lt hj)), (hstep.getElem? ht').1 j (by omega)]

/-- A loop whose steps always succeed on blocks that load only what is there comes to its end. -/
theorem exists_foldlM (hstep : Revision New step) {b : Block} (hb : b.Loadable)
    (hsome : ∀ s : Block × Bool, s.1.Revises b → s.1.Loadable → ∀ i < b.code.size,
      ∃ s', step s i = some s') :
    ∀ (places : List Nat) (s : Block × Bool), (∀ i ∈ places, i < b.code.size) → s.1.Revises b →
      ∃ s', places.foldlM step s = some s'
  | [], s, _, _ => ⟨s, rfl⟩
  | i :: rest, s, hplaces, hs => by
    obtain ⟨t, ht⟩ := hsome s hs (hs.loads hb) i (hplaces i mem_cons_self)
    obtain ⟨s', hs'⟩ := exists_foldlM hstep hb hsome rest t
      (fun j hj => hplaces j (mem_cons_of_mem _ hj)) ((hstep s i t ht).1.trans hs)
    exact ⟨s', by rw [foldlM_cons, ht]; exact hs'⟩

end Revision

/-! ## Programs -/

/-- The code of a program text, possibly after passes of the optimizer. -/
inductive Program.Sourced : Program → Prop where
  | compiled {natives : Text → Option Nat} {file name : Text} {tokens : List Token}
      {globals : Text → Bool} {p : Program}
      (h : (Script.parse file tokens).1.compile natives name
        ((Script.parse file tokens).1.resolve globals).1 = .ok p) : Sourced p
  | improved {p q : Program} {pass : Pass} (hp : Sourced p) (hpass : IsPass pass)
      (h : pass.result? p = some q) : Sourced q

/-- Two programs have the same outcomes on new machines, whatever the limit on frames is and however
long they run. -/
def Program.SameRuns (p q : Program) : Prop :=
  ∀ output limit fuel, SameRun (Machine.perform fuel (.run p) (Machine.fresh output limit))
    (Machine.perform fuel (.run q) (Machine.fresh output limit))

/-- The program of other blocks, if there is one for each. -/
def Program.rewrite (run : Block → Option (Block × Bool)) (p : Program) : Option Program :=
  (p.blocks.toList.mapM fun b => (run b).map (·.1)).map fun blocks => ⟨blocks.toArray⟩

theorem Program.Sourced.built (h : p.Sourced) : p.Built ∧ p.validate = .ok () := by
  induction h with
  | compiled h => exact ⟨.compiled h, Script.valid_of_compile rfl h⟩
  | improved _ hpass h ih => exact ⟨.improved ih.1 hpass h, Pass.validate_of_result? h⟩

theorem Program.Sourced.block (h : p.Sourced) {b : Block} (hb : b ∈ p.blocks) :
    b.Forward ∧ b.Loadable ∧ b.Tidy := by
  obtain ⟨hbuilt, hvalid⟩ := h.built
  obtain ⟨place, hplace⟩ := Array.mem_iff_getElem?.mp hb
  have hlt := (Array.getElem?_eq_some_iff.mp hplace).1
  have hsound := sound_of_mem_places hbuilt.ordered hvalid
    (show place ∈ p.places by rw [hbuilt.places_eq]; exact mem_range.mpr hlt)
  have hblock : p.block place = b := by rw [Program.block, hplace]; rfl
  rw [hblock] at hsound
  obtain ⟨htidy, htail⟩ := hbuilt.inOrder b hb
  refine ⟨⟨fun o ins hins hop => ((hsound.inBounds.instructions o ins hins).target hop).1,
    fun o ins hins hop => ?_⟩, fun o ins hins hop => (hsound.inBounds.instructions o ins hins).constant hop,
    htidy⟩
  have hends := htail o ins hins (by simp [Instruction.isTail, hop])
  exact ⟨hends.last (by rw [hop]; rfl), hends.dest⟩

/-- Each instruction of a block does what another block has in its place, on every machine that is
about to do it and knows what has been done. -/
def Block.Imitates (b' b : Block) : Prop :=
  ∀ (s : Plain) (f : Activation) (below : List Activation) (ins ins' : Instruction),
    s.Informed Block.Forward → s.frames = f :: below → f.block = b' →
    b.code[f.counter]? = some ins → b'.code[f.counter]? = some ins' →
    Plain.step (Plain.passing f) below s.store ins' = Plain.step (Plain.passing f) below s.store ins

/-- At the start nothing has to be known. -/
theorem Plain.Informed.start {K : Block → Prop} {p : Program} (hK : ∀ place, K (p.block place))
    (output : Output) : (Plain.start output p).Informed K := by
  have hheld : ∀ buffer, ¬ Heap.Holds {} buffer := by
    rintro buffer ⟨place, o, ho, -⟩
    cases ho
  have hstrings : ∀ f ∈ (Plain.start output p).frames, ∀ r buffer,
      f.register? r ≠ some (.string buffer) := by
    intro f hf r buffer hr
    obtain rfl := mem_singleton.mp hf
    have hbegins : (Activation.begin (Store.block { code := p.blocks, output } 0) [] [] (-1)).Begins _
        (Heap.Comes (Activation.looked (.begin p.root [] [] (-1)) { op := .nop }) {} {}) :=
      Plain.begins_begin nofun
    rcases (hbegins.strings r buffer hr).2 with hheld' | hlooked | ⟨-, hlt⟩
    · exact hheld buffer hheld'
    · cases hlooked
    · cases hlt
  refine ⟨hK, fun f hf => ?_, ⟨fun buffer h => absurd h (hheld buffer), fun f hf r buffer hr =>
    absurd hr (hstrings f hf r buffer)⟩, fun f below hframes => ?_, trivial, fun f hf r buffer _ hr =>
    absurd hr (hstrings f hf r buffer)⟩
  · obtain rfl := mem_singleton.mp hf
    exact hK 0
  · obtain ⟨rfl, -⟩ := List.cons.inj hframes
    exact knows_of_start rfl

/-- A program whose blocks are exchanged for blocks that imitate them runs as before. -/
theorem Program.Sourced.sameRuns (hp : p.Sourced) {run : Block → Option (Block × Bool)}
    (hdefault : run default = some (default, false)) (hrun : ∀ b s, run b = some s → s.1.Revises b)
    (hsome : ∀ b ∈ p.blocks, ∃ s, run b = some s)
    (himitates : ∀ b ∈ p.blocks, ∀ s, run b = some s → s.1.Imitates b) :
    ∃ q, p.rewrite run = some q ∧ p.SameRuns q := by
  let g : Block → Block := fun b => ((run b).map (·.1)).getD b
  have hg : ∀ b s, run b = some s → g b = s.1 := fun b s h => by simp [g, h]
  have hrevises : ∀ b, (g b).Revises b := by
    intro b
    cases h : run b with
    | none => simpa [g, h] using Block.Revises.refl b
    | some s => exact hg b s h ▸ hrun b s h
  have hrecoding : Recoding g := ⟨fun b => (hrevises b).resembles, hg _ _ hdefault⟩
  have hforward : ∀ b, b ∈ p.blocks ∨ b = default → b.Forward := by
    rintro b (hb | rfl)
    · exact (hp.block hb).1
    · exact ⟨fun o ins hins => absurd (Array.mem_of_getElem? hins) (Array.not_mem_empty _),
        fun o ins hins => absurd (Array.mem_of_getElem? hins) (Array.not_mem_empty _)⟩
  have hblock : ∀ place, p.block place ∈ p.blocks ∨ p.block place = default := by
    intro place
    unfold Program.block
    cases hb : p.blocks[place]? with
    | none => exact .inr rfl
    | some b => exact .inl (Array.mem_of_getElem? hb)
  have hinStep : Plain.InStep g fun s => s.Informed (fun b => b ∈ p.blocks ∨ b = default) ∧
      (s.recode g).Informed Block.Forward := by
    have hturn : ∀ s : Plain, s.Informed (fun b => b ∈ p.blocks ∨ b = default) ∧
        (s.recode g).Informed Block.Forward → (s.recode g).turn = s.turn.recode g := by
      rintro s ⟨hs, hs'⟩
      refine Plain.turn_recode hrecoding s fun f below ins ins' hframes hins hins' => ?_
      have hb : f.block ∈ p.blocks := by
        refine (hs.blocks f (by rw [hframes]; exact mem_cons_self)).resolve_right fun hb => ?_
        rw [hb] at hins
        exact absurd (Array.mem_of_getElem? hins) (Array.not_mem_empty _)
      obtain ⟨result, hresult⟩ := hsome f.block hb
      have hnew := hg _ _ hresult
      have himitated := himitates f.block hb result hresult (s.recode g) (f.recode g)
        (below.map (Activation.recode g)) ins ins' hs' (by simp [Plain.recode, hframes]) hnew hins
        (hnew ▸ hins')
      refine himitated.trans (Plain.step_recode (f := Plain.passing f) hrecoding ins fun hload => ?_)
      obtain ⟨value, hvalue⟩ := isSome_iff_exists.mp ((hp.block hb).2.1 _ ins hins hload)
      exact ((hrevises f.block).kept ins.k value hvalue).trans hvalue.symm
    refine ⟨hturn, fun s t hs hst => ⟨hs.1.turn hforward hst, hs.2.turn (fun _ h => h) ?_⟩⟩
    rw [hturn s hs, hst]
    rfl
  have hmap : ∀ blocks : List Block, (∀ b ∈ blocks, b ∈ p.blocks) →
      (blocks.mapM fun b => (run b).map (·.1)) = some (blocks.map g) := by
    intro blocks hblocks
    induction blocks with
    | nil => rfl
    | cons b rest ih =>
      obtain ⟨s, hs⟩ := hsome b (hblocks b mem_cons_self)
      rw [mapM_cons, ih fun b hb => hblocks b (mem_cons_of_mem _ hb), hs, map_cons,
        hg b s hs]
      rfl
  refine ⟨⟨p.blocks.map g⟩, ?_, fun output limit fuel => ?_⟩
  · unfold Program.rewrite
    rw [hmap _ fun b hb => Array.mem_toList_iff.mp hb]
    show some (Program.mk (p.blocks.toList.map g).toArray) = _
    rw [← Array.toList_map, Array.toArray_toList]
  · have htidy : ∀ b ∈ p.blocks, b.Tidy := fun b hb => (hp.block hb).2.2
    refine Program.sameRun_recode hrecoding hinStep rfl htidy (fun b hb => ?_) (fun output => ⟨?_, ?_⟩)
      output limit fuel
    · obtain ⟨old, hold, rfl⟩ := Array.mem_map.mp hb
      exact (hrevises old).tidy (htidy old hold)
    · exact .start hblock output
    · rw [← Plain.start_recode hrecoding (q := ⟨p.blocks.map g⟩) rfl]
      refine .start (fun place => ?_) output
      rw [show Program.block ⟨p.blocks.map g⟩ place = g (p.block place) from
        Store.block_recode hrecoding { code := p.blocks } place]
      exact (hrevises _).forward (hforward _ (hblock place))

/-! ## What is known at a step of a loop -/

namespace Stage

variable {New : Instruction → Prop} {K : Block → Prop} {b t t' : Block} {f : Activation} {s : Plain}
  {below : List Activation} {flow : Flow} {here ins : Instruction} {r : Int} {value : Datum} {k : Int}
  {d j : Nat} (h : Stage New b f.block f.counter t t')
include h

theorem describes (hflow : flow.Describes b) : flow.Describes f.block :=
  h.after.describes (h.revises.describes (h.before.describes hflow))

theorem constant (hvalue : t.constant? k = some value) : f.block.constant? k = some value :=
  h.after.kept k value (h.revises.kept k value hvalue)

variable (hs : s.Informed K) (hframes : s.frames = f :: below) (hhere : t.code[f.counter]? = some here)
include hs hframes hhere

/-- A machine at the instruction knows what the instructions in front have done. -/
theorem known (hins : t.code[d]? = some ins) (hdom : f.block.Dominates d f.counter)
    (htest : ins.IsTest → (f.counter : Int) < ins.target) :
    f.Known s.store.heap (f.block.Calm d f.counter) d ins := by
  have hlt := (Array.getElem?_eq_some_iff.1 hhere).1
  rw [← h.revises.size, ← h.after.size] at hlt
  exact hs.knows f below hframes hlt d ins ((h.front d hdom.1).trans hins) hdom htest

/-- The constant that is said to be in a register is there, unless it is a string that has changed. -/
theorem loaded (hflow : flow.Describes b) (hloads : flow.LoadsAt t r j value k d ins)
    (hj : j = f.counter ∨ f.block.Dominates j f.counter) :
    ∃ v, f.register? r = some v ∧ (s.store.heap.datum v).isString = value.isString ∧
      ((value.isString = true → f.block.Calm d f.counter) → s.store.heap.datum v = value) := by
  have hflow' := h.describes hflow
  have hdest := hloads.dest (h.before.describes hflow)
  have hdom : f.block.Dominates d f.counter := by
    rcases hj with rfl | hj
    · exact hflow'.dominates hloads.dominates
    · exact (hflow'.dominates hloads.dominates).trans hj
  have hknown := h.known hs hframes hhere hloads.code hdom fun htest => by
    rcases htest with hop | hop <;> rw [hloads.op] at hop <;> cases hop
  rw [← hdest]
  exact hknown.loaded hloads.op (hdest ▸ hflow'.onlyWriter hloads.writer) value
    (h.constant (hloads.place ▸ hloads.constant))

end Stage

/-- What is no string is loaded as it is. -/
theorem Store.load_eq {s : Store} {v : Value} (hdatum : s.heap.datum v = value)
    (hstring : value.isString = false) : s.load value = (v, s) := by
  unfold load
  rw [← hdatum, Heap.load_datum (hdatum ▸ hstring)]

namespace Plain

variable {f : Activation} {below : List Activation} {s : Store} {ins : Instruction}

theorem step_of_move {v : Value} (hop : ins.op = .move) (hv : f.register? ins.a = some v) :
    step f below s ins = give f below ins.dest (v, s) := by
  unfold step
  rw [hop]
  show (f.register ins.a >>= fun v => give f below ins.dest (v, s)) = _
  rw [register_of_some hv]
  rfl

theorem step_of_load (hop : ins.op = .loadConstant)
    (hvalue : f.block.constant? ins.k = some value) :
    step f below s ins = give f below ins.dest (s.load value) := by
  unfold step
  rw [hop]
  show (orOutside (f.block.constant? ins.k) >>= fun d => give f below ins.dest (s.load d)) = _
  rw [hvalue]
  rfl

/-- An operation that succeeds gives its result. -/
theorem step_of_result (h : f.result? s.heap ins = some (.ok value)) :
    step f below s ins = give f below ins.dest (s.load value) := by
  unfold Activation.result? at h
  unfold step
  cases hop : ins.op with
  | negate =>
    simp only [hop] at h ⊢
    obtain ⟨x, hx, hvalue⟩ := map_eq_some_iff.1 h
    rw [register_of_some hx]
    show (orFault (s.heap.datum x).negate >>= fun d => give f below ins.dest (s.load d)) = _
    rw [hvalue]
    rfl
  | operate op =>
    simp only [hop] at h ⊢
    obtain ⟨x, hx, h⟩ := bind_eq_some_iff.1 h
    obtain ⟨y, hy, hvalue⟩ := map_eq_some_iff.1 h
    rw [register_of_some hx, register_of_some hy]
    show (orFault (op.apply (s.heap.datum x) (s.heap.datum y)) >>= fun d =>
      give f below ins.dest (s.load d)) = _
    rw [hvalue]
    rfl
  | _ => simp only [hop] at h; cases h

end Plain

/-! ## Programs whose blocks a loop has been through -/

/-- The program that a loop over the instructions of every block makes. -/
def Program.loop (step : Flow → Block × Bool → Nat → Option (Block × Bool)) (p : Program) :
    Option Program :=
  p.rewrite fun b => (List.range b.code.size).foldlM (step (.ofBlock p b)) (b, false)

/-- A loop keeps what a program does if its steps always succeed and every instruction that a step puts
in does what the old one did. -/
theorem Program.Sourced.sameRuns_loop (hp : p.Sourced) {New : Instruction → Prop}
    {step : Flow → Block × Bool → Nat → Option (Block × Bool)}
    (hstep : ∀ flow, Revision New (step flow))
    (hsome : ∀ (flow : Flow) (s : Block × Bool) i, flow.Describes s.1 → s.1.Loadable →
      i < s.1.code.size → ∃ s', step flow s i = some s')
    (himitates : ∀ b ∈ p.blocks, ∀ (s : Plain) (f : Activation) (below : List Activation)
      (t t' : Block × Bool) (ins new : Instruction), s.Informed Block.Forward → s.frames = f :: below →
      step (.ofBlock p b) t f.counter = some t' → Stage New b f.block f.counter t.1 t'.1 →
      t.1.code[f.counter]? = some ins → t'.1.code[f.counter]? = some new → t'.1 ≠ t.1 →
      Plain.step (Plain.passing f) below s.store new = Plain.step (Plain.passing f) below s.store ins) :
    ∃ q, p.loop step = some q ∧ p.SameRuns q := by
  refine hp.sameRuns rfl (fun b s h => ((hstep _).foldlM _ _ _ h).1) (fun b hb => ?_) fun b hb s h => ?_
  · refine (hstep _).exists_foldlM (hp.block hb).2.1 (fun s hs hloads i hi => ?_) _ _
      (fun i hi => mem_range.mp hi) (.refl b)
    exact hsome _ s i (hs.describes (Flow.describes_ofBlock p b)) hloads (hs.size ▸ hi)
  · intro machine f below ins new hinformed hframes hblock hins hnew
    have hlt := (Array.getElem?_eq_some_iff.1 hins).1
    obtain ⟨t, t', ht', hstage⟩ := (hstep _).stage hlt h
    have hold := hstage.behind.trans hins
    have hnew' := hstage.here.symm.trans hnew
    by_cases hsame : t'.1 = t.1
    · rw [hsame, hold] at hnew'
      cases hnew'
      rfl
    · rw [← hblock] at hstage
      exact himitates b hb machine f below t t' ins new hinformed hframes ht' hstage hold hnew' hsame

/-! ## A program with a sum that is computed twice and a test that is never reached -/

/-- The tokens of `x := ~true, y := [] = [], x + y, 'a' :: {'a' -> false, 'a' -> true}, x + y`. -/
def chosenTokens : List Token :=
  let x : Token := { kind := .name, lexeme := "x" }
  let y : Token := { kind := .name, lexeme := "y" }
  let a : Token := { kind := .string, literal := some (.text "a") }
  let sum := [x, { kind := .plus, lexeme := "+" }, y]
  let signs := map fun kind => ({ kind } : Token)
  x :: signs [.define, .tilde, .yes, .separator] ++ y :: signs [.define, .openBracket, .closeBracket] ++
    { kind := .equal, lexeme := "=" } :: signs [.openBracket, .closeBracket, .separator] ++ sum ++
    signs [.separator] ++ a :: signs [.choose, .openBrace] ++ a :: signs [.arrow, .no, .separator] ++
    a :: signs [.arrow, .yes, .closeBrace, .separator] ++ sum ++ signs [.finish]

def chosen : Script := (Script.parse "" chosenTokens).1

/-- Its code. -/
def chosenCode : Program :=
  ⟨#[{ name := "<program>", slots := 17, ret := 16
       constants := #[.boolean true, .string "a", .boolean false]
       code := #[{ op := .loadConstant, dest := 2 }, { op := .negate, dest := 3, a := 2 },
        { op := .move, a := 3 }, { op := .makeComposite, dest := 4 }, { op := .makeComposite, dest := 5 },
        { op := .operate .equal, dest := 6, a := 4, b := 5 }, { op := .move, dest := 1, a := 6 },
        { op := .move, dest := 7 }, { op := .move, dest := 8, a := 1 },
        { op := .operate .add, dest := 9, a := 7, b := 8 }, { op := .loadConstant, dest := 10, k := 1 },
        { op := .loadConstant, dest := 12, k := 1 },
        { op := .constantIfEqual, dest := 11, a := 10, b := 12, k := 2, target := 16 },
        { op := .loadConstant, dest := 13, k := 1 },
        { op := .constantIfEqual, dest := 11, a := 10, b := 13, target := 16 },
        { op := .matchFail, a := 10 }, { op := .move, dest := 14 }, { op := .move, dest := 15, a := 1 },
        { op := .operate .add, dest := 16, a := 14, b := 15 }] }]⟩

theorem resolution_chosen (r : Resolution)
    (hr : r = (chosen.resolve fun _ => false).1.markEscapes chosen) :
    r.bindings = #[{ name := "x", owner := .program, definitions := 1 },
        { name := "y", owner := .program, definitions := 1 }] ∧
      (r.references[0]? = some (.binding 0) ∧ r.references[13]? = some (.binding 0) ∧
        r.references[29]? = some (.binding 0)) ∧
      r.references[5]? = some (.binding 1) ∧ r.references[15]? = some (.binding 1) ∧
        r.references[31]? = some (.binding 1) := by
  subst hr
  refine ⟨?_, ⟨?_, ?_, ?_⟩, ?_, ?_, ?_⟩ <;> cbv

theorem sourced_chosen : chosenCode.Sourced := by
  suffices hcompile : chosen.compile (fun _ => none) "" (chosen.resolve fun _ => false).1 =
      .ok chosenCode from .compiled hcompile
  obtain ⟨hbindings, hx, hy⟩ := resolution_chosen (chosen.setting (fun _ => none) ""
    (chosen.resolve fun _ => false).1).resolution rfl
  have hheld : ∀ unit, (chosen.setting (fun _ => none) ""
      (chosen.resolve fun _ => false).1).held unit = _ := getD_frames _
  rw [Script.compile_eq]
  unfold Script.written Script.writing
  generalize chosen.setting (fun _ => none) "" (chosen.resolve fun _ => false).1 = setting at *
  obtain ⟨natives, file, ⟨bindings, references⟩, frames⟩ := setting
  dsimp only at hbindings hx hy
  subst hbindings
  obtain ⟨script, hscript⟩ : ∃ script, script = chosen := ⟨_, rfl⟩
  rw [← hscript]
  unfold chosen at hscript
  conv at hscript =>
    rhs
    cbv
  subst hscript
  have hadd : Operator.ofSymbol? ⟨⟨[⟨43#8⟩]⟩⟩ = some .add := by decide
  have hequal : Operator.ofSymbol? ⟨⟨[⟨61#8⟩]⟩⟩ = some .equal := by decide
  -- the states would be compared anew at every step if the kernel had to find the steps
  simp -implicitDefEqProofs only [Script.body, Compile.expr, Compile.sequence, Compile.target,
    Compile.name, Compile.loadBinding, Compile.storeBinding, result_bind, result_openUnit,
    Compile.State.opened, result_closeUnit_some, result_pure, result_emit,
    result_read, Compile.Setting.draft, Compile.Setting.cells, hheld, Resolution.reference?,
    Compile.loadConstant, Compile.arms, Expr.literal?, hadd, hequal, hx, hy]
  cbv

end Inkwell
