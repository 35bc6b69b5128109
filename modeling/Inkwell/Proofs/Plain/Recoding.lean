import Mathlib
import Inkwell.Proofs.Machine.Standard
import Inkwell.Proofs.Plain.Basic

/-!
# Code with other instructions

A machine whose blocks are exchanged for others that differ only in what their instructions do is the
same to every instruction that does not look into a block (`Plain.step_recode`). The functions of the
host can see how a block is shown, which the blocks have in common.
-/

namespace Inkwell

/-- Two blocks that differ only in what their instructions do and in further constants. -/
structure Block.Resembles (b' b : Block) : Prop where
  id : b'.id = b.id
  name : b'.name = b.name
  slots : b'.slots = b.slots
  params : b'.params = b.params
  ret : b'.ret = b.ret
  binds : b'.binds = b.binds
  nested : ∀ k, b'.nested? k = b.nested? k
  positions : ∀ i : Nat, b'.code[i]?.map (·.position) = b.code[i]?.map (·.position)

/-- A way to exchange blocks for others that resemble them. -/
structure Recoding (g : Block → Block) : Prop where
  resembles : ∀ b, (g b).Resembles b
  default : g default = default

/-- The store with other blocks. -/
def Store.recode (g : Block → Block) (s : Store) : Store := { s with code := s.code.map g }

/-- The activation of another block. -/
def Activation.recode (g : Block → Block) (f : Activation) : Activation :=
  { f with block := g f.block }

/-- The machine with other blocks. -/
def Plain.recode (g : Block → Block) (s : Plain) : Plain :=
  ⟨s.store.recode g, s.frames.map (Activation.recode g)⟩

variable {g : Block → Block} (hg : Recoding g)

section Store

include hg

theorem Store.block_recode (s : Store) (place : Nat) :
    (s.recode g).block place = g (s.block place) := by
  show (s.code.map g)[place]?.getD default = _
  rw [Array.getElem?_map]
  unfold Store.block
  cases s.code[place]? with
  | none => exact hg.default.symm
  | some b => rfl

theorem Store.shown_recode (s : Store) (place : Nat) :
    ((s.recode g).block place).inspect = (s.block place).inspect := by
  rw [s.block_recode hg]
  unfold Block.inspect
  rw [(hg.resembles _).id, (hg.resembles _).name]

theorem Store.inspect_recode (s : Store) (v : Value) : (s.recode g).inspect v = s.inspect v := by
  unfold Store.inspect
  simp only [s.shown_recode hg]
  rfl

theorem Store.sight_recode (s : Store) (v : Value) : (s.recode g).sight v = s.sight v := by
  unfold Store.sight Store.display
  simp only [s.shown_recode hg]
  rfl

omit hg in
theorem Deed.perform_recode (deed : Deed) (s : Store) :
    deed.perform (s.recode g) =
      match deed.perform s with
      | .ok reply s => .ok reply (s.recode g)
      | .error cause s => .error cause (s.recode g) := by
  cases deed with
  | write t v =>
    obtain ⟨code, heap, text, refusal⟩ := s
    cases refusal <;> rfl
  | _ => rfl

/-- A standard function does not look at the code. -/
theorem Store.ask_recode (s : Store) (id : Int) (arguments : List Value) :
    (s.recode g).ask id arguments = (s.ask id arguments).map fun (v, s) => (v, s.recode g) := by
  unfold Store.ask
  cases hn : (if id < 0 then none else Natives.standard[id.toNat]?) with
  | none => rfl
  | some n =>
    obtain ⟨deed, hdoes, -⟩ := Native.does_of_standard hn
    simp only [hdoes.run, s.sight_recode hg, Deed.perform_recode]
    cases (deed (s.sight (Native.argument arguments))).perform s with
    | ok reply s' => cases reply <;> rfl
    | error cause s' => rfl

theorem Store.element_recode (s : Store) (container key : Value) :
    (s.recode g).element container key =
      (s.element container key).map fun (v, s) => (v, s.recode g) := by
  unfold Store.element
  cases container with
  | composite place =>
    show (orFault (s.heap.getElement place (s.heap.datum key)) >>= _) =
      Except.map _ (orFault (s.heap.getElement place (s.heap.datum key)) >>= _)
    cases orFault (s.heap.getElement place (s.heap.datum key)) <;> rfl
  | string buffer =>
    show (orFault (s.heap.byteAt buffer (s.heap.datum key)) >>= _) =
      Except.map _ (orFault (s.heap.byteAt buffer (s.heap.datum key)) >>= _)
    cases orFault (s.heap.byteAt buffer (s.heap.datum key)) <;> rfl
  | _ =>
    dsimp only
    rw [s.inspect_recode hg]
    rfl

theorem Store.assign_recode (s : Store) (container key v : Value) :
    (s.recode g).assign container key v = (s.assign container key v).map (Store.recode g) := by
  unfold Store.assign
  cases container with
  | composite place =>
    show (orFault (s.heap.composite place) >>= _) = Except.map _ (orFault _ >>= _)
    cases orFault (s.heap.composite place) with
    | error failure => rfl
    | ok c =>
      show (orFault (Key.ofDatum (s.heap.datum key)) >>= _) =
        Except.map _ (orFault (Key.ofDatum (s.heap.datum key)) >>= _)
      cases orFault (Key.ofDatum (s.heap.datum key)) <;> rfl
  | string buffer =>
    show (orFault (s.heap.byteRange buffer (s.heap.datum key) (s.heap.datum v)) >>= _) =
      Except.map _ (orFault (s.heap.byteRange buffer (s.heap.datum key) (s.heap.datum v)) >>= _)
    cases orFault (s.heap.byteRange buffer (s.heap.datum key) (s.heap.datum v)) <;> rfl
  | _ =>
    dsimp only
    rw [s.inspect_recode hg]
    rfl

end Store

/-- Which cells a nested block takes does not depend on the code around it. -/
theorem Activation.takeCells_congr {f f' : Activation} (hregisters : f'.registers = f.registers)
    (hcells : f'.cells = f.cells) (binds : List Bind) : f'.takeCells binds = f.takeCells binds := by
  obtain ⟨block, cells, registers, counter, destination⟩ := f
  obtain ⟨block', cells', registers', counter', destination'⟩ := f'
  cases hregisters
  cases hcells
  induction binds with
  | nil => rfl
  | cons bind rest ih =>
    unfold takeCells
    rw [ih]
    rfl

include hg in
theorem Activation.enterNested_recode (f f' : Activation) (hblock : f'.block = g f.block)
    (hregisters : f'.registers = f.registers) (hcells : f'.cells = f.cells) (s : Store) (k : Int) :
    f'.enterNested (s.recode g) k = f.enterNested s k := by
  unfold enterNested
  rw [hblock, (hg.resembles _).nested]
  cases f.block.nested? k with
  | none => rfl
  | some place =>
    dsimp only
    rw [s.block_recode hg, (hg.resembles _).binds, takeCells_congr hregisters hcells]

namespace Plain

variable {s : Store} {f : Activation} {below : List Activation}

theorem bind_recode {α : Type} (e : Except Failure α) {next next' : α → Except Failure Plain}
    (h : ∀ a, next' a = (next a).map (Plain.recode g)) :
    (e >>= next') = (e >>= next).map (Plain.recode g) := by
  cases e with
  | ok a => exact h a
  | error failure => rfl

theorem bind_map_recode {α : Type} {e e' : Except Failure α} (move : α → α)
    (he : e' = e.map move) {next next' : α → Except Failure Plain}
    (h : ∀ a, next' (move a) = (next a).map (Plain.recode g)) :
    (e' >>= next') = (e >>= next).map (Plain.recode g) := by
  subst he
  cases e with
  | ok a => exact h a
  | error failure => rfl

theorem give_recode (dest : Int) (v : Value) (s : Store) :
    give (f.recode g) (below.map (Activation.recode g)) dest (v, s.recode g) =
      (give f below dest (v, s)).map (Plain.recode g) :=
  bind_recode (f.register dest) fun _ => rfl

include hg

theorem begin_recode (b : Block) (cells : List Nat) (arguments : List Value) (destination : Int) :
    Activation.begin (g b) cells arguments destination =
      (Activation.begin b cells arguments destination).recode g := by
  unfold Activation.begin Activation.recode
  rw [(hg.resembles b).slots, (hg.resembles b).params]

theorem enter_recode (dest : Int) (tail : Bool) (place : Nat) (cells : List Nat)
    (arguments : List Value) :
    enter (f.recode g) (below.map (Activation.recode g)) (s.recode g) dest tail
      ((s.recode g).block place) cells arguments =
      (enter f below s dest tail (s.block place) cells arguments).recode g := by
  unfold enter
  rw [s.block_recode hg, begin_recode hg, begin_recode hg]
  cases tail <;> rfl

theorem callArm_recode (dest k : Int) (tail : Bool) :
    callArm (f.recode g) (below.map (Activation.recode g)) (s.recode g) dest k tail =
      (callArm f below s dest k tail).map (Plain.recode g) := by
  unfold callArm
  rw [Activation.enterNested_recode hg f (f.recode g) rfl rfl rfl]
  exact bind_recode _ fun (place, cells) => congrArg Except.ok (enter_recode hg ..)

theorem call_recode (dest : Int) (callee : Value) (arguments : List Value) (tail : Bool) :
    call (f.recode g) (below.map (Activation.recode g)) (s.recode g) dest callee arguments tail =
      (call f below s dest callee arguments tail).map (Plain.recode g) := by
  unfold call
  cases callee with
  | native id =>
    refine bind_map_recode _ (s.ask_recode hg id arguments) fun (v, s') => ?_
    dsimp only
    split
    · exact give_recode dest v s'
    · rfl
  | function place =>
    show (s.function place >>= _) = _
    exact bind_recode _ fun (block, cells) => congrArg Except.ok (enter_recode hg ..)
  | _ => rfl

/-- An instruction does the same with other blocks, if the constant that it loads is the same. -/
theorem step_recode (ins : Instruction)
    (hconstant : ins.op = .loadConstant ∨ ins.op = .constantIfEqual →
      (g f.block).constant? ins.k = f.block.constant? ins.k) :
    step (f.recode g) (below.map (Activation.recode g)) (s.recode g) ins =
      (step f below s ins).map (Plain.recode g) := by
  have hgive : ∀ v s, give (f.recode g) (below.map (Activation.recode g)) ins.dest (v, s.recode g) =
      (give f below ins.dest (v, s)).map (Plain.recode g) := fun v s => give_recode ins.dest v s
  unfold step
  cases hop : ins.op with
  | nop | jump | unknown => rfl
  | move => exact bind_recode _ fun v => hgive v s
  | loadConstant =>
    dsimp only
    rw [show (f.recode g).block.constant? ins.k = _ from hconstant (.inl hop)]
    exact bind_recode _ fun d => hgive (s.load d).1 (s.load d).2
  | loadEscaped | loadCell => exact bind_recode _ fun _ => bind_recode _ fun v => hgive v s
  | storeEscaped | storeCell =>
    exact bind_recode _ fun _ => bind_recode _ fun _ => bind_recode _ fun _ => rfl
  | makeCell =>
    dsimp only
    split <;> exact bind_recode _ fun content =>
      hgive (.cell (s.create (.cell content)).1) (s.create (.cell content)).2
  | closure =>
    dsimp only
    rw [Activation.enterNested_recode hg f (f.recode g) rfl rfl rfl]
    exact bind_recode _ fun (block, cells) =>
      hgive (.function (s.create (.closure block cells)).1) (s.create (.closure block cells)).2
  | call | tailCall => exact bind_recode _ fun _ => bind_recode _ fun _ => call_recode hg ..
  | callIfEqual =>
    refine bind_recode (areEqual f s ins.a ins.b) fun equal => ?_
    cases equal
    · rfl
    · exact callArm_recode (f := f.goTo ins.target) hg ..
  | constantIfEqual =>
    refine bind_recode (areEqual f s ins.a ins.b) fun equal => ?_
    cases equal
    · rfl
    · rw [show (f.recode g).block.constant? ins.k = _ from hconstant (.inr hop)]
      exact bind_recode _ fun d => give_recode (f := f.goTo ins.target) ins.dest (s.load d).1 (s.load d).2
  | callArm => exact callArm_recode (f := f.goTo ins.target) hg ..
  | matchFail =>
    refine bind_recode _ fun v => ?_
    rw [s.inspect_recode hg]
    rfl
  | makeComposite => exact hgive (.composite (s.create (.composite {})).1) (s.create (.composite {})).2
  | setElement =>
    refine bind_recode _ fun container => bind_recode _ fun key => bind_recode _ fun v => ?_
    exact bind_map_recode _ (s.assign_recode hg container key v) fun _ => rfl
  | getElement =>
    refine bind_recode _ fun container => bind_recode _ fun key => ?_
    exact bind_map_recode _ (s.element_recode hg container key) fun (v, s') => hgive v s'
  | negate =>
    exact bind_recode _ fun _ => bind_recode _ fun d => hgive (s.load d).1 (s.load d).2
  | operate op =>
    exact bind_recode _ fun _ => bind_recode _ fun _ => bind_recode _ fun d =>
      hgive (s.load d).1 (s.load d).2

/-- The innermost activation, which goes on behind its next instruction. -/
def passing (f : Activation) : Activation := { f with counter := f.counter + 1 }

/-- The outcome of a round with other blocks. -/
def Round.recode (g : Block → Block) : Round → Round
  | .goesOn s => .goesOn (s.recode g)
  | .ended result s => .ended result (s.recode g)
  | .failed failure position s => .failed failure position (s.recode g)

omit hg in
theorem Round.ofOutcome_recode (position : Position) (outcome : Except Failure Plain) :
    Round.ofOutcome position (s.recode g) (outcome.map (Plain.recode g)) =
      (Round.ofOutcome position s outcome).recode g := by
  cases outcome <;> rfl

/-- A round leads to the same with other blocks, if the instruction that is done now does the same as
the one it stands for. -/
theorem turn_recode (s : Plain) (hstep : ∀ f below ins ins', s.frames = f :: below →
    f.block.code[f.counter]? = some ins → (g f.block).code[f.counter]? = some ins' →
    step ((passing f).recode g) (below.map (Activation.recode g)) (s.store.recode g) ins' =
      (step (passing f) below s.store ins).map (Plain.recode g)) :
    (s.recode g).turn = s.turn.recode g := by
  obtain ⟨store, frames⟩ := s
  cases frames with
  | nil => rfl
  | cons f below =>
    have hposition := (hg.resembles f.block).positions f.counter
    show turn ⟨store.recode g, f.recode g :: below.map (Activation.recode g)⟩ = _
    cases hins : f.block.code[f.counter]? with
    | some ins =>
      rw [hins] at hposition
      obtain ⟨ins', hins', hsame⟩ := Option.map_eq_some_iff.mp hposition
      rw [turn_of_instruction hins, turn_of_instruction (f := f.recode g) hins', hsame,
        ← Round.ofOutcome_recode]
      exact congrArg _ (hstep f below ins ins' rfl hins hins')
    | none =>
      rw [hins] at hposition
      rw [turn_of_end hins, turn_of_end (f := f.recode g) (Option.map_eq_none_iff.mp hposition)]
      rw [show (f.recode g).block.ret = f.block.ret from (hg.resembles f.block).ret,
        show (f.recode g).register f.block.ret = f.register f.block.ret from rfl]
      cases f.register f.block.ret with
      | error failure => rfl
      | ok result =>
        cases below with
        | nil => rfl
        | cons below rest =>
          show Round.ofOutcome {} (store.recode g) _ = _
          rw [give_recode, Round.ofOutcome_recode]
          rfl

end Plain

end Inkwell
