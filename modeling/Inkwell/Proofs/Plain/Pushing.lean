import Mathlib
import Inkwell.Proofs.Code.TailSafe
import Inkwell.Proofs.Machine.Bounds
import Inkwell.Proofs.Plain.Recoding
import Inkwell.Proofs.Plain.Strokes

/-!
# Calls that never take over a frame

The pushing form of a program has the same instructions, but every call of a function and every arm
of a choice gets a frame of its own. Where the program reuses a frame, its pushing form leaves the old
one waiting: it has nothing left to do but to hand on the result it receives.

So the frames of a program are those of its pushing form without the ones that wait (`Stack`). One
round of the program is one round of its pushing form, followed by one for every frame that waits for
the result of the frame that ended.
-/

namespace Inkwell

open Activation

variable {ins : Instruction}

/-! ## The pushing form -/

/-- The instruction that does the same on top of its frame. -/
def Instruction.pushing (ins : Instruction) : Instruction :=
  { ins with op := if ins.op = .tailCall then .call else ins.op, tail := false }

/-- The block in which every call gets a frame of its own. -/
def Block.pushing (b : Block) : Block := { b with code := b.code.map Instruction.pushing }

/-- The program in which every call gets a frame of its own. -/
def Program.pushing (p : Program) : Program := { p with blocks := p.blocks.map Block.pushing }

/-- The store with the pushing form of its code. -/
abbrev Store.pushing (s : Store) : Store := s.recode Block.pushing

/-- The activation of the pushing form of a block; its result may go elsewhere. -/
def Activation.pushing (f : Activation) (destination : Int) : Activation :=
  { f with block := f.block.pushing, destination }

theorem Instruction.pushing_of_ne (h : ins.op ≠ .tailCall) :
    ins.pushing = { ins with tail := false } := by
  simp only [pushing, if_neg h]

theorem Instruction.pushing_of_eq (h : ins.op = .tailCall) :
    ins.pushing = { ins with op := .call, tail := false } := by
  simp only [pushing, if_pos h]

theorem Block.getElem?_pushing (b : Block) (i : Nat) :
    b.pushing.code[i]? = b.code[i]?.map Instruction.pushing := Array.getElem?_map

theorem Block.pushing_default : (default : Block).pushing = default := by
  show ({ (default : Block) with code := #[].map Instruction.pushing } : Block) = default
  rw [Array.map_empty]
  rfl

theorem recoding_pushing : Recoding Block.pushing where
  resembles b := by
    refine ⟨rfl, rfl, rfl, rfl, rfl, rfl, fun _ => rfl, fun i => ?_⟩
    rw [b.getElem?_pushing, Option.map_map]
    rfl
  default := Block.pushing_default

/-! ## Frames that wait -/

namespace Activation

/-- The code of an activation ends behind its tail calls, and its registers are those of its block. -/
structure InOrder (f : Activation) : Prop where
  tailSafe : f.block.TailSafe
  registers : f.registers.size = f.block.slots.toNat

/-- An activation with nothing left to do but to hand on its result. -/
structure Waits (f : Activation) : Prop where
  ended : f.block.code.size ≤ f.counter
  result : ∃ v, f.register? f.block.ret = some v

theorem InOrder.waits {f : Activation} (hf : f.InOrder) (hnonneg : 0 ≤ f.block.ret)
    (hlt : f.block.ret < f.block.slots) (hended : f.block.code.size ≤ f.counter) : f.Waits where
  ended := hended
  result := by
    have hsize : f.block.ret.toNat < f.registers.size := by
      rw [hf.registers]
      omega
    exact ⟨_, by rw [register?, if_neg (by omega), Array.getElem?_eq_getElem hsize]⟩

theorem Waits.pushing {f : Activation} (hf : f.Waits) (destination : Int) :
    (f.pushing destination).Waits where
  ended := by
    show (f.block.code.map Instruction.pushing).size ≤ f.counter
    rw [Array.size_map]
    exact hf.ended
  result := hf.result

theorem inOrder_begin {b : Block} (hb : b.TailSafe) (cells : List Nat) (arguments : List Value)
    (destination : Int) : (begin b cells arguments destination).InOrder where
  tailSafe := hb
  registers := by
    show (Machine.placeArguments _ _).size = _
    rw [Machine.size_placeArguments]
    exact Array.size_replicate

end Activation

/-- The activations below one whose result goes to `d`, and those below its counterpart, whose result
goes to `d'`: the same, except that some wait in between. -/
inductive Stack : Int → List Activation → Int → List Activation → Prop
  | bottom (d d' : Int) : Stack d [] d' []
  | frame {f : Activation} {below below' : List Activation} {d' : Int} (d : Int) (order : f.InOrder)
      (rest : Stack f.destination below d' below') : Stack d (f :: below) d (f.pushing d' :: below')
  | waiting {d : Int} {w : Activation} {below below' : List Activation} (waits : w.Waits)
      (rest : Stack d below w.destination below') : Stack d below w.block.ret (w :: below')

/-- A machine that runs a program, and one that is at the same place of its pushing form. -/
inductive Unfolds : Plain → Plain → Prop
  | mk {s : Store} {f : Activation} {below below' : List Activation} {d' : Int}
      (code : ∀ b ∈ s.code, b.TailSafe) (order : f.InOrder)
      (stack : Stack f.destination below d' below') :
      Unfolds ⟨s, f :: below⟩ ⟨s.pushing, f.pushing d' :: below'⟩

theorem Stack.length_le {d d' : Int} {below below' : List Activation} (h : Stack d below d' below') :
    below.length ≤ below'.length := by
  induction h with
  | bottom => exact Nat.le_refl _
  | frame d order rest ih => exact Nat.succ_le_succ ih
  | waiting waits rest ih => exact Nat.le_succ_of_le ih

/-- A program never has more frames than its pushing form. -/
theorem Unfolds.length_le {s s' : Plain} (h : Unfolds s s') : s.frames.length ≤ s'.frames.length := by
  cases h with
  | mk code order stack => exact Nat.succ_le_succ stack.length_le

/-! ## One instruction -/

/-- An instruction does the same in a program and in its pushing form. -/
inductive InStep : Except Failure Plain → Except Failure Plain → Prop
  | goesOn {s s' : Plain} (unfolds : Unfolds s s') : InStep (.ok s) (.ok s')
  | fails (failure : Failure) : InStep (.error failure) (.error failure)

theorem InStep.bind {α : Type} (e : Except Failure α) {next next' : α → Except Failure Plain}
    (h : ∀ a, InStep (next a) (next' a)) : InStep (e >>= next) (e >>= next') := by
  cases e with
  | ok a => exact h a
  | error failure => exact .fails failure

theorem InStep.bind_map {α β : Type} (e : Except Failure α) (g : α → β)
    {next : α → Except Failure Plain} {next' : β → Except Failure Plain}
    (h : ∀ a, e = .ok a → InStep (next a) (next' (g a))) :
    InStep (e >>= next) (e.map g >>= next') := by
  cases e with
  | ok a => exact h a rfl
  | error failure => exact .fails failure

section Instructions

variable {dest : Int} {tail : Bool}
variable {s : Store} {f : Activation} {below below' : List Activation} {d' : Int}

theorem Activation.enterNested_pushing (f : Activation) (s : Store) (k d' : Int) :
    (f.pushing d').enterNested s.pushing k = f.enterNested s k :=
  enterNested_recode recoding_pushing f (f.pushing d') rfl rfl rfl s k

theorem Store.tailSafe_block (hcode : ∀ b ∈ s.code, b.TailSafe) (place : Nat) :
    (s.block place).TailSafe := by
  unfold Store.block
  cases h : s.code[place]? with
  | none => exact Block.TailSafe.default
  | some b => exact hcode b (Array.mem_of_getElem? h)

/-- An instruction in tail position leaves an activation that waits for the result of the call. -/
theorem Activation.InOrder.waits_behind (horder : f.InOrder) {i : Nat}
    (hins : f.block.code[i]? = some ins) (htail : ins.isTail = true) {counter : Nat}
    (hcounter : counter = if ins.op.isBranch then ins.target.toNat else i + 1) :
    Activation.Waits { f with counter } ∧ ins.dest = f.block.ret := by
  have hends := horder.tailSafe i ins hins htail
  refine ⟨Activation.InOrder.waits ⟨horder.tailSafe, horder.registers⟩ hends.nonneg hends.lt ?_,
    hends.dest⟩
  show f.block.code.size ≤ counter
  cases hbranch : ins.op.isBranch with
  | true =>
    rw [hcounter, hbranch, hends.target hbranch]
    simp
  | false =>
    rw [hcounter, hbranch, ← hends.last hbranch]
    simp

variable (hcode : ∀ b ∈ s.code, b.TailSafe) (horder : f.InOrder)
  (hstack : Stack f.destination below d' below')
include hcode horder hstack

theorem inStep_give (dest : Int) (v : Value) :
    InStep (Plain.give f below dest (v, s)) (Plain.give (f.pushing d') below' dest (v, s.pushing)) := by
  refine .bind (f.register dest) fun _ => .goesOn ?_
  refine .mk (f := f.put dest v) hcode ⟨horder.tailSafe, ?_⟩ hstack
  exact (Array.size_setIfInBounds ..).trans horder.registers

section

variable (htail : tail = true → f.Waits ∧ dest = f.block.ret)

include htail

/-- A block on top of the activation, or in place of one that has nothing left to do. -/
theorem inStep_enter (place : Nat) (cells : List Nat) (arguments : List Value) :
    InStep (.ok (Plain.enter f below s dest tail (s.block place) cells arguments))
      (.ok (Plain.enter (f.pushing d') below' s.pushing dest false (s.pushing.block place) cells
        arguments)) := by
  have hblock := Store.tailSafe_block hcode place
  rw [s.block_recode recoding_pushing]
  cases tail with
  | true =>
    obtain ⟨hwaits, rfl⟩ := htail rfl
    exact .goesOn (.mk (f := .begin (s.block place) cells arguments f.destination) hcode
      (inOrder_begin hblock ..) (.waiting (hwaits.pushing d') hstack))
  | false =>
    exact .goesOn (.mk (f := .begin (s.block place) cells arguments dest) hcode
      (inOrder_begin hblock ..) (.frame dest horder hstack))

theorem inStep_call (callee : Value) (arguments : List Value) :
    InStep (Plain.call f below s dest callee arguments tail)
      (Plain.call (f.pushing d') below' s.pushing dest callee arguments false) := by
  unfold Plain.call
  cases callee with
  | native id =>
    dsimp only
    rw [s.ask_recode recoding_pushing]
    refine .bind_map _ _ fun (v, s') hask => ?_
    have hcode' : ∀ b ∈ s'.code, b.TailSafe := by rwa [Store.code_ask hask]
    dsimp only
    split
    · exact inStep_give hcode' horder hstack dest v
    · exact .goesOn (.mk hcode' horder hstack)
  | function place =>
    show InStep (s.function place >>= _) (s.function place >>= _)
    exact .bind _ fun (block, cells) => inStep_enter hcode horder hstack htail block cells arguments
  | _ => exact .fails _

theorem inStep_callArm (k : Int) : InStep (Plain.callArm f below s dest k tail)
      (Plain.callArm (f.pushing d') below' s.pushing dest k false) := by
  unfold Plain.callArm
  rw [enterNested_pushing]
  exact .bind _ fun (place, cells) => inStep_enter hcode horder hstack htail place cells []

end

theorem inStep_load (dest : Int) (d : Datum) :
    InStep (Plain.give f below dest (s.load d))
      (Plain.give (f.pushing d') below' dest (s.pushing.load d)) :=
  inStep_give (s := (s.load d).2) hcode horder hstack dest (s.load d).1

theorem inStep_create (dest : Int) (body : Body) (value : Nat → Value) :
    InStep (Plain.give f below dest (value (s.create body).1, (s.create body).2))
      (Plain.give (f.pushing d') below' dest
        (value (s.pushing.create body).1, (s.pushing.create body).2)) :=
  inStep_give (s := (s.create body).2) hcode horder hstack dest _

theorem inStep_step {i : Nat} (hins : f.block.code[i]? = some ins) :
    InStep (Plain.step { f with counter := i + 1 } below s ins)
      (Plain.step ({ f with counter := i + 1 }.pushing d') below' s.pushing ins.pushing) := by
  have hnext : Activation.InOrder { f with counter := i + 1 } := ⟨horder.tailSafe, horder.registers⟩
  have hthere : Activation.InOrder { f with counter := ins.target.toNat } :=
    ⟨horder.tailSafe, horder.registers⟩
  have hgive := inStep_give hcode hnext hstack
  have harm : ins.op.isBranch = true → (ins.tail = true → ins.isTail = true) → InStep
      (Plain.callArm (Activation.goTo { f with counter := i + 1 } ins.target) below s ins.dest ins.k
        ins.tail)
      (Plain.callArm (Activation.goTo ({ f with counter := i + 1 }.pushing d') ins.target) below'
        s.pushing ins.dest ins.k false) := fun hbranch htail =>
    inStep_callArm hcode hthere hstack
      (fun h => horder.waits_behind hins (htail h) (by rw [hbranch]; rfl)) ins.k
  by_cases htailCall : ins.op = .tailCall
  · rw [Instruction.pushing_of_eq htailCall]
    have htail : ins.isTail = true := by simp only [Instruction.isTail, htailCall]
    simp only [Plain.step, htailCall]
    refine .bind _ fun arguments => .bind _ fun callee => ?_
    exact inStep_call hcode hnext hstack
      (fun _ => horder.waits_behind hins htail (by rw [htailCall]; rfl)) callee arguments
  rw [Instruction.pushing_of_ne htailCall]
  unfold Plain.step
  dsimp only
  cases hop : ins.op with
  | nop => exact .goesOn (.mk hcode hnext hstack)
  | move => exact .bind _ fun v => hgive ins.dest v
  | loadConstant => exact .bind _ fun d => inStep_load hcode hnext hstack ins.dest d
  | loadEscaped => exact .bind _ fun place => .bind _ fun v => hgive ins.dest v
  | storeEscaped | storeCell =>
    exact .bind _ fun place => .bind _ fun v => .bind _ fun _ => .goesOn (.mk hcode hnext hstack)
  | makeCell =>
    dsimp only
    split
    · exact .bind _ fun v => inStep_create hcode hnext hstack ins.dest _ .cell
    · exact inStep_create hcode hnext hstack ins.dest _ .cell
  | loadCell => exact .bind _ fun place => .bind _ fun v => hgive ins.dest v
  | closure =>
    dsimp only
    rw [enterNested_pushing]
    exact .bind _ fun (block, cells) => inStep_create hcode hnext hstack ins.dest _ .function
  | call =>
    refine .bind _ fun arguments => .bind _ fun callee => ?_
    refine inStep_call hcode hnext hstack (fun htail => ?_) callee arguments
    exact horder.waits_behind hins (by simpa only [Instruction.isTail, hop] using htail)
      (by rw [hop]; rfl)
  | tailCall => exact absurd hop htailCall
  | callIfEqual =>
    refine .bind _ fun equal => ?_
    cases equal with
    | true => exact harm (by rw [hop]; rfl) fun h => by simpa only [Instruction.isTail, hop] using h
    | false => exact .goesOn (.mk hcode hnext hstack)
  | constantIfEqual =>
    refine .bind _ fun equal => ?_
    cases equal with
    | true => exact .bind _ fun d => inStep_load hcode hthere hstack ins.dest d
    | false => exact .goesOn (.mk hcode hnext hstack)
  | callArm => exact harm (by rw [hop]; rfl) fun h => by simpa only [Instruction.isTail, hop] using h
  | jump => exact .goesOn (.mk hcode hthere hstack)
  | matchFail =>
    refine .bind _ fun v => ?_
    rw [s.inspect_recode recoding_pushing]
    exact .fails _
  | makeComposite => exact inStep_create hcode hnext hstack ins.dest _ .composite
  | setElement =>
    refine .bind _ fun container => .bind _ fun key => .bind _ fun v => ?_
    rw [s.assign_recode recoding_pushing]
    refine .bind_map _ _ fun s' hassign => .goesOn (.mk ?_ hnext hstack)
    rwa [Store.code_assign hassign]
  | getElement =>
    refine .bind _ fun container => .bind _ fun key => ?_
    rw [s.element_recode recoding_pushing]
    refine .bind_map _ _ fun (v, s') helement => ?_
    exact inStep_give (by rwa [Store.code_element helement]) hnext hstack ins.dest v
  | negate => exact .bind _ fun a => .bind _ fun d => inStep_load hcode hnext hstack ins.dest d
  | operate op =>
    exact .bind _ fun a => .bind _ fun b => .bind _ fun d =>
      inStep_load hcode hnext hstack ins.dest d
  | unknown code => exact .fails _

end Instructions

/-! ## Rounds -/

/-- Rounds of a program and of its pushing form lead to the same. -/
inductive Abreast : Plain.Round → Plain.Round → Prop
  | goesOn {s s' : Plain} (unfolds : Unfolds s s') : Abreast (.goesOn s) (.goesOn s')
  | ended (result : Value) (s : Store) : Abreast (.ended result s) (.ended result s.pushing)
  | failed (failure : Failure) (position : Position) (s : Store) :
      Abreast (.failed failure position s) (.failed failure position s.pushing)

theorem InStep.abreast {e e' : Except Failure Plain} (h : InStep e e') (position : Position)
    (s : Store) : Abreast (.ofOutcome position s e) (.ofOutcome position s.pushing e') := by
  cases h with
  | goesOn unfolds => exact .goesOn unfolds
  | fails failure => exact .failed failure position s

/-- A result goes through the activations that wait for it to the one that wants it. -/
theorem Stack.handOn {d d' : Int} {below below' : List Activation} (h : Stack d below d' below')
    {s : Store} (hcode : ∀ b ∈ s.code, b.TailSafe) (result : Value) :
    ∃ n, Abreast (Plain.handOn result s d below)
      ((Plain.handOn result s.pushing d' below').andThen (Plain.run n)) := by
  induction h with
  | bottom d d' => exact ⟨0, .ended result s⟩
  | frame d order rest ih =>
    refine ⟨0, ?_⟩
    rw [Plain.Round.andThen_run_zero]
    exact (inStep_give hcode order rest d result).abreast {} s
  | @waiting d w below below' waits rest ih =>
    obtain ⟨n, hn⟩ := ih
    obtain ⟨old, hold⟩ := waits.result
    refine ⟨n + 1, ?_⟩
    have hend : (w.put w.block.ret result).block.code[(w.put w.block.ret result).counter]? = none :=
      Array.getElem?_eq_none waits.ended
    have hresult : (w.put w.block.ret result).register (w.put w.block.ret result).block.ret =
        .ok result := register_of_some (register?_put hold result)
    have hturn := @Plain.turn_of_end s.pushing _ below' hend
    rw [hresult] at hturn
    rw [Plain.handOn, Plain.give_of_some hold]
    show Abreast _ (Plain.run (n + 1) ⟨s.pushing, w.put w.block.ret result :: below'⟩)
    rw [Plain.run, hturn]
    exact hn

/-- One round of a program is one or more rounds of its pushing form. -/
theorem Unfolds.turn {s s' : Plain} (h : Unfolds s s') :
    ∃ n, Abreast s.turn (s'.turn.andThen (Plain.run n)) := by
  cases h with
  | @mk s f below below' d' code order stack =>
    have hcounter : (f.pushing d').block.code[(f.pushing d').counter]? =
        f.block.code[f.counter]?.map Instruction.pushing := Block.getElem?_pushing _ _
    cases hins : f.block.code[f.counter]? with
    | some ins =>
      rw [hins] at hcounter
      refine ⟨0, ?_⟩
      rw [Plain.Round.andThen_run_zero, Plain.turn_of_instruction hins,
        Plain.turn_of_instruction hcounter]
      exact (inStep_step code order stack hins).abreast ins.position s
    | none =>
      rw [hins] at hcounter
      rw [Plain.turn_of_end hins, Plain.turn_of_end hcounter,
        show (f.pushing d').register (f.pushing d').block.ret = f.register f.block.ret from rfl]
      cases f.register f.block.ret with
      | ok result => exact stack.handOn code result
      | error failure => exact ⟨0, .failed failure {} s⟩

/-- As many rounds of a program as you like are at least as many rounds of its pushing form, which
has no fewer activations at once. -/
theorem Unfolds.run {s s' : Plain} (h : Unfolds s s') (n : Nat) :
    ∃ n', n ≤ n' ∧ Abreast (s.run n) (s'.run n') ∧ s.height n ≤ s'.height n' := by
  induction n generalizing s s' with
  | zero => exact ⟨0, Nat.le_refl _, .goesOn h, h.length_le⟩
  | succ n ih =>
    obtain ⟨k, hk⟩ := h.turn
    -- The first round of the program takes `k + 1` rounds of its pushing form.
    have hfirst : s'.turn.andThen (Plain.run k) = s'.run (k + 1) := rfl
    rw [hfirst] at hk
    have hlast : ∀ round, s.turn = round → Abreast round (s'.run (k + 1)) →
        (∀ next, round ≠ .goesOn next) →
        ∃ n', n + 1 ≤ n' ∧ Abreast (s.run (n + 1)) (s'.run n') ∧ s.height (n + 1) ≤ s'.height n' := by
      intro round hturn habreast hround
      refine ⟨k + 1 + n, by omega, ?_, ?_⟩
      · rw [Plain.run, hturn, Plain.run_add]
        generalize s'.run (k + 1) = round' at habreast
        cases habreast with
        | goesOn unfolds => exact absurd rfl (hround _)
        | ended result t => exact .ended result t
        | failed failure position t => exact .failed failure position t
      · have hheight : s.height (n + 1) = s.frames.length := by
          unfold Plain.height
          split
          · rename_i next hnext
            exact absurd (hturn.symm.trans hnext) (hround next)
          · rfl
        rw [hheight]
        exact Nat.le_trans h.length_le (Plain.length_le_height _ _)
    cases hturn : s.turn with
    | goesOn next =>
      rw [hturn] at hk
      generalize hround : s'.run (k + 1) = round at hk
      cases hk with
      | @goesOn _ next' unfolds =>
        obtain ⟨n', hn', habreast, hheight⟩ := ih unfolds
        refine ⟨k + 1 + n', by omega, ?_, ?_⟩
        · rw [Plain.run_of_goesOn hturn, Plain.run_add, hround]
          exact habreast
        · rw [Plain.height_of_goesOn hturn]
          refine Nat.max_le.mpr ⟨Nat.le_trans h.length_le (Plain.length_le_height _ _), ?_⟩
          exact Nat.le_trans hheight (Plain.height_le_add hround n')
    | ended | failed => exact hlast _ hturn (hturn ▸ hk) (by simp)

/-! ## Starting -/

/-- A program and its pushing form start abreast. -/
theorem Program.unfolds_start {p : Program} (hp : ∀ b ∈ p.blocks, b.TailSafe) (s : Store) :
    Unfolds ⟨{ s with code := p.blocks }, [.begin p.root [] [] (-1)]⟩
      ⟨{ s with code := p.pushing.blocks }, [.begin p.pushing.root [] [] (-1)]⟩ := by
  have hroot : p.pushing.root = p.root.pushing :=
    Store.block_recode recoding_pushing { s with code := p.blocks } 0
  rw [hroot]
  exact .mk (s := { s with code := p.blocks }) (f := .begin p.root [] [] (-1)) hp
    (inOrder_begin (Store.tailSafe_block (s := { s with code := p.blocks }) hp 0) ..)
    (.bottom _ _)

end Inkwell
