import Inkwell.Optimizer.Flow
import Inkwell.Optimizer.Pass

/-!
# Inlining

A call of a small function without branches, calls and captured cells becomes a copy of its code on
registers of its own behind those of the caller. The function then no longer shows in the trace of
an error.
-/

namespace Inkwell

namespace Inlining

def isInlinable (threshold : Nat) (callee : Block) : Bool :=
  callee.binds.isEmpty && callee.code.size ≤ threshold && callee.code.all fun ins =>
    match ins.op with
    | .nop | .move | .makeComposite | .setElement | .getElement | .negate | .operate _ => true
    | .loadConstant => (callee.nested? ins.k).isNone
    | _ => false

structure State where
  block : Block
  code : Array Instruction := #[]
  places : Array Nat := #[]
  changed : Bool := false

def State.push (st : State) (ins : Instruction) : State := { st with code := st.code.push ins }

def State.load (st : State) (value : Datum) (ins : Instruction) : State :=
  let (k, block) := st.block.addConstant value
  { st with block, code := st.code.push { ins with op := .loadConstant, k } }

def parameter (base : Int) (call : Instruction) (st : State) (i : Nat) : State :=
  match call.args[i]? with
  | some r => st.push { op := .move, dest := base + i, a := r, position := call.position }
  | none => st.load .empty { op := .loadConstant, dest := base + i, position := call.position }

/-- Adds an instruction of the inlined function, whose registers start at `base`. -/
def copied (base : Int) (callee : Block) (st : State) (ins : Instruction) : Option State :=
  match ins.op with
  | .nop => some st
  | .loadConstant =>
    (callee.constant? ins.k).map fun value => st.load value { ins with dest := base + ins.dest }
  | .makeComposite => some (st.push { ins with dest := base + ins.dest })
  | .setElement =>
    some (st.push { ins with a := base + ins.a, b := base + ins.b, c := base + ins.c })
  | .move | .negate => some (st.push { ins with dest := base + ins.dest, a := base + ins.a })
  | .getElement | .operate _ =>
    some (st.push { ins with dest := base + ins.dest, a := base + ins.a, b := base + ins.b })
  | _ => none

def expand (callee : Block) (call : Instruction) (st : State) : Option State := do
  let base := st.block.slots
  let st := { st with block.slots := base + callee.slots, changed := true }
  let st := (List.range callee.params.toNat).foldl (parameter base call) st
  let st ← callee.code.toList.foldlM (copied base callee) st
  return st.push
    { op := .move, dest := call.dest, a := base + callee.ret, position := call.position }

/-- Adds an instruction of the caller, or what is inlined for it. -/
def instruction (threshold : Nat) (p : Program) (f : Flow) (b : Block) (st : State)
    (numbered : Instruction × Nat) : Option State :=
  let (ins, i) := numbered
  let st := { st with places := st.places.push st.code.size }
  if ins.op = .call then
    match f.functionAt b b.code.size ins.a i with
    | some place =>
      let callee := p.block place
      if isInlinable threshold callee then expand callee ins st else some (st.push ins)
    | none => some (st.push ins)
  else some (st.push ins)

def pass (threshold : Nat) : Pass where
  name := "inline"
  run p b := do
    let st ← b.code.toList.zipIdx.foldlM (instruction threshold p (Flow.ofBlock p b) b)
      { block := b }
    if st.changed then
      let places := st.places.push st.code.size
      let code ← st.code.toList.mapM (Block.retarget places)
      return ({ st.block with code := code.toArray }, true)
    else return (b, false)

end Inlining

end Inkwell
