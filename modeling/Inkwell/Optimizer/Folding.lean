import Inkwell.Optimizer.Flow
import Inkwell.Optimizer.Pass

/-!
# Folding constants

Copies of known constants become loads, and operations on known constants become loads of their
results. An operation that would fail stays, so that it fails when the program runs.

Every load of a string makes a new buffer, while a copy shares it. So strings are not loaded in
place of a copy, and a string operand is folded only if nothing else reads its register.
-/

namespace Inkwell

namespace Folding

/-- The known constant in a register that an operation may be folded with. -/
def operand (f : Flow) (b : Block) (r : Int) (i : Nat) : Option (Option Datum) := do
  match ← f.constantAt b r i with
  | none => return none
  | some (value, _) => return if value.isString && f.readCount r ≠ 1 then none else some value

def replaceByLoad (b : Block) (i : Nat) (ins : Instruction) (value : Datum) : Block :=
  let (k, b) := b.addConstant value
  b.setInstruction i { op := .loadConstant, dest := ins.dest, k, position := ins.position }

/-- The block with the instruction at `i` folded, and whether any is so far. -/
def instruction (f : Flow) : Block × Bool → Nat → Option (Block × Bool)
  | (b, changed), i => do
    let ins ← b.code[i]?
    match ins.op with
    | .move =>
      match ← f.constantAt b ins.a i with
      | some (value, k) =>
        if value.isString then return (b, changed)
        return (b.setInstruction i
          { op := .loadConstant, dest := ins.dest, k, position := ins.position }, true)
      | none => return (b, changed)
    | .negate =>
      match ← f.constantAt b ins.a i with
      | some (value, _) =>
        match value.negate with
        | .ok result => return (replaceByLoad b i ins result, true)
        | .error _ => return (b, changed)
      | none => return (b, changed)
    | .operate op =>
      match ← operand f b ins.a i with
      | none => return (b, changed)
      | some x =>
        match ← operand f b ins.b i with
        | none => return (b, changed)
        | some y =>
          match op.apply x y with
          | .ok result => return (replaceByLoad b i ins result, true)
          | .error _ => return (b, changed)
    | _ => return (b, changed)

def pass : Pass where
  name := "constprop"
  run p b := (List.range b.code.size).foldlM (instruction (Flow.ofBlock p b)) (b, false)

end Folding

end Inkwell
