import Inkwell.Optimizer.Flow
import Inkwell.Optimizer.Pass

/-!
# Sharing results

An operation whose result an earlier one has already computed from the same values becomes a copy of
that result. Before that, operands that are copies read the register they were copied from, so that
equal operations look equal.

Addition and the bit operations make a new string out of strings, which two results must not share;
they are shared only if an operand is known not to be a string.
-/

namespace Inkwell

namespace Sharing

def hasSecond (op : Opcode) : Bool := op ≠ .negate

/-- The block in which the operation at `i` reads the registers its operands were copied from. -/
def readSources (f : Flow) : Block × Bool → Nat → Block × Bool
  | (b, changed), i =>
    match b.code[i]? with
    | none => (b, changed)
    | some ins =>
      if ins.op.isPure then
        let rounds := b.code.size
        let first := f.sourceOf b i rounds ins.a
        let second := if hasSecond ins.op then f.sourceOf b i rounds ins.b else ins.b
        if first = ins.a && second = ins.b then (b, changed)
        else (b.setInstruction i { ins with a := first, b := second }, true)
      else (b, changed)

def readAllSources (f : Flow) (b : Block) : Block × Bool :=
  (List.range b.code.size).foldl (readSources f) (b, false)

def holdsNoString (f : Flow) (b : Block) (r : Int) (i : Nat) : Option Bool := do
  match ← f.constantAt b r i with
  | some (value, _) => return !value.isString
  | none => return false

def isShareable (f : Flow) (b : Block) (ins : Instruction) (i : Nat) : Option Bool := do
  match ins.op with
  | .operate .add | .operate .and | .operate .or | .operate .xor =>
    if ← holdsNoString f b ins.a i then return true
    holdsNoString f b ins.b i
  | _ => return true

def isSame (x y : Instruction) : Bool :=
  x.op = y.op && x.a = y.a && (x.op = .negate || x.b = y.b)

/-- Whether the operands of an operation keep their values from `i` on. -/
def hasStableOperands (f : Flow) (ins : Instruction) (i : Nat) : Bool :=
  f.isStableAt ins.a i && (ins.op = .negate || f.isStableAt ins.b i)

/-- Whether the operation at `i` can take the result of the one at `j`. -/
def isAvailable (f : Flow) (b : Block) (i : Nat) (ins : Instruction) (j : Nat) : Bool :=
  match b.code[j]? with
  | none => false
  | some earlier =>
    isSame earlier ins && f.dominates j i && (f.onlyWriter? earlier.dest).isSome &&
      hasStableOperands f earlier j && !b.hasEffectsBetween j i

/-- The block in which the operation at `i` copies an earlier result, if there is one. -/
def share (f : Flow) : Block × Bool → Nat → Option (Block × Bool)
  | (b, changed), i => do
    let ins ← b.code[i]?
    if !ins.op.isPure then return (b, changed)
    if !(← isShareable f b ins i) then return (b, changed)
    match (List.range i).find? (isAvailable f b i ins) with
    | none => return (b, changed)
    | some j =>
      let earlier ← b.code[j]?
      return (b.setInstruction i
        { op := .move, dest := ins.dest, a := earlier.dest, position := ins.position }, true)

def shareAll (f : Flow) : Block × Bool → Option (Block × Bool)
  | (b, changed) => (List.range b.code.size).foldlM (share f) (b, changed)

def pass : Pass where
  name := "cse"
  run p b :=
    let f := Flow.ofBlock p b
    shareAll f (readAllSources f b)

end Sharing

end Inkwell
