import Inkwell.Optimizer.Flow
import Inkwell.Optimizer.Pass

/-!
# Pruning

Code that cannot affect the result goes: tests of an arm behind a test for an equal constant in the
same choice, instructions that no way leads to, and definitions without effect that nothing reads.
-/

namespace Inkwell

namespace Pruning

def isTest (op : Opcode) : Bool := op = .constantIfEqual || op = .callIfEqual

/-- Whether two constants are equal to the same values. -/
def isIndistinct (x y : Datum) : Bool := x.isShareable && x.equal y

/-- Whether the test at `j` has already compared the subject of the one at `i` with an equal
constant, and would have left the choice. -/
def isShadowing (f : Flow) (b : Block) (i : Nat) (ins : Instruction) (value : Datum) (j : Nat) :
    Option Bool := do
  let earlier ← b.code[j]?
  if isTest earlier.op && earlier.a = ins.a && earlier.target = ins.target && f.dominates j i &&
      f.isStableAt earlier.a j then
    match ← f.constantAt b earlier.b j with
    | some (other, _) => return isIndistinct value other
    | none => return false
  else return false

/-- The block without the test at `i`, if an earlier one shadows it. -/
def removeShadowed (f : Flow) : Block × Bool → Nat → Option (Block × Bool)
  | (b, changed), i => do
    let ins ← b.code[i]?
    if !(isTest ins.op && f.isStableAt ins.a i) then return (b, changed)
    match ← f.constantAt b ins.b i with
    | none => return (b, changed)
    | some (value, _) =>
      if ← (List.range i).anyM (isShadowing f b i ins value) then
        return (b.setInstruction i { op := .nop, position := ins.position }, true)
      else return (b, changed)

def removeAllShadowed (f : Flow) (b : Block) : Option (Block × Bool) :=
  (List.range b.code.size).foldlM (removeShadowed f) (b, false)

/-- Marks what the instruction at `i` leads to, if something leads to it. -/
def markNext (b : Block) (seen : Array Bool) (i : Nat) : Option (Array Bool) := do
  let ins ← b.code[i]?
  if seen[i]?.getD false then
    let seen ←
      if ins.op.isBranch && ins.target < b.code.size then
        if ins.target < 0 then none else some (seen.setIfInBounds ins.target.toNat true)
      else some seen
    match ins.op with
    | .jump | .callArm | .matchFail => return seen
    | _ => return seen.setIfInBounds (i + 1) true
  else return seen

def reachable (b : Block) : Option (Array Bool) :=
  let start := (Array.replicate b.code.size false).setIfInBounds 0 true
  (List.range b.code.size).foldlM (markNext b) start

def surelySucceeds (f : Flow) (b : Block) (ins : Instruction) (i : Nat) : Option Bool := do
  match ← f.constantAt b ins.a i with
  | none => return false
  | some (x, _) =>
    match ins.op with
    | .negate => return x.negate.isOk
    | op =>
      match ← f.constantAt b ins.b i with
      | none => return false
      | some (y, _) => return (op.apply x y).isOk

/-- Whether an instruction only defines a register that nothing reads, and cannot fail. -/
def isRemovable (f : Flow) (b : Block) (ins : Instruction) (i : Nat) : Option Bool := do
  match ins.op with
  | .nop => return true
  | .move | .loadConstant | .loadEscaped | .loadCell | .makeComposite | .closure =>
    return f.readCount ins.dest = 0
  | .negate | .operate _ =>
    if f.readCount ins.dest = 0 then surelySucceeds f b ins i else return false
  | _ => return false

/-- Which instructions are kept, with the reads of those alone. -/
structure State where
  keep : Array Bool
  flow : Flow
  again : Bool := false

def removeAt (p : Program) (b : Block) (st : State) (i : Nat) : Option State := do
  let ins ← b.code[i]?
  if !(st.keep[i]?.getD false) then return st
  if ← isRemovable st.flow b ins i then
    return { keep := st.keep.setIfInBounds i false
             flow := st.flow.addReads (p.reads b ins) (-1)
             again := true }
  else return st

/-- Removes what can go, in rounds, until a round removes nothing. Every round but the last removes
an instruction, so there are at most as many as instructions and one more. -/
def removeAll (p : Program) (b : Block) : Nat → State → Option State
  | 0, st => some st
  | rounds + 1, st => do
    let st ← (List.range b.code.size).foldlM (removeAt p b) { st with again := false }
    if st.again then removeAll p b rounds st else return st

/-- The facts without the reads of instructions that nothing leads to. -/
def withoutUnreachable (p : Program) (b : Block) (keep : Array Bool) : Flow :=
  (b.code.toList.zip keep.toList).foldl (fun f (ins, k) =>
    if k then f else f.addReads (p.reads b ins) (-1)) (Flow.ofBlock p b)

def pass : Pass where
  name := "dce"
  run p b := do
    if b.code.isEmpty then return (b, false)
    let (b, changed) ← removeAllShadowed (Flow.ofBlock p b) b
    let keep ← reachable b
    let st ← removeAll p b (b.code.size + 1) { keep, flow := withoutUnreachable p b keep }
    if st.keep.all id then return (b, changed)
    else return (← b.compact st.keep.toList, true)

end Pruning

end Inkwell
