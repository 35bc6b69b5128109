import Inkwell.Code.Usage
import Std.Data.HashMap

/-!
# Flow facts

Where the registers of a block are written and read, and which branches jump over what. Control only
moves forward in a block, so an instruction is passed on every way to a later one unless a branch in
front of it goes to a place between the two.

The facts are gathered once, while the code they are asked about may have changed since; a question
that would look outside the block has no answer, which is how a block that is not well formed shows.
-/

namespace Inkwell

/-- Where registers are written and read, and where branches go. -/
structure Flow where
  params : Int
  /-- The instructions that write a register, latest first. -/
  definitions : Std.HashMap Int (List Nat) := {}
  /-- How often a register is read; the result of the block counts as one read. -/
  reads : Std.HashMap Int Int := {}
  /-- The branches with their targets, latest first. -/
  jumps : List (Nat × Int) := []

namespace Flow

/-- The facts with other counts of reads: each of the registers is read `n` times more often. -/
def addReads (f : Flow) (registers : List Int) (n : Int) : Flow :=
  { f with reads := registers.foldl (fun reads r =>
      reads.alter r fun count => some (count.getD 0 + n)) f.reads }

def add (p : Program) (b : Block) (f : Flow) (offset : Nat) (ins : Instruction) : Flow :=
  let f :=
    match ins.writes? with
    | some r => { f with
        definitions := f.definitions.alter r fun found => some (offset :: found.getD []) }
    | none => f
  let f := f.addReads (p.reads b ins) 1
  if ins.op.isBranch then { f with jumps := (offset, ins.target) :: f.jumps } else f

def ofBlock (p : Program) (b : Block) : Flow :=
  let start : Flow := { params := b.params }
  let f := b.code.toList.zipIdx.foldl (fun f (ins, offset) => add p b f offset ins) start
  f.addReads [b.ret] 1

def readCount (f : Flow) (r : Int) : Int := f.reads[r]?.getD 0

def writers (f : Flow) (r : Int) : List Nat := f.definitions[r]?.getD []

/-- The only instruction that writes a register. Parameters are written from outside. -/
def onlyWriter? (f : Flow) (r : Int) : Option Nat :=
  if r < f.params then none
  else
    match f.writers r with
    | [d] => some d
    | _ => none

/-- Whether every way to instruction `i` passes instruction `d` in front of it. -/
def dominates (f : Flow) (d i : Nat) : Bool :=
  d < i && f.jumps.all fun (source, target) =>
    !(source < d && (d : Int) < target && target ≤ (i : Int))

/-- The only instruction that writes a register, if every way to `i` passes it. -/
def writerBefore? (f : Flow) (r : Int) (i : Nat) : Option Nat :=
  match f.onlyWriter? r with
  | some d => if f.dominates d i then some d else none
  | none => none

/-- Whether a register has the same value at `i` and at every later place. -/
def isStableAt (f : Flow) (r : Int) (i : Nat) : Bool :=
  if r < f.params then (f.writers r).isEmpty else (f.writerBefore? r i).isSome

/-- The constant that a register surely holds at `i`, with its place among the constants. There is
no answer if a load names a constant that is not there. -/
def constantAt (f : Flow) (b : Block) (r : Int) (i : Nat) : Option (Option (Datum × Int)) :=
  match f.writerBefore? r i with
  | none => some none
  | some d =>
    match b.code[d]? with
    | none => none
    | some ins =>
      if ins.op = .loadConstant then
        match b.constant? ins.k with
        | none => none
        | some (.block _) => some none
        | some value => some (some (value, ins.k))
      else some none

/-- The place of the block of the function that a register surely holds at `i`; copies are followed
for a number of rounds. -/
def functionAt (f : Flow) (b : Block) : Nat → Int → Nat → Option Nat
  | 0, _, _ => none
  | rounds + 1, r, i =>
    match f.writerBefore? r i with
    | none => none
    | some d =>
      match b.code[d]? with
      | none => none
      | some ins =>
        match ins.op with
        | .closure => b.nested? ins.k
        | .move => functionAt f b rounds ins.a d
        | _ => none

/-- The register that a register was copied from, if that has the same value at `i`; copies are
followed for a number of rounds. -/
def sourceOf (f : Flow) (b : Block) (i : Nat) : Nat → Int → Int
  | 0, r => r
  | rounds + 1, r =>
    match f.writerBefore? r i with
    | none => r
    | some d =>
      match b.code[d]? with
      | none => r
      | some ins =>
        if ins.op = .move && f.isStableAt ins.a i then sourceOf f b i rounds ins.a else r

end Flow

namespace Block

/-- Whether an instruction between `j` and `i` may change a composite or a string. -/
def hasEffectsBetween (b : Block) (j i : Nat) : Bool :=
  (b.code.toSubarray (j + 1) i).any fun ins => ins.op = .setElement || ins.op.isCall

def setInstruction (b : Block) (offset : Nat) (ins : Instruction) : Block :=
  { b with code := b.code.setIfInBounds offset ins }

/-- The place of a branch's target in new code, where `places` gives the new place of every old
instruction and of the end. -/
def retarget (places : Array Nat) (ins : Instruction) : Option Instruction :=
  if ins.op.isBranch then
    if ins.target < 0 then none
    else places[ins.target.toNat]?.map fun target => { ins with target }
  else some ins

/-- The new place of every instruction, and of the end, when only those marked are kept: the number
of kept ones in front of it. -/
def keptPlaces (keep : List Bool) : Array Nat :=
  let (places, n) := keep.foldl (fun (places, n) k =>
    (Array.push places n, if k then n + 1 else n)) (#[], 0)
  places.push n

/-- The block with only the marked instructions. A branch to one that is dropped goes to the next
one that is kept. -/
def compact (b : Block) (keep : List Bool) : Option Block := do
  let places := keptPlaces keep
  let kept := (b.code.toList.zip keep).filterMap fun (ins, k) => if k then some ins else none
  let code ← kept.mapM (retarget places)
  return { b with code := code.toArray }

end Block

end Inkwell
