import Inkwell.Code.Opcode
import Inkwell.Token.Basic

/-!
# Blocks and programs

The code of one unit is a block: instructions on a file of registers, constants, and the cells it
takes from the code around it. A program is a list of blocks of which the first is the root; a block
that is a constant of another is nested in it and stands behind it.
-/

namespace Inkwell

/-- A cell that a block takes from the code around it: one in a register there, or one that block
has taken itself. -/
structure Bind where
  isLocal : Bool
  index : Int
deriving DecidableEq, Inhabited

/-- One instruction. Which of the operands mean something depends on the code. -/
structure Instruction where
  op : Opcode
  dest : Int := 0
  a : Int := 0
  b : Int := 0
  c : Int := 0
  k : Int := 0
  args : List Int := []
  target : Int := 0
  /-- Whether the result of the call is the result of the block. -/
  tail : Bool := false
  position : Position := {}
deriving DecidableEq, Inhabited

structure Block where
  id : Int := 0
  name : Text := ""
  slots : Int := 0
  /-- The number of parameters, which are in the first registers. -/
  params : Int := 0
  /-- The register that holds the result behind the last instruction. -/
  ret : Int := 0
  constants : Array Datum := #[]
  binds : Array Bind := #[]
  code : Array Instruction := #[]
deriving DecidableEq, Inhabited

namespace Block

def inspect (b : Block) : Text :=
  if b.name.isEmpty then "<block " ++ Text.ofInt b.id ++ ">"
  else "<block " ++ Text.ofInt b.id ++ " " ++ b.name ++ ">"

def constant? (b : Block) (k : Int) : Option Datum :=
  if k < 0 then none else b.constants[k.toNat]?

def nested? (b : Block) (k : Int) : Option Nat :=
  match b.constant? k with
  | some (.block place) => some place
  | _ => none

/-- The places of the nested blocks, in the order of the constants. -/
def children (b : Block) : List Nat :=
  b.constants.toList.filterMap fun
    | .block place => some place
    | _ => none

/-- The place of a constant equal to `d`, if there is one that may be shared. -/
def sharedConstant? (b : Block) (d : Datum) : Option Nat :=
  if d.isShareable then b.constants.findIdx? (· == d) else none

/-- The block with a constant, and its place; an equal one is shared. -/
def addConstant (b : Block) (d : Datum) : Nat × Block :=
  match b.sharedConstant? d with
  | some place => (place, b)
  | none => (b.constants.size, { b with constants := b.constants.push d })

end Block

/-- A program: its blocks, the root first. -/
structure Program where
  blocks : Array Block := #[]
deriving DecidableEq, Inhabited

namespace Program

def block (p : Program) (place : Nat) : Block := p.blocks[place]?.getD default

def root (p : Program) : Block := p.block 0

/-- The places of a block and of the blocks nested in it, each before those nested in it. Nested
blocks stand behind, so there are at most as many levels as blocks. -/
def placesFrom (p : Program) : Nat → Nat → List Nat
  | 0, _ => []
  | levels + 1, place =>
    place :: (p.block place).children.flatMap (placesFrom p levels)

def places (p : Program) : List Nat := p.placesFrom p.blocks.size 0

def walk (p : Program) : List Block := p.places.map p.block

def countBlocks (p : Program) : Nat := p.places.length

def countInstructions (p : Program) : Nat := p.walk.foldl (fun n b => n + b.code.size) 0

end Program

end Inkwell
