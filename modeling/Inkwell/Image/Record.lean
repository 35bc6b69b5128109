import Inkwell.Cbor.Decode
import Inkwell.Code.Block

/-!
# Records of an image

The parts of a stored program: blocks with their constants, captured cells and instructions. Host
functions and operation codes are stored by name, nested blocks by their place among the blocks. A
field that is zero or empty is left out, unless it is always written.
-/

namespace Inkwell

namespace Image

/-- A stored constant; which of the fields count depends on its kind. -/
structure ConstantRecord where
  kind : Nat := 0
  /-- The bits of a number, or one for a true value. -/
  bits : Nat := 0
  bytes : Text := ""
  native : Text := ""
  block : Int := 0
deriving Inhabited

/-- A stored instruction: the name of its code, and its operands. -/
structure InstructionRecord where
  name : Text := ""
  operands : Instruction := { op := .nop }
deriving Inhabited

structure BlockRecord where
  id : Int := 0
  name : Text := ""
  slots : Int := 0
  params : Int := 0
  ret : Int := 0
  constants : List ConstantRecord := []
  binds : List Bind := []
  code : List InstructionRecord := []
deriving Inhabited

open Cbor (Item)

def unlessZero (n : Int) : Option Item := if n = 0 then none else some (.int n)

def unlessEmpty (t : Text) : Option Item := if t.isEmpty then none else some (.text [t])

def unlessNil {α : Type} (f : α → Item) (xs : List α) : Option Item :=
  if xs.isEmpty then none else some (.array (xs.map f))

def ConstantRecord.toItem (c : ConstantRecord) : Item :=
  .record [(1, some (.unsigned c.kind)), (2, unlessZero c.bits),
    (3, if c.bytes.isEmpty then none else some (.bytes [c.bytes])), (4, unlessEmpty c.native),
    (5, unlessZero c.block)]

def ConstantRecord.ofItem? (item : Item) : Option ConstantRecord := do
  let fields ← item.fields? 5
  let kind ← (Cbor.field fields 1).nat? 255
  let bits ← (Cbor.field fields 2).nat? (1 <<< 64 - 1)
  let bytes ← (Cbor.field fields 3).bytes?
  let native ← (Cbor.field fields 4).text?
  let block ← (Cbor.field fields 5).int?
  return { kind, bits, bytes, native, block }

def bindItem (b : Bind) : Item :=
  .record [(1, if b.isLocal then some (.bool true) else none), (2, some (.int b.index))]

def bindOfItem? (item : Item) : Option Bind := do
  let fields ← item.fields? 2
  let isLocal ← (Cbor.field fields 1).bool?
  let index ← (Cbor.field fields 2).int?
  return { isLocal, index }

def InstructionRecord.toItem (r : InstructionRecord) : Item :=
  let ins := r.operands
  .record [(1, some (.text [r.name])), (2, unlessZero ins.dest), (3, unlessZero ins.a),
    (4, unlessZero ins.b), (5, unlessZero ins.c), (6, unlessZero ins.k),
    (7, unlessNil .int ins.args), (8, unlessZero ins.target),
    (9, if ins.tail then some (.bool true) else none), (10, unlessZero ins.position.line),
    (11, unlessZero ins.position.column)]

def InstructionRecord.ofItem? (item : Item) : Option InstructionRecord := do
  let fields ← item.fields? 11
  let name ← (Cbor.field fields 1).text?
  let dest ← (Cbor.field fields 2).int?
  let a ← (Cbor.field fields 3).int?
  let b ← (Cbor.field fields 4).int?
  let c ← (Cbor.field fields 5).int?
  let k ← (Cbor.field fields 6).int?
  let args ← (Cbor.field fields 7).list? Item.int?
  let target ← (Cbor.field fields 8).int?
  let tail ← (Cbor.field fields 9).bool?
  let line ← (Cbor.field fields 10).int?
  let column ← (Cbor.field fields 11).int?
  let position : Position := ⟨line, column⟩
  return { name, operands := { op := .nop, dest, a, b, c, k, args, target, tail, position } }

def BlockRecord.toItem (r : BlockRecord) : Item :=
  .record [(1, some (.int r.id)), (2, unlessEmpty r.name), (3, some (.int r.slots)),
    (4, unlessZero r.params), (5, some (.int r.ret)),
    (6, unlessNil ConstantRecord.toItem r.constants), (7, unlessNil bindItem r.binds),
    (8, unlessNil InstructionRecord.toItem r.code)]

def BlockRecord.ofItem? (item : Item) : Option BlockRecord := do
  let fields ← item.fields? 8
  let id ← (Cbor.field fields 1).int?
  let name ← (Cbor.field fields 2).text?
  let slots ← (Cbor.field fields 3).int?
  let params ← (Cbor.field fields 4).int?
  let ret ← (Cbor.field fields 5).int?
  let constants ← (Cbor.field fields 6).list? ConstantRecord.ofItem?
  let binds ← (Cbor.field fields 7).list? bindOfItem?
  let code ← (Cbor.field fields 8).list? InstructionRecord.ofItem?
  return { id, name, slots, params, ret, constants, binds, code }

def recordsItem (blocks : List BlockRecord) : Item :=
  .record [(1, some (.array (blocks.map BlockRecord.toItem)))]

def recordsOfItem? (item : Item) : Option (List BlockRecord) := do
  let fields ← item.fields? 1
  (Cbor.field fields 1).list? BlockRecord.ofItem?

end Image

end Inkwell
