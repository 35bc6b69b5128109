import Inkwell.Code.Valid
import Inkwell.Image.Record
import Inkwell.Text.Quoted
import Std.Data.HashMap

/-!
# Images

A program as bytes: a mark, the version of the format, and the records of its blocks, so that equal
programs have equal images. Host functions are stored by name, and an image that is read is checked
before it is used.
-/

namespace Inkwell

inductive ImageError where
  | notAnImage
  | unsupportedVersion (version : UInt8)
  | unreadable
  | noBlocks
  | unstorable (block : Text) (constant : Nat) (type : Text)
  | unknownNumber (block : Text) (constant : Nat) (id : Int)
  | unknownNative (block : Text) (constant : Nat) (name : Text)
  | badReference (block : Text) (constant : Nat) (place : Int)
  | unknownKind (block : Text) (constant : Nat) (kind : Nat)
  | unknownOpcode (block : Text) (instruction : Nat) (name : Text)
  | invalid (message : Text)
deriving DecidableEq

namespace Image

def mark : Text := "INKB"

def version : UInt8 := 1

end Image

def ImageError.message : ImageError → Text
  | notAnImage => "not an inkvm image"
  | unsupportedVersion v =>
    "version " ++ Text.ofNat v.toNat ++ ", expected " ++ Text.ofNat Image.version.toNat
      ++ ": unsupported image version"
  | unreadable => "decode image: unreadable"
  | noBlocks => "decode image: no blocks"
  | unstorable block constant type =>
    "encode block " ++ block ++ ": constant " ++ Text.ofNat constant ++ ": " ++ type
      ++ " cannot be encoded"
  | unknownNumber block constant id =>
    "encode block " ++ block ++ ": constant " ++ Text.ofNat constant ++ ": unknown native "
      ++ Text.ofInt id
  | unknownNative block constant name =>
    "decode block " ++ block ++ ": constant " ++ Text.ofNat constant ++ ": unknown native "
      ++ name.quoted
  | badReference block constant place =>
    "decode block " ++ block ++ ": constant " ++ Text.ofNat constant ++ ": bad block reference "
      ++ Text.ofInt place
  | unknownKind block constant kind =>
    "decode block " ++ block ++ ": constant " ++ Text.ofNat constant ++ ": unknown kind "
      ++ Text.ofNat kind
  | unknownOpcode block instruction name =>
    "decode block " ++ block ++ ": instruction " ++ Text.ofNat instruction ++ ": unknown opcode "
      ++ name.quoted
  | invalid message => "decode image: " ++ message

namespace Image

/-! ## Storing -/

/-- The places of blocks in the order they are stored, latest first, and the number each is stored
under. -/
structure Order where
  places : List Nat := []
  numbers : Std.HashMap Nat Nat := {}

/-- The order with a block and the blocks nested in it behind those already found. -/
def orderFrom (p : Program) : Nat → Order → Nat → Order
  | 0, found, _ => found
  | levels + 1, found, place =>
    if found.numbers.contains place then found
    else
      let found : Order := {
        places := place :: found.places
        numbers := found.numbers.insert place found.numbers.size }
      (p.block place).children.foldl (orderFrom p levels) found

/-- The order of the blocks of a program: each once and before those nested in it. -/
def order (p : Program) : Order := orderFrom p p.blocks.size {} 0

def constantRecord (natives : List Text) (places : Nat → Nat) (block : Text) (k : Nat) :
    Datum → Except ImageError ConstantRecord
  | .empty => .ok { kind := 0 }
  | .number n => .ok { kind := 1, bits := n.bits.toNat }
  | .boolean b => .ok { kind := 2, bits := if b then 1 else 0 }
  | .string t => .ok { kind := 3, bytes := t }
  | .native id =>
    match if id < 0 then none else natives[id.toNat]? with
    | some native => .ok { kind := 4, native }
    | none => .error (.unknownNumber block k id)
  | .block place => .ok { kind := 5, block := places place }
  | d => .error (.unstorable block k d.typeName)

def blockRecord (natives : List Text) (places : Nat → Nat) (b : Block) :
    Except ImageError BlockRecord := do
  let constants ← b.constants.toList.zipIdx.mapM fun (d, k) =>
    constantRecord natives places b.name k d
  return {
    id := b.id, name := b.name, slots := b.slots, params := b.params, ret := b.ret
    constants, binds := b.binds.toList
    code := b.code.toList.map fun ins => { name := ins.op.name, operands := ins } }

def encode (natives : List Text) (p : Program) : Except ImageError Text := do
  let order := order p
  let records ← order.places.reverse.mapM fun place =>
    blockRecord natives (fun child => order.numbers[child]?.getD 0) (p.block place)
  return Cbor.write (mark.push version) (recordsItem records)

/-! ## Reading -/

def constantOf (natives : List Text) (count place : Nat) (block : Text) (k : Nat)
    (r : ConstantRecord) : Except ImageError Datum :=
  match r.kind with
  | 0 => .ok .empty
  | 1 => .ok (.number ⟨r.bits.toUInt64⟩)
  | 2 => .ok (.boolean (r.bits = 1))
  | 3 => .ok (.string r.bytes)
  | 4 =>
    match natives.idxOf? r.native with
    | some id => .ok (.native id)
    | none => .error (.unknownNative block k r.native)
  | 5 =>
    -- only later blocks may be nested, so that there are no cycles
    if r.block ≤ place || count ≤ r.block then .error (.badReference block k r.block)
    else .ok (.block r.block.toNat)
  | kind => .error (.unknownKind block k kind)

def instructionOf (block : Text) (offset : Nat) (r : InstructionRecord) :
    Except ImageError Instruction :=
  match Opcode.ofName? r.name with
  | some op => .ok { r.operands with op }
  | none => .error (.unknownOpcode block offset r.name)

def blockOf (natives : List Text) (count place : Nat) (r : BlockRecord) :
    Except ImageError Block := do
  let constants ← r.constants.zipIdx.mapM fun (c, k) =>
    constantOf natives count place r.name k c
  let code ← r.code.zipIdx.mapM fun (ins, offset) => instructionOf r.name offset ins
  return {
    id := r.id, name := r.name, slots := r.slots, params := r.params, ret := r.ret
    constants := constants.toArray, binds := r.binds.toArray, code := code.toArray }

def records (data : Text) : Except ImageError (List BlockRecord) :=
  let start := mark.size
  if data.size ≤ start || !data.startsWith mark then .error .notAnImage
  else
    match data.data[start]? with
    | none => .error .notAnImage
    | some v =>
      if v ≠ version then .error (.unsupportedVersion v)
      else
        match (Cbor.read? (data.drop (start + 1))).bind recordsOfItem? with
        | none => .error .unreadable
        | some [] => .error .noBlocks
        | some records => .ok records

def decode (natives : List Text) (data : Text) : Except ImageError Program := do
  let records ← records data
  let count := records.length
  let blocks ← records.zipIdx.mapM fun (r, place) => blockOf natives count place r
  let p : Program := ⟨blocks.toArray⟩
  match p.validate with
  | .ok () => return p
  | .error message => throw (.invalid message)

end Image

end Inkwell
