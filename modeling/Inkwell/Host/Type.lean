import Inkwell.Heap.Basic
import Inkwell.Number.Convert
import Inkwell.Number.Reader

/-!
# Types and values of a host

A host that embeds the machine has typed values: integers of several widths, lists, maps, records,
pointers, and interfaces, which hold a value of any type or of those that are errors. A value of a
program is a value of the host too.
-/

namespace Inkwell

inductive IntegerKind where
  | int
  | int8
  | int16
  | int32
  | int64
  | uint
  | uint8
  | uint16
  | uint32
  | uint64
  | uintptr
deriving DecidableEq, Inhabited

namespace IntegerKind

def name : IntegerKind → Text
  | int => "int"
  | int8 => "int8"
  | int16 => "int16"
  | int32 => "int32"
  | int64 => "int64"
  | uint => "uint"
  | uint8 => "uint8"
  | uint16 => "uint16"
  | uint32 => "uint32"
  | uint64 => "uint64"
  | uintptr => "uintptr"

def width : IntegerKind → Nat
  | int8 | uint8 => 8
  | int16 | uint16 => 16
  | int32 | uint32 => 32
  | _ => 64

def isSigned : IntegerKind → Bool
  | int | int8 | int16 | int32 | int64 => true
  | _ => false

def wrap (k : IntegerKind) (n : Int) : Int :=
  if k.isSigned then n.bmod (1 <<< k.width) else n % (1 <<< k.width : Nat)

def ofNumber (k : IntegerKind) (n : Number) : Int :=
  if k.isSigned then k.wrap n.toInt64.toInt else k.wrap n.toUInt64.toNat

end IntegerKind

inductive HostType where
  | any
  | error
  | guest
  | integer (kind : IntegerKind)
  | float32
  | float64
  | boolean
  | string
  | list (element : HostType)
  | array (size : Nat) (element : HostType)
  | map (key value : HostType)
  | pointer (target : HostType)
  /-- A record with its fields, which are for everyone or only for its own package. -/
  | record (name : Text) (fields : List (Text × Bool × HostType))
  | named (name : Text) (definition : HostType)
  | reference (name : Text)
  | foreign (name : Text)
deriving Inhabited

namespace HostType

def name : HostType → Text
  | any => "interface \x7b\x7d"
  | error => "error"
  | guest => "vm.Value"
  | integer kind => kind.name
  | float32 => "float32"
  | float64 => "float64"
  | boolean => "bool"
  | string => "string"
  | list element => "[]" ++ element.name
  | array size element => "[" ++ Text.ofNat size ++ "]" ++ element.name
  | map key value => "map[" ++ key.name ++ "]" ++ value.name
  | pointer target => "*" ++ target.name
  | record name _ => name
  | named name _ => name
  | reference name => name
  | foreign name => name

def underlying : HostType → HostType
  | named _ definition => definition.underlying
  | t => t

def isInterface (t : HostType) : Bool :=
  match t with
  | any | error => true
  | _ => false

def isByte (t : HostType) : Bool :=
  match t.underlying with
  | integer .uint8 => true
  | _ => false

def integerKinds : List IntegerKind :=
  [.int, .int8, .int16, .int32, .int64, .uint, .uint8, .uint16, .uint32, .uint64, .uintptr]

def ofSimpleName? (name : Text) : Option HostType :=
  match integerKinds.find? (·.name = name) with
  | some kind => some (integer kind)
  | none =>
    ([("any", any), ("error", error), ("byte", integer .uint8), ("float32", float32),
      ("float64", float64), ("bool", boolean), ("string", string)] :
        List (Text × HostType)).lookup name

/-- The type that a name spells, given types under simple names; every round takes a part of it. -/
def ofNameIn? (declared : Text → Option HostType) : Nat → Text → Option HostType
  | 0, _ => none
  | rounds + 1, name =>
    let argument (start : Nat) : Text := Text.ofBytes ((name.bytes.drop start).takeWhile (· ≠ 93))
    let behind (start : Nat) : Text := name.drop (start + (argument start).size + 1)
    if name.startsWith "*" then (ofNameIn? declared rounds (name.drop 1)).map pointer
    else if name.startsWith "[]" then (ofNameIn? declared rounds (name.drop 2)).map list
    else if name.startsWith "[" then
      (ofNameIn? declared rounds (behind 1)).map
        (array (Number.digitsValue 10 0 (argument 1).bytes))
    else if name.startsWith "map[" then do
      return map (← ofNameIn? declared rounds (argument 4)) (← ofNameIn? declared rounds (behind 4))
    else (declared name).or (ofSimpleName? name)

def ofName? (declared : Text → Option HostType) (name : Text) : Option HostType :=
  ofNameIn? declared (name.size + 1) name

end HostType

inductive HostValue where
  /-- No value at all, which an interface may hold. -/
  | nothing
  | dynamic (content : HostValue)
  | guest (v : Value)
  | integer (kind : IntegerKind) (n : Int)
  | float32 (n : Number)
  | float64 (n : Number)
  | boolean (b : Bool)
  | string (t : Text)
  | bytes (t : Text)
  | list (items : List HostValue)
  | array (items : List HostValue)
  /-- A map with its entries in some order. -/
  | map (entries : List (HostValue × HostValue))
  | pointer (target : HostValue)
  /-- A record, of whose fields only those for everyone are listed. -/
  | record (name : Text) (fields : List (Text × HostValue))
  /-- The list, map, pointer or reference of a type that is not there. -/
  | absent (type : HostType)
  | foreign (type : Text)
deriving Inhabited

namespace HostValue

def toInt : HostValue → Int
  | integer _ n => n
  | _ => 0

def toNumber : HostValue → Number
  | float32 n | float64 n => n
  | _ => ⟨0⟩

def toText : HostValue → Text
  | string t | bytes t => t
  | _ => ""

def isTrue : HostValue → Bool
  | boolean b => b
  | _ => false

def items : HostValue → List HostValue
  | list items | array items => items
  | _ => []

def entries : HostValue → List (HostValue × HostValue)
  | map entries => entries
  | _ => []

end HostValue

def HostValue.inPlaceOf (t : HostType) (v : HostValue) : HostValue :=
  match v with
  | .nothing => .nothing
  | v => if t.isInterface then .dynamic v else v

mutual

def HostType.zero : HostType → HostValue
  | any | error => .nothing
  | guest => .guest .empty
  | integer kind => .integer kind 0
  | float32 => .float32 ⟨0⟩
  | float64 => .float64 ⟨0⟩
  | boolean => .boolean false
  | string => .string ""
  | list element => .absent (.list element)
  | array size element => .array (List.replicate size element.zero)
  | map key value => .absent (.map key value)
  | pointer target => .absent (.pointer target)
  | record name fields => .record name (zeroFields fields)
  | named _ definition => definition.zero
  | reference name => .absent (.reference name)
  | foreign name => .foreign name

def HostType.zeroFields : List (Text × Bool × HostType) → List (Text × HostValue)
  | [] => []
  | (name, isPublic, t) :: rest =>
    if isPublic then (name, t.zero) :: zeroFields rest else zeroFields rest

end

end Inkwell
