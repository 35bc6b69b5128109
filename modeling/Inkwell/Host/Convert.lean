import Inkwell.Fault
import Inkwell.Heap.Composite
import Inkwell.Heap.Inspect
import Inkwell.Host.Type

/-!
# Between host and program

Values of a host become values of programs and the other way round. Numbers become numbers, strings
and lists of bytes become strings, and lists, arrays, maps and records become composites. A
composite whose keys are the indices without a gap becomes a list, any other one a map. Conversions
go down to a limited depth, because composites may contain themselves.
-/

namespace Inkwell

inductive HostError where
  | tooDeep
  | noGuest (type : Text)
  /-- The conversion of a record's field fails. -/
  | inField (field : Text) (cause : HostError)
  | fault (cause : Fault)
  | noHost (type : Text)
  | mismatch (type : Text) (target : HostType)
  | otherKeys (target : HostType)

def HostError.message : HostError → Text
  | tooDeep => "value nested too deeply"
  | noGuest type => "cannot convert " ++ type ++ " to a guest value"
  | inField field cause => "field " ++ field ++ ": " ++ cause.message
  | fault cause => cause.message
  | noHost type => "cannot convert " ++ type ++ " to a Go value"
  | mismatch type target => "cannot convert " ++ type ++ " to " ++ target.name
  | otherKeys target => "cannot convert composite with non-index keys to " ++ target.name

namespace Host

def maxDepth : Nat := 64

/-! ## To a program -/

/-- A conversion to a value of a program, which changes the heap. -/
abbrev Conversion := EStateM HostError Heap

/-- An element is converted and added to the composite at a place. -/
def add (place : Nat) (element : Datum × Conversion Value) : Conversion Unit := do
  let v ← element.2
  fun h =>
    match h.elementKey place element.1 with
    | .ok k => .ok () ((h.retain v).putElement place k v)
    | .error cause => .error (.fault cause) h

/-- A new composite, to which a number of elements is added one after the other. -/
def build (elements : List (Datum × Conversion Value)) : Conversion Value := do
  let place ← modifyGet fun h => h.newObject (.composite {})
  elements.forM (add place)
  return .composite place

def sortEntries (entries : List (Text × Datum × Conversion Value)) :
    List (Datum × Conversion Value) :=
  (Text.sortBy (·.1) entries).map (·.2)

/-- The text of a key that is to be converted, and its datum. Nothing keeps the value it becomes, so
the heap is left as it was. -/
def keyOf (blocks : Nat → Text) (key : Conversion Value) : Conversion (Text × Datum) := fun h =>
  match key h with
  | .ok k h' => .ok (h'.display blocks k, h'.datum k) h
  | .error cause h' => .error cause h'

mutual

/-- The value of a program for a value of the host at some depth. -/
def toGuest (blocks : Nat → Text) (depth : Nat) (v : HostValue) : Conversion Value := do
  if maxDepth < depth then throw .tooDeep
  match v with
  | .nothing => return .empty
  | .dynamic content | .pointer content => toGuest blocks (depth + 1) content
  | .guest v => return v
  | .integer _ n => return .number (Number.ofInt n)
  | .float32 n | .float64 n => return .number n
  | .boolean b => return .boolean b
  | .string t | .bytes t => modifyGet (·.newString t)
  | .list items | .array items => build (indexed blocks (depth + 1) 0 items)
  | .map entries => build (sortEntries (← keyed blocks (depth + 1) entries))
  | .record _ fields => build (labelled blocks (depth + 1) fields)
  | .absent (.list element) =>
    if element.isByte then modifyGet (·.newString "") else return .empty
  | .absent (.reference name) => throw (.noGuest name)
  | .absent _ => return .empty
  | .foreign type => throw (.noGuest type)

/-- Items with their indices from `first` on, to be converted. -/
def indexed (blocks : Nat → Text) (depth : Nat) (first : Nat) (items : List HostValue) :
    List (Datum × Conversion Value) :=
  match items with
  | [] => []
  | item :: rest =>
    (.number (Number.ofNat first), toGuest blocks depth item) ::
      indexed blocks depth (first + 1) rest

/-- Entries with their converted keys and the texts of those, the values to be converted. -/
def keyed (blocks : Nat → Text) (depth : Nat) (entries : List (HostValue × HostValue)) :
    Conversion (List (Text × Datum × Conversion Value)) :=
  match entries with
  | [] => return []
  | (key, value) :: rest => do
    let (text, d) ← keyOf blocks (toGuest blocks depth key)
    return (text, d, toGuest blocks depth value) :: (← keyed blocks depth rest)

def labelled (blocks : Nat → Text) (depth : Nat) (fields : List (Text × HostValue)) :
    List (Datum × Conversion Value) :=
  match fields with
  | [] => []
  | (name, value) :: rest =>
    (.string name, fun h =>
      match toGuest blocks depth value h with
      | .ok v h => .ok v h
      | .error cause h => .error (.inField name cause) h) :: labelled blocks depth rest

end

/-- The value of a program for a value of the host. Nothing owns it yet. -/
def convert (blocks : Nat → Text) (v : HostValue) : Conversion Value :=
  match v with
  | .dynamic content => toGuest blocks 0 content
  | v => toGuest blocks 0 v

/-! ## To the host -/

/-- The composite at a place; one that has been released has no elements. -/
def composite (h : Heap) (place : Nat) : Composite :=
  match h.objects[place]? with
  | some { body := .composite c, .. } => c
  | _ => {}

def naturalType (h : Heap) (v : Value) : Except HostError HostType :=
  match v with
  | .number _ => .ok .float64
  | .boolean _ => .ok .boolean
  | .string _ => .ok .string
  | .composite place =>
    .ok (if (composite h place).sparse.isEmpty then .list .any else .map .string .any)
  | v => .error (.noHost (h.typeName v))

def listOf (element : HostType) (items : List HostValue) : HostValue :=
  if element.isByte then
    .bytes (Text.ofBytes (items.map fun
      | .integer _ n => n.toNat.toUInt8
      | _ => 0))
  else .list (items.map (·.inPlaceOf element))

/-- The value of the host for a value of a program, if it can have the given type; `depth` levels
may be gone down. -/
def ofGuest (h : Heap) : Nat → HostType → Value → Except HostError HostValue
  | 0, _, _ => .error .tooDeep
  | depth + 1, t, v => do
    match t, v with
    | .guest, v => return .guest v
    | t, .empty => return t.zero
    | t, v =>
      let target ←
        match t with
        | .any => naturalType h v
        | .error => do
          let _ ← naturalType h v
          throw (.mismatch (h.typeName v) .error)
        | t => pure t
      match target.underlying, v with
      | .integer .uintptr, v => throw (.mismatch (h.typeName v) target)
      | .integer kind, .number n => return .integer kind (kind.ofNumber n)
      | .float32, .number n => return .float32 n.toSingle
      | .float64, .number n => return .float64 n
      | .boolean, .boolean b => return .boolean b
      | .string, .string buffer => return .string (h.text buffer)
      | .list element, .string buffer =>
        if element.isByte then return .bytes (h.text buffer)
        else throw (.mismatch (h.typeName v) target)
      | .list element, .composite place =>
        let c := composite h place
        if !c.sparse.isEmpty then throw (.otherKeys target)
        return listOf element (← c.dense.toList.mapM (ofGuest h depth element))
      | .map key element, .composite place =>
        match key.underlying with
        | .string =>
          let c := composite h place
          let entries ← c.keys.mapM fun k => do
            match Key.ofDatum k with
            | .error cause => throw (.fault cause)
            | .ok k =>
              let item ← ofGuest h depth element (c.get k)
              return (HostValue.string k.text, item.inPlaceOf element)
          return .map entries
        | _ => throw (.mismatch (h.typeName v) target)
      | _, v => throw (.mismatch (h.typeName v) target)

def toHost (h : Heap) (t : HostType) (v : Value) : Except HostError HostValue :=
  ofGuest h (maxDepth + 1) t v

end Host

end Inkwell
