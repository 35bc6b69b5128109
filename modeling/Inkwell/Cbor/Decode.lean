import Inkwell.Cbor.Reader

/-!
# Values of items

What an item means where a number, a truth value, a string, a list or a record is expected. Null
means zero, false or nothing; a tag in front of an item is looked through. A record is a map with
numbers as keys; keys that name no field are passed over, and of equal keys the first counts.
-/

namespace Inkwell

namespace Cbor

namespace Item

def isNull : Item → Bool
  | simple n => n = 22 || n = 23
  | _ => false

/-- Whether an item may stand behind a tag that says what its content is. -/
def fitsTag (tag : Nat) (item : Item) : Bool :=
  if tag = 0 then
    match item with
    | text _ => true
    | _ => false
  else if tag = 1 then
    match item with
    | unsigned _ | negative _ | float .. => true
    | _ => false
  else if tag = 2 || tag = 3 then
    match item with
    | bytes _ => true
    | _ => false
  else true

/-- The item behind its tags, of which only those for large numbers are kept. -/
def plain? : Item → Option Item
  | tagged tag item =>
    if item.fitsTag tag then
      if tag = 2 || tag = 3 then some (.tagged tag item) else plain? item
    else none
  | item => some item

def bytesValue (chunks : List Text) : Nat :=
  (Text.concat chunks).bytes.foldl (fun v b => v * 256 + b.toNat) 0

/-- The natural number below `2 ^ 64` that an item means where a number is expected. -/
def natural? : Item → Option Nat
  | unsigned n => some n
  | simple n => if 20 ≤ n && n ≤ 23 then none else some n
  | tagged 2 (bytes chunks) =>
    let n := bytesValue chunks
    if n < 1 <<< 64 then some n else none
  | _ => none

def negative? : Item → Option Int
  | negative n => some (-1 - n)
  | tagged 3 (bytes chunks) => some (-1 - bytesValue chunks)
  | _ => none

def int? (item : Item) : Option Int := do
  let item ← item.plain?
  if item.isNull then return 0
  match item.natural? with
  | some n => if n < 1 <<< 63 then return n else none
  | none =>
    let n ← item.negative?
    if -(1 <<< 63 : Nat) ≤ n then return n else none

def nat? (limit : Nat) (item : Item) : Option Nat := do
  let item ← item.plain?
  if item.isNull then return 0
  let n ← item.natural?
  if n ≤ limit then return n else none

def bool? (item : Item) : Option Bool := do
  let item ← item.plain?
  match item with
  | simple 20 | simple 22 | simple 23 => return false
  | simple 21 => return true
  | _ => none

/-- The text that an item means; all of its chunks have to be well-formed. -/
def text? (item : Item) : Option Text := do
  let item ← item.plain?
  if item.isNull then return ""
  match item with
  | text chunks => if chunks.all (·.isWellFormed) then return Text.concat chunks else none
  | _ => none

/-- The list that an item means, where `f` gives the meaning of its items. -/
def list? {α : Type} (f : Item → Option α) (item : Item) : Option (List α) := do
  let item ← item.plain?
  if item.isNull then return []
  match item with
  | array items => items.mapM f
  | _ => none

/-- The bytes that an item means: a string of bytes, or a list of numbers below 256. -/
def bytes? (item : Item) : Option Text := do
  let item ← item.plain?
  match item with
  | bytes chunks | tagged _ (bytes chunks) => return Text.concat chunks
  | item => return Text.ofBytes ((← item.list? (nat? 255)).map Nat.toUInt8)

/-- The number of a record's field that a key names: a number of sixty-four bits, or the text of a
number from 1 to `last`. A key must be a number or a well-formed text; one that names no field is
passed over. -/
def key? (last : Nat) (item : Item) : Option (Option Int) :=
  match item with
  | unsigned n => some (some (Int64.ofNat n).toInt)
  | negative n => some (some (Int64.ofInt (-1 - n)).toInt)
  | text chunks =>
    if chunks.all (·.isWellFormed) then
      let content := Text.concat chunks
      let numbers := (List.range (last + 1)).drop 1
      some ((numbers.find? fun k => Text.ofNat k == content).map Int.ofNat)
    else none
  | _ => none

/-- The fields of a map from keys and values in turn, each field with its number. -/
def fieldsOf (last : Nat) : List Item → Option (List (Int × Item))
  | key :: value :: rest => do
    match ← key.key? last with
    | some number => return (number, value) :: (← fieldsOf last rest)
    | none => fieldsOf last rest
  | _ => some []

/-- The fields of a record whose fields have the numbers from 1 to `last`. -/
def fields? (last : Nat) (item : Item) : Option (List (Int × Item)) := do
  let item ← item.plain?
  if item.isNull then return []
  match item with
  | map items => fieldsOf last items
  | _ => none

end Item

/-- The item in the field with a number; null if there is none. -/
def field (fields : List (Int × Item)) (number : Int) : Item :=
  (fields.lookup number).getD (.simple 22)

end Cbor

end Inkwell
