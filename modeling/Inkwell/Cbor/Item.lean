import Inkwell.Text.Rune

/-!
# Items of the concise binary object representation

A value of the format in which images of programs are stored, close to how it is written: a string
is the list of its chunks, and a map is the list of its keys and values in turn.
-/

namespace Inkwell

namespace Cbor

inductive Item where
  | unsigned (n : Nat)
  /-- The negative number `-1 - n`. -/
  | negative (n : Nat)
  | bytes (chunks : List Text)
  | text (chunks : List Text)
  | array (items : List Item)
  /-- A map: a key, its value, the next key, and so on. -/
  | map (items : List Item)
  | tagged (tag : Nat) (item : Item)
  /-- A simple value: 20 is false, 21 true, 22 null and 23 undefined; most others are unassigned. -/
  | simple (n : Nat)
  /-- A binary fraction, by its bits and how many there are. -/
  | float (width bits : Nat)
deriving Inhabited

namespace Item

def int (n : Int) : Item := if n < 0 then .negative (-1 - n).toNat else .unsigned n.toNat

def bool (b : Bool) : Item := .simple (if b then 21 else 20)

/-- The map that has the given items under the given numbers; those that are missing are left
out. -/
def record (fields : List (Nat × Option Item)) : Item :=
  .map (fields.flatMap fun
    | (key, some item) => [.unsigned key, item]
    | (_, none) => [])

end Item

/-! ## Writing -/

def bigEndian : Nat → Nat → List UInt8
  | 0, _ => []
  | n + 1, value => (value >>> (8 * n)).toUInt8 :: bigEndian n value

/-- The first bytes of an item: its kind and a number, in as few bytes as possible. -/
def head (kind n : Nat) : List UInt8 :=
  let first (info : Nat) : UInt8 := (kind * 32 + info).toUInt8
  if n < 24 then [first n]
  else if n < 1 <<< 8 then first 24 :: bigEndian 1 n
  else if n < 1 <<< 16 then first 25 :: bigEndian 2 n
  else if n < 1 <<< 32 then first 26 :: bigEndian 4 n
  else first 27 :: bigEndian 8 n

def append (out : Text) (bs : List UInt8) : Text := bs.foldl ByteArray.push out

def appendString (out : Text) (kind : Nat) (chunks : List Text) : Text :=
  let content := Text.concat chunks
  append out (head kind content.size) ++ content

mutual

def write (out : Text) : Item → Text
  | .unsigned n => append out (head 0 n)
  | .negative n => append out (head 1 n)
  | .bytes chunks => appendString out 2 chunks
  | .text chunks => appendString out 3 chunks
  | .array items => writeAll (append out (head 4 items.length)) items
  | .map items => writeAll (append out (head 5 (items.length / 2))) items
  | .tagged tag item => write (append out (head 6 tag)) item
  | .simple n => append out (head 7 n)
  | .float width bits =>
    append out ((224 + (if width = 2 then 25 else if width = 4 then 26 else 27)).toUInt8
      :: bigEndian width bits)

def writeAll (out : Text) : List Item → Text
  | [] => out
  | item :: rest => writeAll (write out item) rest

end

end Cbor

end Inkwell
