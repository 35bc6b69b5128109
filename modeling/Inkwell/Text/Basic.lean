/-!
# Texts

A text is a sequence of bytes. Program sources, names, guest strings, messages and output are all
texts, because a guest string may hold any bytes and may turn up in a message. A string literal is
the text of its UTF-8 bytes.
-/

namespace Inkwell

/-- A sequence of bytes. -/
abbrev Text := ByteArray

instance : Coe String Text := ⟨String.toUTF8⟩

instance : DecidableEq Text := ByteArray.instDecidableEq

instance : LawfulBEq Text where
  eq_of_beq := fun h => ByteArray.ext (eq_of_beq h)
  rfl := fun {t} => beq_self_eq_true t.data

namespace Text

def bytes (t : Text) : List UInt8 := t.data.toList

def ofBytes (bs : List UInt8) : Text := ⟨bs.toArray⟩

@[simp] theorem bytes_ofBytes (bs : List UInt8) : (ofBytes bs).bytes = bs := by
  simp [bytes, ofBytes]

@[simp] theorem ofBytes_bytes (t : Text) : ofBytes t.bytes = t := by
  simp [bytes, ofBytes]

def ofInt (n : Int) : Text := toString n

def ofNat (n : Nat) : Text := toString n

def concat (parts : List Text) : Text := parts.foldl (· ++ ·) ByteArray.empty

def join (separator : Text) : List Text → Text
  | [] => ByteArray.empty
  | first :: rest => rest.foldl (fun acc part => acc ++ separator ++ part) first

def isEmpty (t : Text) : Bool := t.size == 0

def drop (t : Text) (n : Nat) : Text := t.extract n t.size

def take (t : Text) (n : Nat) : Text := t.extract 0 n

def startsWith (t start : Text) : Bool := t.take start.size == start

def endsWith (t ending : Text) : Bool :=
  ending.size ≤ t.size && t.drop (t.size - ending.size) == ending

def replaceByte (b : UInt8) (replacement : Text) (t : Text) : Text :=
  ofBytes (t.bytes.flatMap fun x => if x = b then replacement.bytes else [x])

/-- The text between single quotes, with a backslash before each single quote in it. -/
def singleQuoted (t : Text) : Text := "'" ++ replaceByte 39 "\\'" t ++ "'"

/-- The byte order of texts: the first difference decides, and a proper beginning comes first. -/
def compareBytes : List UInt8 → List UInt8 → Ordering
  | [], [] => .eq
  | [], _ :: _ => .lt
  | _ :: _, [] => .gt
  | x :: xs, y :: ys => if x < y then .lt else if y < x then .gt else compareBytes xs ys

def compare (s t : Text) : Ordering := compareBytes s.bytes t.bytes

/-- A list in the order of the texts of its members; members with the same text keep their order. -/
def sortBy {α : Type} (text : α → Text) (l : List α) : List α :=
  l.mergeSort fun a b => (compare (text a) (text b)).isLE

/-- The pieces of a list of bytes between the occurrences of `b`; `current` is the piece read so
far, last byte first. -/
def splitBytes (b : UInt8) (current : List UInt8) : List UInt8 → List (List UInt8)
  | [] => [current.reverse]
  | x :: xs => if x = b then current.reverse :: splitBytes b [] xs else splitBytes b (x :: current) xs

def split (b : UInt8) (t : Text) : List Text := (splitBytes b [] t.bytes).map ofBytes

/-- The lower-case hexadecimal digit of a number below sixteen. -/
def hexDigit (n : Nat) : UInt8 := if n < 10 then (48 + n).toUInt8 else (87 + n).toUInt8

def hexByte (b : UInt8) : List UInt8 := [hexDigit (b.toNat / 16), hexDigit (b.toNat % 16)]

def hex (t : Text) : Text := ofBytes (t.bytes.flatMap hexByte)

def hexNat (width n : Nat) : Text :=
  let digits := (Nat.toDigits 16 n).map fun c => c.toUInt8
  ofBytes (List.replicate (width - digits.length) 48 ++ digits)

def hexValue? (b : UInt8) : Option Nat :=
  if 48 ≤ b && b ≤ 57 then some (b.toNat - 48)
  else if 97 ≤ b && b ≤ 102 then some (b.toNat - 87)
  else if 65 ≤ b && b ≤ 70 then some (b.toNat - 55)
  else none

/-- The bytes that a list of hexadecimal digits spells, two digits a byte, behind the bytes `found`,
latest first. -/
def ofHexBytes? (found : List UInt8) : List UInt8 → Option (List UInt8)
  | [] => some found.reverse
  | [_] => none
  | high :: low :: rest =>
    match hexValue? high, hexValue? low with
    | some h, some l => ofHexBytes? ((16 * h + l).toUInt8 :: found) rest
    | _, _ => none

def ofHex? (t : Text) : Option Text := (ofHexBytes? [] t.bytes).map ofBytes

/-- The text with copies of the byte `fill` before it, up to at least `width` bytes. -/
def padLeft (width : Nat) (fill : UInt8) (t : Text) : Text :=
  ofBytes (List.replicate (width - t.size) fill) ++ t

def padRight (width : Nat) (t : Text) : Text :=
  t ++ ofBytes (List.replicate (width - t.size) 32)

end Text

end Inkwell
