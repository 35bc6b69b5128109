import Inkwell.Text.Basic

/-!
# Runes

A text is read as a sequence of runes: the characters of its well-formed UTF-8 sequences, and one
stray byte for every byte that begins none. A sequence is well formed when it is the shortest
spelling of a Unicode scalar value, so surrogates and overlong spellings are stray bytes.
-/

namespace Inkwell

/-- One step of reading a text: a character, or a byte that begins no character. -/
inductive Rune where
  | char (c : Char)
  | stray (b : UInt8)
deriving DecidableEq

namespace Rune

/-- The character a rune is read as; a stray byte reads as the replacement character. -/
def toChar : Rune → Char
  | .char c => c
  | .stray _ => '�'

def bytes : Rune → List UInt8
  | .char c => String.utf8EncodeChar c
  | .stray b => [b]

end Rune

namespace Text

def isContinuation (b : UInt8) : Bool := 0x80 ≤ b && b ≤ 0xbf

def continuationBits (b : UInt8) : Nat := b.toNat % 0x40

/-- The rune that starts with `b` when `rest` follows, with the number of bytes of `rest` it
takes. -/
def leadingRune (b : UInt8) (rest : List UInt8) : Rune × Nat :=
  if b < 0x80 then (.char (Char.ofNat b.toNat), 0)
  else if 0xc2 ≤ b && b ≤ 0xdf then
    match rest with
    | c :: _ =>
      if isContinuation c then
        (.char (Char.ofNat (b.toNat % 0x20 * 0x40 + continuationBits c)), 1)
      else (.stray b, 0)
    | _ => (.stray b, 0)
  else if 0xe0 ≤ b && b ≤ 0xef then
    match rest with
    | c :: d :: _ =>
      let least : UInt8 := if b = 0xe0 then 0xa0 else 0x80
      let greatest : UInt8 := if b = 0xed then 0x9f else 0xbf
      if least ≤ c && c ≤ greatest && isContinuation d then
        (.char (Char.ofNat (b.toNat % 0x10 * 0x1000 + continuationBits c * 0x40
          + continuationBits d)), 2)
      else (.stray b, 0)
    | _ => (.stray b, 0)
  else if 0xf0 ≤ b && b ≤ 0xf4 then
    match rest with
    | c :: d :: e :: _ =>
      let least : UInt8 := if b = 0xf0 then 0x90 else 0x80
      let greatest : UInt8 := if b = 0xf4 then 0x8f else 0xbf
      if least ≤ c && c ≤ greatest && isContinuation d && isContinuation e then
        (.char (Char.ofNat (b.toNat % 8 * 0x40000 + continuationBits c * 0x1000
          + continuationBits d * 0x40 + continuationBits e)), 3)
      else (.stray b, 0)
    | _ => (.stray b, 0)
  else (.stray b, 0)

/-- The runes of a list of bytes behind the runes `found`, latest first, of which the last takes the
next `skipped` bytes too. -/
def runesAfter (found : List Rune) : Nat → List UInt8 → List Rune
  | _, [] => found.reverse
  | 0, b :: rest =>
    let (rune, width) := leadingRune b rest
    runesAfter (rune :: found) width rest
  | skipped + 1, _ :: rest => runesAfter found skipped rest

def runes (t : Text) : List Rune := runesAfter [] 0 t.bytes

def chars (t : Text) : List Char := t.runes.map Rune.toChar

def ofChars (cs : List Char) : Text := ofBytes (cs.flatMap String.utf8EncodeChar)

def ofChar (c : Char) : Text := ofBytes (String.utf8EncodeChar c)

def isWellFormed (t : Text) : Bool :=
  t.runes.all fun
    | .char _ => true
    | .stray _ => false

end Text

end Inkwell
