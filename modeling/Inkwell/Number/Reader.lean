import Inkwell.Number.Basic
import Inkwell.Text.Basic

/-!
# Reading numbers

The spellings of a number a program may convert: decimal digits with an optional fraction and
exponent, hexadecimal digits with an optional fraction and a binary exponent, the infinities, and
the not-a-number. Digits may be grouped with underscores. A spelling of a
number too large to represent is refused; one too small reads as zero.
-/

namespace Inkwell.Number

def isDigitByte (b : UInt8) : Bool := 48 ≤ b && b ≤ 57

def lowerByte (b : UInt8) : UInt8 := if 65 ≤ b && b ≤ 90 then b + 32 else b

def digitValue? (base : Nat) (b : UInt8) : Option Nat :=
  (Text.hexValue? b).bind fun v => if v < base then some v else none

def digitsValue (base acc : Nat) (ds : List UInt8) : Nat :=
  ds.foldl (fun n d => n * base + ((digitValue? base d).getD 0)) acc

/-- The exponent that decimal digits spell; once it has reached ten thousand, further digits do not
change it. -/
def exponentValue (ds : List UInt8) : Nat :=
  ds.foldl (fun n d => if n < 10000 then n * 10 + (d.toNat - 48) else n) 0

def splitSign : List UInt8 → Bool × List UInt8
  | 43 :: rest => (false, rest)
  | 45 :: rest => (true, rest)
  | rest => (false, rest)

/-- The parts of a spelled number: its digits, how many of them are behind the point, and the
exponent with its sign. -/
structure Spelled where
  digits : List UInt8
  places : Nat
  exponent : Int

/-- Reads the digits, point and exponent of a spelling in the given base, whose exponent follows the
letter `mark` and may be missing when `optional` is set. -/
def readParts? (base : Nat) (mark : UInt8) (optional : Bool) (bs : List UInt8) : Option Spelled :=
  let isDigit := fun b => (digitValue? base b).isSome
  let whole := bs.takeWhile isDigit
  let afterWhole := bs.dropWhile isDigit
  let (places, afterPoint) :=
    match afterWhole with
    | 46 :: rest => (rest.takeWhile isDigit, rest.dropWhile isDigit)
    | rest => ([], rest)
  let digits := whole ++ places
  if digits.isEmpty then none
  else
    match afterPoint with
    | [] => if optional then some ⟨digits, places.length, 0⟩ else none
    | b :: rest =>
      if lowerByte b = mark then
        let (negative, ds) := splitSign rest
        if ds.isEmpty || !ds.all isDigitByte then none
        else
          let e : Int := exponentValue ds
          some ⟨digits, places.length, if negative then -e else e⟩
      else none

/-- Whether every underscore of a spelling stands between two digits; `afterDigit` says whether a
digit precedes, for which the mark of a hexadecimal spelling counts. -/
def underscoresSeparate (base : Nat) : Bool → List UInt8 → Bool
  | _, [] => true
  | _, [95] => false
  | afterDigit, b :: c :: rest =>
    if b = 95 then
      afterDigit && (digitValue? base c).isSome && underscoresSeparate base false (c :: rest)
    else underscoresSeparate base (digitValue? base b).isSome (c :: rest)
  | _, [_] => true

/-- The bytes of a spelling without underscores, if each of them stands between two digits. -/
def ungroup? (base : Nat) (bs : List UInt8) : Option (List UInt8) :=
  if underscoresSeparate base (base == 16) bs then some (bs.filter (· ≠ 95)) else none

/-- A spelling of an infinity or of the not-a-number, in any case. -/
def readSpecial? (bs : List UInt8) : Option Number :=
  let lower := bs.map lowerByte
  let (negative, word) := splitSign lower
  if word == Text.bytes "inf" || word == Text.bytes "infinity" then
    some (ofMagnitudeBits negative infiniteBits)
  else if lower == Text.bytes "nan" then some undefined
  else none

/-- The bytes after a hexadecimal mark, if there is one with something behind it. -/
def hexBody? : List UInt8 → Option (List UInt8)
  | 48 :: x :: b :: rest => if lowerByte x = 120 then some (b :: rest) else none
  | _ => none

def read? (t : Text) : Option Number :=
  match readSpecial? t.bytes with
  | some n => some n
  | none =>
    let (negative, body) := splitSign t.bytes
    let number? : Option Number :=
      match hexBody? body with
      | some hex =>
        ((ungroup? 16 hex).bind (readParts? 16 112 false)).map fun s =>
          ofBinary negative (digitsValue 16 0 s.digits) (s.exponent - 4 * s.places)
      | none =>
        ((ungroup? 10 body).bind (readParts? 10 101 true)).map fun s =>
          ofDecimal negative (digitsValue 10 0 s.digits) (s.exponent - s.places)
    number?.filter fun n => n.isFinite

end Inkwell.Number
