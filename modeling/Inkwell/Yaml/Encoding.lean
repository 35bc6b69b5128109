import Inkwell.Text.Rune

/-!
# The characters of a configuration document

A text is UTF-8, or UTF-16 if it starts with a mark that says so. It is decoded in pieces of 512
bytes, so a piece that cannot be decoded, or has a character that may not be in a document, does no
harm unless the reader comes to it.
-/

namespace Inkwell

namespace Yaml

def isAllowed (c : Char) : Bool :=
  let n := c.toNat
  n = 9 || n = 10 || n = 13 || (32 ≤ n && n ≤ 126) || n = 0x85 || (0xA0 ≤ n && n ≤ 0xFFFD) ||
    0x10000 ≤ n

/-- A step of decoding: a character, or nothing if none can be read, and the number of bytes. -/
structure Step where
  char : Option Char
  width : Nat

def Step.ofChar (c : Char) (width : Nat) : Step :=
  { char := if isAllowed c then some c else none, width }

def announcedWidth (b : UInt8) : Nat :=
  if b &&& 0xe0 = 0xc0 then 2 else if b &&& 0xf0 = 0xe0 then 3
  else if b &&& 0xf8 = 0xf0 then 4 else 1

def stepsOfRunes (t : Text) : List Step :=
  t.runes.map fun
    | .char c => .ofChar c c.utf8Size
    | .stray b => { char := none, width := announcedWidth b }

/-- The units of sixteen bits that bytes spell, and whether a byte is left over. -/
def units (low : Bool) : List UInt8 → List Nat × Bool
  | a :: b :: rest =>
    let (found, odd) := units low rest
    ((if low then b.toNat * 256 + a.toNat else a.toNat * 256 + b.toNat) :: found, odd)
  | [_] => ([], true)
  | [] => ([], false)

def stepsOfUnits : List Nat → List Step
  | [] => []
  | a :: rest =>
    if a / 0x400 = 0x37 then [{ char := none, width := 2 }]
    else if a / 0x400 = 0x36 then
      match rest with
      | b :: rest =>
        if b / 0x400 = 0x37 then
          .ofChar (Char.ofNat (0x10000 + a % 0x400 * 0x400 + b % 0x400)) 4 :: stepsOfUnits rest
        else [{ char := none, width := 4 }]
      | [] => [{ char := none, width := 4 }]
    else .ofChar (Char.ofNat a) 2 :: stepsOfUnits rest

/-- The characters of a document as far as they can be decoded, and whether some cannot. -/
structure Characters where
  chars : List Char
  broken : Bool

/-- The number of bytes that are decoded at once. -/
def pieceSize : Nat := 512

/-- The characters that steps give. The piece that is being decoded starts at the byte `start`, and
`piece` are its characters, latest first; `found` are those of the pieces in front. -/
def decode (start : Nat) (found piece : List Char) : Nat → List Step → Characters
  | _, [] => { chars := (piece ++ found).reverse, broken := false }
  | place, s :: rest =>
    let fits := place + s.width ≤ start + pieceSize
    let start := if fits then start else place
    let found := if fits then found else piece ++ found
    let piece := if fits then piece else []
    match s.char with
    | some c => decode start found (c :: piece) (place + s.width) rest
    | none => { chars := found.reverse, broken := true }

def charactersOf (t : Text) : Characters :=
  let wide (low : Bool) (bs : List UInt8) : Characters :=
    let (found, odd) := units low bs
    let ending : List Step := if odd then [{ char := none, width := 2 }] else []
    decode 0 [] [] 2 (stepsOfUnits found ++ ending)
  match t.bytes with
  | 0xff :: 0xfe :: rest => wide true rest
  | 0xfe :: 0xff :: rest => wide false rest
  | 0xef :: 0xbb :: 0xbf :: rest => decode 0 [] [] 3 (stepsOfRunes (Text.ofBytes rest))
  | _ => decode 0 [] [] 0 (stepsOfRunes t)

end Yaml

end Inkwell
