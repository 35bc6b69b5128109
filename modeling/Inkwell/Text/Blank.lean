import Inkwell.Text.Rune

/-!
# Blanks

The characters with the Unicode property White_Space, and texts without blanks at their ends.
-/

namespace Inkwell.Text

/-- Whether a character is white space of any script. -/
def isBlank (c : Char) : Bool :=
  let n := c.toNat
  (0x09 ≤ n && n ≤ 0x0d) || n == 0x20 || n == 0x85 || n == 0xa0 || n == 0x1680 ||
    (0x2000 ≤ n && n ≤ 0x200a) || n == 0x2028 || n == 0x2029 || n == 0x202f || n == 0x205f ||
    n == 0x3000

def isBlankRune : Rune → Bool
  | .char c => isBlank c
  | .stray _ => false

def trim (t : Text) : Text :=
  let inner := (t.runes.dropWhile isBlankRune).reverse.dropWhile isBlankRune
  ofBytes (inner.reverse.flatMap Rune.bytes)

end Inkwell.Text
