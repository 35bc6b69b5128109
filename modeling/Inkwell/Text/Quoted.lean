import Inkwell.Text.Rune
import Inkwell.Text.Printable

/-!
# Quoted text

A text between quotes in which every rune can be told apart: the quote and the backslash are written
after a backslash, printable characters as they are, the seven classic control characters by a
letter, other characters by their code in hexadecimal, and a stray byte by its two digits.
-/

namespace Inkwell.Text.Quoted

/-- The letter that names one of the classic control characters. -/
def controlLetter? (c : Char) : Option Char :=
  match c.toNat with
  | 7 => some 'a'
  | 8 => some 'b'
  | 9 => some 't'
  | 10 => some 'n'
  | 11 => some 'v'
  | 12 => some 'f'
  | 13 => some 'r'
  | _ => none

def character (quote c : Char) : Text :=
  if c = quote || c = '\\' then ofChars ['\\', c]
  else if isPrintable c then ofChar c
  else
    match controlLetter? c with
    | some letter => ofChars ['\\', letter]
    | none =>
      if c.toNat < 0x80 then "\\x" ++ hexNat 2 c.toNat
      else if c.toNat < 0x10000 then "\\u" ++ hexNat 4 c.toNat
      else "\\U" ++ hexNat 8 c.toNat

def rune (quote : Char) : Rune → Text
  | .char c => character quote c
  | .stray b => "\\x" ++ hexNat 2 b.toNat

end Quoted

def quoted (t : Text) : Text :=
  "\"" ++ concat (t.runes.map (Quoted.rune '"')) ++ "\""

def quotedChar (c : Char) : Text :=
  "'" ++ Quoted.character '\'' c ++ "'"

end Inkwell.Text
