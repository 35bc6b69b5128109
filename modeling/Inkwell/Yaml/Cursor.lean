import Inkwell.Text.Rune

/-!
# Places in a configuration document

What follows at a place, and where it is. A line ends with a line feed, a carriage return, both, or
one of the three other line breaks of Unicode; the first kinds all count as a line feed.
-/

namespace Inkwell

namespace Yaml

/-- A place in a document: what follows, the number of characters in front, the line and the column.
All count from zero. -/
structure Cursor where
  rest : List Char
  index : Nat := 0
  line : Nat := 0
  column : Nat := 0
deriving Inhabited

/-! ## Kinds of characters -/

def isBlank (c : Char) : Bool := c = ' ' || c = '\t'

def isBreak (c : Char) : Bool :=
  c = '\n' || c = '\r' || c = '\u0085' || c = '\u2028' || c = '\u2029'

/-- Whether a character may stand in the name of an anchor, a handle or a directive. -/
def isWordChar (c : Char) : Bool := c.isAlphanum || c = '_' || c = '-'

def atLineEnd : List Char → Bool
  | [] => true
  | c :: _ => isBreak c

/-- Whether a blank, a line break or the end follows. -/
def atGap : List Char → Bool
  | [] => true
  | c :: _ => isBlank c || isBreak c

def startsWith (c : Char) (cs : List Char) : Bool := cs.head? = some c

def startsDocument (cs : List Char) : Bool := cs.take 3 = ['-', '-', '-'] && atGap (cs.drop 3)

def endsDocument (cs : List Char) : Bool := cs.take 3 = ['.', '.', '.'] && atGap (cs.drop 3)

namespace Cursor

/-! ## Moving on -/

/-- The place some characters further on the line. -/
def advance (c : Cursor) (n : Nat) : Cursor :=
  { c with rest := c.rest.drop n, index := c.index + n, column := c.column + n }

def skip (c : Cursor) : Cursor :=
  match c.rest with
  | [] => c
  | _ :: rest => { c with rest, index := c.index + 1, column := c.column + 1 }

def skipWhile (c : Cursor) (kind : Char → Bool) : Cursor :=
  c.advance (c.rest.takeWhile kind).length

def skipToLineEnd (c : Cursor) : Cursor := c.skipWhile (!isBreak ·)

/-- What the line break that follows counts as, if there is one, and the place behind it. -/
def takeBreak (c : Cursor) : List Char × Cursor :=
  let behind (rest : List Char) (width : Nat) : Cursor :=
    { rest, index := c.index + width, line := c.line + 1, column := 0 }
  match c.rest with
  | '\r' :: '\n' :: rest => (['\n'], behind rest 2)
  | b :: rest =>
    if b = '\n' || b = '\r' || b = '\u0085' then (['\n'], behind rest 1)
    else if isBreak b then ([b], behind rest 1)
    else ([], c)
  | [] => ([], c)

def skipBreak (c : Cursor) : Cursor := c.takeBreak.2

/-- Whether a mark of a document stands here, at the start of a line. -/
def isAtMark (c : Cursor) : Bool :=
  c.column = 0 && (startsDocument c.rest || endsDocument c.rest)

end Cursor

end Yaml

end Inkwell
