import Inkwell.Diagnostic
import Inkwell.Number.Basic
import Inkwell.Text.Letter

/-!
# From characters to tokens

The characters of a source are divided into tokens and what stands between them: blanks, comments,
and line breaks that separate nothing. A line break separates when an expression can end with the
token before it. A source ends at its first NUL character, if it has one.

A comment between two backquotes may span lines; a comment that starts with two backquotes ends
with its line.
-/

namespace Inkwell

/-- What is left of a source, and where that begins. -/
structure Cursor where
  rest : List Char
  position : Position := .start
deriving Inhabited

namespace Cursor

def skip (c : Cursor) (n : Nat) : Cursor :=
  ⟨c.rest.drop n, c.position.past (c.rest.take n)⟩

/-- The cursor at the first character that does not satisfy `p`. -/
def skipWhile (c : Cursor) (p : Char → Bool) : Cursor :=
  ⟨c.rest.dropWhile p, c.position.past (c.rest.takeWhile p)⟩

end Cursor

namespace Lexer

/-- The character that comments are written with. -/
def backquote : Char := '\x60'

def isSpace (c : Char) : Bool := c = ' ' || c = '\t' || c = '\r'

def startsName (c : Char) : Bool := c = '_' || Text.isLetter c

def isDigit (c : Char) : Bool := '0' ≤ c && c ≤ '9'

def continuesName (c : Char) : Bool := startsName c || isDigit c || c = '?' || c = '!'

/-- The cursor behind blanks and comments, and behind line breaks if they are blanks here. When a
comment does not end, the second component is the position it starts at. Every round but the last
passes a comment, so as many rounds as there are characters are enough. -/
def skipGap (lineBreaks : Bool) : Nat → Cursor → Cursor × Option Position
  | 0, c => (c, none)
  | rounds + 1, c =>
    let c := c.skipWhile fun x => isSpace x || (lineBreaks && x = '\n')
    match c.rest with
    | x :: y :: _ =>
      if x = backquote then
        if y = backquote then skipGap lineBreaks rounds (c.skipWhile (· ≠ '\n'))
        else
          let inner := (c.skip 1).skipWhile (· ≠ backquote)
          if inner.rest.isEmpty then (inner, some c.position)
          else skipGap lineBreaks rounds (inner.skip 1)
      else (c, none)
    | [x] => if x = backquote then (c.skip 1, some c.position) else (c, none)
    | [] => (c, none)

/-- The kind and the length of the punctuation that the characters start with. -/
def symbol? : List Char → Option (Kind × Nat)
  | ',' :: _ => some (.separator, 1)
  | ':' :: '=' :: _ => some (.define, 2)
  | ':' :: ':' :: _ => some (.choose, 2)
  | ':' :: _ => some (.colon, 1)
  | '-' :: '>' :: _ => some (.arrow, 2)
  | '-' :: _ => some (.minus, 1)
  | '=' :: '>' :: _ => some (.functionArrow, 2)
  | '=' :: _ => some (.equal, 1)
  | '.' :: _ => some (.dot, 1)
  | '+' :: _ => some (.plus, 1)
  | '*' :: _ => some (.star, 1)
  | '/' :: _ => some (.slash, 1)
  | '%' :: _ => some (.percent, 1)
  | '~' :: _ => some (.tilde, 1)
  | '>' :: _ => some (.greater, 1)
  | '<' :: _ => some (.less, 1)
  | '&' :: _ => some (.and, 1)
  | '|' :: _ => some (.or, 1)
  | '^' :: _ => some (.xor, 1)
  | '(' :: _ => some (.openParen, 1)
  | ')' :: _ => some (.closeParen, 1)
  | '[' :: _ => some (.openBracket, 1)
  | ']' :: _ => some (.closeBracket, 1)
  | '{' :: _ => some (.openBrace, 1)
  | '}' :: _ => some (.closeBrace, 1)
  | _ => none

/-- The character that one behind a backslash stands for. -/
def unescape (c : Char) : Char :=
  match c with
  | 'n' => '\n'
  | 't' => '\t'
  | 'r' => '\r'
  | c => c

structure StringBody where
  value : List Char
  /-- How many characters it takes, with the closing quote if there is one. -/
  length : Nat
  closed : Bool

/-- Reads a string literal behind its opening quote; `value` holds the characters read so far,
latest first, which took `length` characters. -/
def stringBody (value : List Char) (length : Nat) : List Char → StringBody
  | [] => ⟨value.reverse, length, false⟩
  | '\'' :: _ => ⟨value.reverse, length + 1, true⟩
  | ['\\'] => ⟨value.reverse, length + 1, false⟩
  | '\\' :: c :: rest => stringBody (unescape c :: value) (length + 2) rest
  | c :: rest => stringBody (c :: value) (length + 1) rest

/-- The digits of a number literal: those of the whole part, and those behind a point that has
digits behind it. There is no fraction behind an access dot, so that `a.0.1` takes two keys. -/
def numberDigits (fraction : Bool) (cs : List Char) : List Char × List Char :=
  let whole := cs.takeWhile isDigit
  match cs.dropWhile isDigit with
  | '.' :: rest => (whole, if fraction then rest.takeWhile isDigit else [])
  | _ => (whole, [])

def digitsValue (ds : List Char) : Nat := ds.foldl (fun n d => n * 10 + (d.toNat - 48)) 0

/-- The kind of a name: the two truth values and the wildcard have their own. -/
def nameKind (name : Text) : Kind :=
  if name = ("true" : Text) then .yes
  else if name = ("false" : Text) then .no
  else if name = ("_" : Text) then .wildcard
  else .name

/-- One token, what is left of the source, and the problems found on the way. -/
structure Step where
  token : Token
  rest : Cursor
  problems : List Diagnostic

/-- The token that starts at the cursor; `last` is the kind of the token before. -/
def tokenAt (last : Kind) (c : Cursor) : Step :=
  let position := c.position
  match c.rest with
  | [] => ⟨{ kind := .finish, position }, c, []⟩
  | '\n' :: _ => ⟨{ kind := .separator, lexeme := "\n", position }, c.skip 1, []⟩
  | '\'' :: rest =>
    let body := stringBody [] 0 rest
    let value := Text.ofChars body.value
    let token := { kind := .string, lexeme := "'" ++ value ++ "'", literal := some (.text value),
                   position }
    ⟨token, c.skip (body.length + 1),
      if body.closed then [] else [{ problem := .unterminatedString, position }]⟩
  | x :: rest =>
    match symbol? (x :: rest) with
    | some (kind, length) =>
      let lexeme := Text.ofChars ((x :: rest).take length)
      ⟨{ kind, lexeme, literal := some (.text lexeme), position }, c.skip length, []⟩
    | none =>
      if isDigit x then
        let (whole, places) := numberDigits (last ≠ .dot) (x :: rest)
        let digits := if places.isEmpty then whole else whole ++ '.' :: places
        let lexeme := Text.ofChars digits
        let value := Number.ofDecimal false (digitsValue (whole ++ places)) (-places.length)
        ⟨{ kind := .number, lexeme, literal := some (.number value), position },
          c.skip digits.length,
          if value.isInfinite then [{ problem := .malformedNumber lexeme, position }] else []⟩
      else if startsName x then
        let characters := (x :: rest).takeWhile continuesName
        let lexeme := Text.ofChars characters
        ⟨{ kind := nameKind lexeme, lexeme, literal := some (.text lexeme), position },
          c.skip characters.length, []⟩
      else
        ⟨{ kind := .illegal, lexeme := Text.ofChar x, position }, c.skip 1,
          [{ problem := .unexpectedCharacter x, position }]⟩

/-- The next token behind blanks and comments, of which there are fewer than `rounds`. -/
def next (last : Kind) (rounds : Nat) (c : Cursor) : Step :=
  let (start, unclosed) := skipGap (!last.endsExpression) rounds c
  let step := tokenAt last start
  match unclosed with
  | some position =>
    { step with problems := { problem := .unterminatedComment, position } :: step.problems }
  | none => step

structure Tokens where
  tokens : List Token
  problems : List Diagnostic
deriving Inhabited

/-- The tokens from the cursor on, behind the tokens and problems found so far, latest first. A
separator directly behind a separator is dropped. Every token but the last takes a character, so
one more round than there are characters is enough. -/
def tokensFrom (tokens : List Token) (problems : List Diagnostic) (last : Kind) :
    Nat → Cursor → Tokens
  | 0, _ => ⟨tokens.reverse, problems.reverse⟩
  | rounds + 1, c =>
    let step := next last (rounds + 1) c
    let problems := step.problems.reverse ++ problems
    let repeated := step.token.kind = .separator && (tokens.head?.any (·.kind = .separator))
    let tokens := if repeated then tokens else step.token :: tokens
    if step.token.kind = .finish then ⟨tokens.reverse, problems.reverse⟩
    else tokensFrom tokens problems step.token.kind rounds step.rest

end Lexer

def Token.scan (source : Text) : Lexer.Tokens :=
  let characters := source.chars.takeWhile (· ≠ '\x00')
  Lexer.tokensFrom [] [] .illegal (characters.length + 1) { rest := characters }

end Inkwell
