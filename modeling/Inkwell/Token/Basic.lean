import Inkwell.Number.Basic
import Inkwell.Text.Quoted

/-!
# Tokens

The smallest units of a program: each has a kind, the text it stands for, the literal it carries if
it carries one, and the position of its first character.
-/

namespace Inkwell

/-- A place in a source: lines and columns count from one, and a column counts characters. The
position `0:0` stands for no place. -/
structure Position where
  line : Int := 0
  column : Int := 0
deriving DecidableEq, Inhabited

namespace Position

def start : Position := ⟨1, 1⟩

def next (p : Position) (c : Char) : Position :=
  if c = '\n' then ⟨p.line + 1, 1⟩ else ⟨p.line, p.column + 1⟩

def past (p : Position) (cs : List Char) : Position := cs.foldl next p

def render (p : Position) : Text := Text.ofInt p.line ++ ":" ++ Text.ofInt p.column

end Position

/-- What a token is. The kind `other` is a kind this language has no use for. -/
inductive Kind where
  | illegal
  | finish
  | separator
  | name
  | wildcard
  | number
  | string
  | yes
  | no
  | dot
  | colon
  | define
  | choose
  | arrow
  | functionArrow
  | plus
  | minus
  | star
  | slash
  | percent
  | tilde
  | greater
  | less
  | equal
  | and
  | or
  | xor
  | openParen
  | closeParen
  | openBracket
  | closeBracket
  | openBrace
  | closeBrace
  | other (label : Text)
deriving DecidableEq, Inhabited

namespace Kind

def known : List Kind :=
  [.illegal, .finish, .separator, .name, .wildcard, .number, .string, .yes, .no, .dot, .colon,
    .define, .choose, .arrow, .functionArrow, .plus, .minus, .star, .slash, .percent, .tilde,
    .greater, .less, .equal, .and, .or, .xor, .openParen, .closeParen, .openBracket, .closeBracket,
    .openBrace, .closeBrace]

def label : Kind → Text
  | illegal => "ILLEGAL"
  | finish => "EOF"
  | separator => "SEPARATOR"
  | name => "IDENT"
  | wildcard => "_"
  | number => "NUMBER"
  | string => "STRING"
  | yes => "true"
  | no => "false"
  | dot => "."
  | colon => ":"
  | define => ":="
  | choose => "::"
  | arrow => "->"
  | functionArrow => "=>"
  | plus => "+"
  | minus => "-"
  | star => "*"
  | slash => "/"
  | percent => "%"
  | tilde => "~"
  | greater => ">"
  | less => "<"
  | equal => "="
  | and => "&"
  | or => "|"
  | xor => "^"
  | openParen => "("
  | closeParen => ")"
  | openBracket => "["
  | closeBracket => "]"
  | openBrace => "\x7b"
  | closeBrace => "\x7d"
  | other label => label

def ofLabel (label : Text) : Kind := (known.find? (·.label == label)).getD (.other label)

/-- Whether an expression can end with a token of this kind, so that a line break behind it
separates. -/
def endsExpression : Kind → Bool
  | name | wildcard | number | string | yes | no | closeParen | closeBracket | closeBrace => true
  | _ => false

end Kind

inductive Literal where
  | number (value : Number)
  | text (value : Text)
deriving DecidableEq, Inhabited

/-- A token of a program. Its index is its place in the list of tokens, once the list is complete;
it tells apart tokens that agree in everything else. -/
structure Token where
  kind : Kind
  lexeme : Text := ""
  literal : Option Literal := none
  position : Position := {}
  index : Nat := 0
deriving DecidableEq, Inhabited

namespace Token

/-- The token that stands behind a list of tokens without an end. -/
def missingEnd : Token := { kind := .finish }

/-- The tokens of a list, each with its place in the list as its index. -/
def numbered (tokens : List Token) : List Token :=
  tokens.mapIdx fun i t => { t with index := i }

def render (t : Token) : Text :=
  t.kind.label ++ "(" ++ t.lexeme.quoted ++ ") at " ++ t.position.render

def describe (t : Token) : Text :=
  match t.kind with
  | .finish => "end of input"
  | .separator => if t.lexeme = ("\n" : Text) then "newline" else "','"
  | _ => "'" ++ t.lexeme ++ "'"

end Token

end Inkwell
