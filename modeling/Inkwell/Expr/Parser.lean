import Inkwell.Diagnostic
import Inkwell.Expr.Printer

/-!
# From tokens to expressions

Operators are read by precedence: a step reads one operand and then, as long as the next operator
binds tighter than the precedence asked for, that operator and its right operand. Every form is read
by a function of its own, which gets the reader of the expressions inside it as the argument `sub`.
The reader of expressions allows one level of nesting less for those inside it, so reading ends.

A problem ends the expression it is found in. Reading goes on behind the next separator that is not
inside brackets.
-/

namespace Inkwell

/-- The result of reading: what was read and the tokens behind it, or a problem and the tokens from
the one it was found at. -/
inductive Parsed (α : Type) where
  | ok (value : α) (rest : List Token)
  | failed (problem : Diagnostic) (rest : List Token)

/-- A reader of a list of tokens, of which the last is the end of the program. -/
def Parser (α : Type) := List Token → Parsed α

namespace Parser

@[inline] protected def pure {α : Type} (value : α) : Parser α := fun tokens => .ok value tokens

@[inline] protected def bind {α β : Type} (first : Parser α) (second : α → Parser β) : Parser β :=
  fun tokens =>
    match first tokens with
    | .ok value rest => second value rest
    | .failed problem rest => .failed problem rest

instance : Monad Parser where
  pure := Parser.pure
  bind := Parser.bind

@[inline] def peek : Parser Token := fun tokens => .ok (tokens.headD .missingEnd) tokens

@[inline] def take : Parser Token := fun tokens => .ok (tokens.headD .missingEnd) tokens.tail

@[inline] def fail {α : Type} (problem : Problem) (token : Token) : Parser α :=
  fun tokens => .failed { problem, position := token.position } tokens

def expect (kind : Kind) : Parser Token := do
  let token ← peek
  if token.kind = kind then take else fail (.expected kind token) token

def skipSeparators : Parser Unit := fun tokens =>
  .ok () (tokens.dropWhile fun t => t.kind = .separator)

/-! ## Precedences -/

def lowest : Nat := 1

def negation : Nat := 11

/-- The precedence of the key of an object entry, which binds tighter than every operator. -/
def entryKey : Nat := 11

/-- How tight an operator binds; any other token binds nothing. -/
def precedence : Kind → Nat
  | .define => 2
  | .choose => 3
  | .or => 4
  | .xor => 5
  | .and => 6
  | .greater | .less | .equal => 7
  | .plus | .minus => 8
  | .star | .slash => 9
  | .percent => 10
  | .openParen | .dot => 12
  | _ => lowest

def maxDepth : Nat := 1000

/-! ## Atoms -/

def numberOf (t : Token) : Number :=
  match t.literal with
  | some (.number n) => n
  | _ => ⟨0⟩

def textOf (t : Token) : Text :=
  match t.literal with
  | some (.text s) => s
  | _ => ""

section Forms

variable (limit : Nat) (sub : Nat → Parser Expr)

/-! ## Functions and groups -/

def functionBody (parameters : List Parameter) : Parser Expr := do
  let arrow ← take
  let body ← sub lowest
  return .function arrow "" parameters body

/-- Reads expressions with separators between them up to a token of the kind `close`, behind the
expressions `items`, latest first. Every round takes a token, so `limit` rounds are enough for a
list of that many tokens. -/
def itemsUpTo (close : Kind) (items : List Expr) : Nat → Parser (List Expr)
  | 0 => do
    let token ← peek
    fail (.unexpected token) token
  | rounds + 1 => do
    skipSeparators
    if (← peek).kind = close then
      let _ ← take
      return items.reverse
    let item ← sub lowest
    let token ← peek
    if token.kind = .separator || token.kind = close then
      itemsUpTo close (item :: items) rounds
    else fail (.expected close token) token

def parameters (found : List Parameter) : List Expr → Parser (List Parameter)
  | [] => pure found.reverse
  | .name token :: rest => parameters (⟨token, token.lexeme⟩ :: found) rest
  | .empty token :: rest => parameters (⟨token, "_"⟩ :: found) rest
  | e :: _ => fail (.invalidParameter e.render) e.token

/-- Reads a form in parentheses: the empty value, a group, or a function with the parameters in
them. -/
def group : Parser Expr := do
  let opening ← take
  skipSeparators
  if (← peek).kind = .closeParen then
    let _ ← take
    if (← peek).kind = .functionArrow then functionBody sub [] else return .empty opening
  else
    let items ← itemsUpTo sub .closeParen [] limit
    if (← peek).kind = .functionArrow then
      let ps ← parameters [] items
      functionBody sub ps
    else return .group opening items

/-! ## Objects and choices -/

/-- Reads the key of an object entry; a name stands for its own text. -/
def key : Parser Expr := do
  let token ← peek
  match token.kind with
  | .name =>
    let _ ← take
    return .string token token.lexeme
  | .wildcard => fail .wildcardKey token
  | _ => sub entryKey

/-- Reads entries up to the closing brace, behind the entries `found`, latest first. -/
def entriesUpTo (found : List Entry) : Nat → Parser (List Entry)
  | 0 => do
    let token ← peek
    fail (.unexpected token) token
  | rounds + 1 => do
    skipSeparators
    if (← peek).kind = .closeBrace then
      let _ ← take
      return found.reverse
    let k ← key sub
    let _ ← expect .colon
    let value ← sub lowest
    let token ← peek
    if token.kind = .separator || token.kind = .closeBrace then
      entriesUpTo (.mk k value :: found) rounds
    else fail (.expected .closeBrace token) token

/-- Whether the next two tokens are the pattern that matches everything and its arrow. -/
def startsOtherwise : Parser Bool := fun tokens =>
  match tokens with
  | t :: u :: _ => .ok (t.kind = .wildcard && u.kind = .arrow) tokens
  | _ => .ok false tokens

def arm : Parser Arm := do
  if ← startsOtherwise then
    let _ ← take
    let arrow ← expect .arrow
    let body ← sub lowest
    return .otherwise arrow body
  else
    let pattern ← sub lowest
    let arrow ← expect .arrow
    let body ← sub lowest
    return .case arrow pattern body

/-- Reads arms up to the closing brace, behind the arms `found`, latest first. -/
def armsUpTo (found : List Arm) : Nat → Parser (List Arm)
  | 0 => do
    let token ← peek
    fail (.unexpected token) token
  | rounds + 1 => do
    skipSeparators
    if (← peek).kind = .closeBrace then
      let _ ← take
      return found.reverse
    let a ← arm sub
    let token ← peek
    if token.kind = .separator || token.kind = .closeBrace then
      armsUpTo (a :: found) rounds
    else fail (.expected .closeBrace token) token

/-! ## Operands and operators -/

def operand : Parser Expr := do
  let token ← peek
  match token.kind with
  | .name =>
    let _ ← take
    if (← peek).kind = .functionArrow then functionBody sub [⟨token, token.lexeme⟩]
    else return .name token
  | .wildcard =>
    let _ ← take
    if (← peek).kind = .functionArrow then functionBody sub [⟨token, "_"⟩]
    else return .empty token
  | .number =>
    let _ ← take
    return .number token (numberOf token)
  | .string =>
    let _ ← take
    return .string token (textOf token)
  | .yes | .no =>
    let _ ← take
    return .boolean token (token.kind = .yes)
  | .tilde =>
    let _ ← take
    return .negate token (← sub negation)
  | .openParen => group limit sub
  | .openBracket =>
    let _ ← take
    return .list token (← itemsUpTo sub .closeBracket [] limit)
  | .openBrace =>
    let _ ← take
    return .object token (← entriesUpTo sub [] limit)
  | _ => fail (.unexpected token) token

/-- The value with the name it is defined under, if it is a function defined under a name. -/
def named (target value : Expr) : Expr :=
  match target, value with
  | .name token, .function arrow _ ps body => .function arrow token.lexeme ps body
  | _, _ => value

def accessKey : Parser Expr := do
  let token ← peek
  match token.kind with
  | .name =>
    let _ ← take
    return .string token token.lexeme
  | .number =>
    let _ ← take
    return .number token (numberOf token)
  | .string =>
    let _ ← take
    return .string token (textOf token)
  | .openParen => group limit sub
  | _ => fail (.unexpected token) token

/-- Reads an operator and what follows it, for the operand `left` before it. -/
def operation (left : Expr) : Parser Expr := do
  let token ← take
  match token.kind with
  | .define =>
    let value ← sub lowest
    return .define token left (named left value)
  | .choose =>
    let _ ← expect .openBrace
    return .choose token left (← armsUpTo sub [] limit)
  | .openParen => return .call token left (← itemsUpTo sub .closeParen [] limit)
  | .dot => return .access token left (← accessKey limit sub)
  | kind => return .binary token left (← sub (precedence kind))

/-- Reads operators that bind tighter than `least`, with what follows them, behind the operand
`left`. -/
def operations (least : Nat) (left : Expr) : Nat → Parser Expr
  | 0 => return left
  | rounds + 1 => do
    if least < precedence (← peek).kind then
      let e ← operation limit sub left
      operations least e rounds
    else return left

end Forms

/-- Reads an expression whose operators bind tighter than `least`, with at most `depth` expressions
inside one another. -/
def expression (limit : Nat) : Nat → Nat → Parser Expr
  | 0, _ => do
    let token ← peek
    fail .tooDeep token
  | depth + 1, least => do
    let left ← operand limit (expression limit depth)
    operations limit (expression limit depth) least left limit

/-! ## Programs -/

/-- The tokens behind the next separator outside brackets; `depth` brackets are open. -/
def resume (depth : Nat) : List Token → List Token
  | [] => []
  | t :: rest =>
    match t.kind with
    | .finish => t :: rest
    | .openParen | .openBracket | .openBrace => resume (depth + 1) rest
    | .closeParen | .closeBracket | .closeBrace => resume (depth - 1) rest
    | .separator => if depth = 0 then rest else resume depth rest
    | _ => resume depth rest

/-- Reads the expressions of a program up to its end, behind the expressions and problems found so
far, latest first. -/
def itemsFrom (limit : Nat) (items : List Expr) (problems : List Diagnostic) :
    Nat → List Token → List Expr × List Diagnostic
  | 0, _ => (items.reverse, problems.reverse)
  | rounds + 1, tokens =>
    let token := tokens.headD .missingEnd
    if token.kind = .finish then (items.reverse, problems.reverse)
    else if token.kind = .separator then itemsFrom limit items problems rounds tokens.tail
    else
      match expression limit maxDepth lowest tokens with
      | .ok item rest =>
        let next := rest.headD .missingEnd
        if next.kind = .separator || next.kind = .finish then
          itemsFrom limit (item :: items) problems rounds rest
        else
          let problem := { problem := .unexpectedAfter next, position := next.position }
          itemsFrom limit (item :: items) (problem :: problems) rounds (resume 0 rest)
      | .failed problem rest => itemsFrom limit items (problem :: problems) rounds (resume 0 rest)

/-- A list of tokens that ends with the end of a program. -/
def completed (tokens : List Token) : List Token :=
  if tokens.getLast?.any (·.kind = .finish) then tokens else tokens ++ [.missingEnd]

end Parser

def Script.parse (file : Text) (tokens : List Token) : Script × List Diagnostic :=
  let tokens := Token.numbered (Parser.completed tokens)
  let limit := tokens.length
  let (items, problems) := Parser.itemsFrom limit [] [] (limit + 1) tokens
  (⟨tokens.headD .missingEnd, file, items⟩, problems)

end Inkwell
