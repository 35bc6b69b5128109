import Inkwell.Token.Basic

/-!
# Diagnostics

What can be wrong with a program, each with the code it is reported under and its wording. The
letter of a code names the stage that found the problem: L for tokens, P for expressions, A for
names, C for code and R for a run.
-/

namespace Inkwell

inductive Problem where
  | unexpectedCharacter (c : Char)
  | unterminatedString
  | unterminatedComment
  | malformedNumber (lexeme : Text)
  | expected (kind : Kind) (found : Token)
  | unexpected (found : Token)
  /-- An expression is complete, and this token neither ends nor continues it. -/
  | unexpectedAfter (found : Token)
  | wildcardKey
  | missingTokens
  | invalidParameter (spelling : Text)
  | tooDeep
  | undefinedName (name : Text)
  | invalidTarget (spelling : Text)
  | surplusArguments (function : Text) (parameters arguments : Nat)
  | unknownOperator (operator : Text)
  | tooManyRegisters (unit : Text) (needed limit : Nat)
  | failure (message : Text)
deriving Inhabited

namespace Problem

def code : Problem → String
  | unexpectedCharacter _ => "L001"
  | unterminatedString | unterminatedComment => "L002"
  | malformedNumber _ => "L003"
  | expected _ found | unexpected found => if found.kind = .finish then "P002" else "P001"
  | unexpectedAfter _ | wildcardKey => "P001"
  | missingTokens => "P002"
  | invalidParameter _ => "P003"
  | tooDeep => "P004"
  | undefinedName _ => "A001"
  | invalidTarget _ => "A002"
  | surplusArguments .. => "C001"
  | unknownOperator _ => "C002"
  | tooManyRegisters .. => "C003"
  | failure _ => "R001"

def message : Problem → Text
  | unexpectedCharacter c => "unexpected character " ++ Text.quotedChar c
  | unterminatedString => "unterminated string literal"
  | unterminatedComment => "unterminated comment"
  | malformedNumber lexeme => "malformed number " ++ lexeme.quoted
  | expected kind found =>
    if found.kind = .finish then "unexpected end of input, expected " ++ kind.label
    else "expected " ++ kind.label ++ ", got " ++ found.describe
  | unexpected found =>
    if found.kind = .finish then "unexpected end of input" else "unexpected " ++ found.describe
  | unexpectedAfter found => "unexpected " ++ found.describe ++ " after expression"
  | wildcardKey => "'_' is not a valid object key"
  | missingTokens => "parser: token stream is nil"
  | invalidParameter spelling => "invalid parameter " ++ spelling
  | tooDeep => "expression too complex: recursion depth limit exceeded"
  | undefinedName name => "undefined name " ++ name.quoted
  | invalidTarget spelling => "invalid assignment target " ++ spelling
  | surplusArguments function parameters arguments =>
    function ++ " takes " ++ Text.ofNat parameters ++ " argument(s), called with "
      ++ Text.ofNat arguments
  | unknownOperator operator => "unknown operator " ++ operator
  | tooManyRegisters unit needed limit =>
    unit ++ " needs " ++ Text.ofNat needed ++ " registers (limit " ++ Text.ofNat limit ++ ")"
  | failure message => message

end Problem

structure Diagnostic where
  problem : Problem
  position : Position := {}
  file : Text := ""
deriving Inhabited

namespace Diagnostic

def inFile (file : Text) (d : Diagnostic) : Diagnostic :=
  if d.file.isEmpty then { d with file := file } else d

def isBeforeRun (d : Diagnostic) : Bool := d.problem.code ≠ "R001"

/-- The diagnostic as one line: file, position unless there is none, code and message. -/
def render (d : Diagnostic) : Text :=
  let file : Text := if d.file.isEmpty then "<input>" else d.file
  let place : Text := if d.position.line = 0 then file else file ++ ":" ++ d.position.render
  place ++ ": error [" ++ d.problem.code ++ "]: " ++ d.problem.message

end Diagnostic

end Inkwell
