import Inkwell.Expr.Parser
import Inkwell.Scope.Resolve
import Inkwell.Token.Lexer

/-!
# Reading a program

From source text to an expression tree with resolved names. Every stage reports all problems it
finds. Expressions are read even from tokens with problems; names are only resolved in a program
without any.
-/

namespace Inkwell

structure Reading where
  file : Text := ""
  source : Text := ""
  script : Option Script := none
  resolution : Resolution := {}
  problems : List Diagnostic := []
deriving Inhabited

namespace Reading

def isClean (r : Reading) : Bool := r.script.isSome && r.problems.isEmpty

def ofTokens (file : Text) (found : List Diagnostic) (tokens : List Token) : Reading :=
  let (script, problems) := Script.parse file tokens
  { file, script := some script, problems := (found ++ problems).map (·.inFile file) }

def withoutTokens (file : Text) : Reading :=
  { file, problems := [({ problem := .missingTokens } : Diagnostic).inFile file] }

def ofSource (file source : Text) : Reading :=
  let scanned := Token.scan source
  { ofTokens file scanned.problems scanned.tokens with source }

def resolve (globals : Text → Bool) (r : Reading) : Reading :=
  match r.script with
  | some script =>
    if r.problems.isEmpty then
      let (resolution, problems) := script.resolve globals
      { r with resolution, problems := problems.map (·.inFile r.file) }
    else r
  | none => r

/-- Whether a text may be the beginning of a longer program: a string or comment is open in it, or
its end came too early. -/
def isIncomplete (source : Text) : Bool :=
  let scanned := Token.scan source
  scanned.problems.any (·.problem.code == "L002") ||
    (Script.parse "" scanned.tokens).2.any (·.problem.code == "P002")

end Reading

end Inkwell
