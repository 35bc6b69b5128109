import Inkwell.Scope.Basic

/-!
# A survey of names and units

All uses of names and all units of a program in the order they stand in the source, for tools that
show what a program's names refer to.
-/

namespace Inkwell

structure UnitSite where
  unit : CodeUnit
  name : Text
  position : Position

/-- The names and units met so far, latest first. -/
structure Survey where
  names : List (Text × Token) := []
  units : List UnitSite := []

namespace Survey

def addName (s : Survey) (name : Text) (token : Token) : Survey :=
  { s with names := (name, token) :: s.names }

def addUnit (s : Survey) (unit : CodeUnit) (name : Text) (token : Token) : Survey :=
  { s with units := ⟨unit, name, token.position⟩ :: s.units }

mutual

def expr : Expr → Survey → Survey
  | .number .., s | .string .., s | .boolean .., s | .empty .., s => s
  | .name token, s => s.addName token.lexeme token
  | .negate _ operand, s => expr operand s
  | .binary _ left right, s => expr right (expr left s)
  | .define _ target value, s => expr value (expr target s)
  | .access _ container key, s => expr key (expr container s)
  | .call _ callee arguments, s => items arguments (expr callee s)
  | .choose _ subject cases, s => arms cases (expr subject s)
  | .group _ inner, s | .list _ inner, s => items inner s
  | .object _ inner, s => entries inner s
  | .function token name parameters body, s =>
    let s := s.addUnit (.function token.index) name token
    expr body (parameters.foldl (fun s p => s.addName p.name p.token) s)

def items : List Expr → Survey → Survey
  | [], s => s
  | e :: rest, s => items rest (expr e s)

def arms : List Arm → Survey → Survey
  | [], s => s
  | .case token pattern body :: rest, s =>
    arms rest (expr body ((expr pattern s).addUnit (.arm token.index) "" token))
  | .otherwise token body :: rest, s =>
    arms rest (expr body (s.addUnit (.arm token.index) "" token))

def entries : List Entry → Survey → Survey
  | [], s => s
  | .mk key value :: rest, s => entries rest (expr value (expr key s))

end

end Survey

def Script.survey (script : Script) : Survey :=
  let s := Survey.items script.items (({} : Survey).addUnit .program "" script.token)
  ⟨s.names.reverse, s.units.reverse⟩

end Inkwell
