import Inkwell.Diagnostic
import Inkwell.Expr.Printer
import Inkwell.Scope.Basic

/-!
# What names refer to

A scope is opened by the program, by every function and by every group. A name used directly in a
function refers to the nearest declaration before it; the body of a function inside is looked at
after everything around it, so a name used there may also refer to a later declaration of an
enclosing function. A definition declares its target in the innermost scope, unless that scope has
declared the name already, after its value has been looked at.

A group that is the body of an arm is a scope of the arm. Any other body of an arm declares its
names in the scope around the choice.
-/

namespace Inkwell

namespace Resolve

/-- A scope: the names it has declared, the scope around it, and the unit that holds them. -/
structure Scope where
  names : Std.HashMap Text Nat := {}
  parent : Option Nat
  unit : CodeUnit
deriving Inhabited

/-- A function whose body is still to be looked at, with the scope it stands in. -/
structure Pending where
  index : Nat
  parameters : List Parameter
  body : Expr
  scope : Nat
deriving Inhabited

/-- What has been found out so far; the latest problem and the latest pending function come
first. -/
structure State where
  resolution : Resolution := {}
  scopes : Array Scope := #[]
  problems : List Diagnostic := []
  pending : List Pending := []
deriving Inhabited

namespace State

def openScope (st : State) (parent : Option Nat) (unit : CodeUnit) : State :=
  { st with scopes := st.scopes.push { parent, unit } }

def unitOf (st : State) (scope : Nat) : CodeUnit := (st.scopes[scope]?.getD default).unit

/-- The nearest declaration of a name from a scope outward; a scope comes behind the scope around
it, so one more round than the scope's place is enough. -/
def lookup? (st : State) (name : Text) : Nat → Nat → Option Nat
  | 0, _ => none
  | rounds + 1, scope =>
    match st.scopes[scope]? with
    | none => none
    | some s =>
      match s.names[name]? with
      | some b => some b
      | none => s.parent.bind fun parent => lookup? st name rounds parent

def declared? (st : State) (scope : Nat) (name : Text) : Option Nat :=
  st.scopes[scope]?.bind fun s => s.names[name]?

def refer (st : State) (token : Token) (reference : Reference) : State :=
  { st with resolution.references := st.resolution.references.insert token.index reference }

def declare (st : State) (scope : Nat) (name : Text) (token : Token) (parameter : Option Nat) :
    State :=
  let binding : Binding := { name, owner := st.unitOf scope, parameter }
  let place := st.resolution.bindings.size
  let st := { st with
    resolution.bindings := st.resolution.bindings.push binding
    scopes := st.scopes.modify scope fun s => { s with names := s.names.insert name place } }
  st.refer token (.binding place)

def report (st : State) (problem : Problem) (token : Token) : State :=
  { st with problems := { problem, position := token.position } :: st.problems }

def define (st : State) (scope : Nat) (token : Token) (value : Expr) : State :=
  let st :=
    match st.declared? scope token.lexeme with
    | some place => st.refer token (.binding place)
    | none => st.declare scope token.lexeme token none
  match st.declared? scope token.lexeme with
  | none => st
  | some place =>
    let update (b : Binding) : Binding :=
      let function :=
        match value with
        | .function _ name parameters _ =>
          if b.definitions = 0 && b.parameter.isNone then some (name, parameters.length) else none
        | _ => none
      { b with definitions := b.definitions + 1, function }
    { st with resolution.bindings := st.resolution.bindings.modify place update }

end State

variable (globals : Text → Bool)

def use (token : Token) (scope : Nat) (st : State) : State :=
  match st.lookup? token.lexeme (scope + 1) scope with
  | some place => st.refer token (.binding place)
  | none =>
    if globals token.lexeme then st.refer token .global
    else st.report (.undefinedName token.lexeme) token

mutual

/-- The state after an expression in a scope; the bodies of functions in it become pending. -/
def expr : Expr → Nat → State → State
  | .number .., _, st | .string .., _, st | .boolean .., _, st | .empty .., _, st => st
  | .name token, scope, st => use globals token scope st
  | .negate _ operand, scope, st => expr operand scope st
  | .binary _ left right, scope, st => expr right scope (expr left scope st)
  | .define token goal value, scope, st => target token value goal scope (expr value scope st)
  | .access _ container key, scope, st => expr key scope (expr container scope st)
  | .call _ function arguments, scope, st => items arguments scope (expr function scope st)
  | .choose _ subject cases, scope, st => arms cases scope (expr subject scope st)
  | .group _ inner, scope, st =>
    items inner st.scopes.size (st.openScope (some scope) (st.unitOf scope))
  | .list _ inner, scope, st => items inner scope st
  | .object _ inner, scope, st => entries inner scope st
  | .function token _ parameters body, scope, st =>
    { st with pending := ⟨token.index, parameters, body, scope⟩ :: st.pending }

/-- The state after the target of a definition, whose value has been looked at. -/
def target : Token → Expr → Expr → Nat → State → State
  | _, value, .name name, scope, st => st.define scope name value
  | token, _, .empty place, _, st =>
    if place.lexeme = ("_" : Text) then st else st.report (.invalidTarget "()") token
  | _, _, .access _ container key, scope, st => expr key scope (expr container scope st)
  | token, _, goal, _, st => st.report (.invalidTarget goal.render) token

def items : List Expr → Nat → State → State
  | [], _, st => st
  | e :: rest, scope, st => items rest scope (expr e scope st)

/-- The state after the arms of a choice. A group behind an arrow is a scope of the arm. -/
def arms : List Arm → Nat → State → State
  | [], _, st => st
  | .case token pattern (.group _ inner) :: rest, scope, st =>
    let st := expr pattern scope st
    arms rest scope
      (items inner st.scopes.size (st.openScope (some scope) (.arm token.index)))
  | .case _ pattern body :: rest, scope, st =>
    arms rest scope (expr body scope (expr pattern scope st))
  | .otherwise token (.group _ inner) :: rest, scope, st =>
    arms rest scope
      (items inner st.scopes.size (st.openScope (some scope) (.arm token.index)))
  | .otherwise _ body :: rest, scope, st => arms rest scope (expr body scope st)

def entries : List Entry → Nat → State → State
  | [], _, st => st
  | .mk key value :: rest, scope, st => entries rest scope (expr value scope (expr key scope st))

end

/-- The state after the parameters of a function, from the one at `place` on. -/
def declareParameters (scope : Nat) : Nat → List Parameter → State → State
  | _, [], st => st
  | place, p :: rest, st =>
    let st := if p.name = ("_" : Text) then st else st.declare scope p.name p.token (some place)
    declareParameters scope (place + 1) rest st

def body (p : Pending) (st : State) : State :=
  let scope := st.scopes.size
  let st := st.openScope (some p.scope) (.function p.index)
  expr globals p.body scope (declareParameters scope 0 p.parameters st)

/-- The state after the pending functions of one depth, which are given first to last. -/
def bodies : List Pending → State → State
  | [], st => st
  | p :: rest, st => bodies rest (body globals p st)

/-- The state after all pending functions, depth by depth. -/
def pendingBodies : Nat → State → State
  | 0, st => st
  | rounds + 1, st =>
    match st.pending with
    | [] => st
    | pending => pendingBodies rounds (bodies globals pending.reverse { st with pending := [] })

end Resolve

mutual

def Expr.functionDepth : Expr → Nat
  | .number .. | .string .. | .boolean .. | .empty .. | .name .. => 0
  | .negate _ operand => operand.functionDepth
  | .binary _ left right => max left.functionDepth right.functionDepth
  | .define _ target value => max target.functionDepth value.functionDepth
  | .access _ container key => max container.functionDepth key.functionDepth
  | .call _ callee arguments => max callee.functionDepth (Expr.functionDepthItems arguments)
  | .choose _ subject arms => max subject.functionDepth (Expr.functionDepthArms arms)
  | .group _ items | .list _ items => Expr.functionDepthItems items
  | .object _ entries => Expr.functionDepthEntries entries
  | .function _ _ _ body => body.functionDepth + 1

def Expr.functionDepthItems : List Expr → Nat
  | [] => 0
  | e :: rest => max e.functionDepth (Expr.functionDepthItems rest)

def Expr.functionDepthArms : List Arm → Nat
  | [] => 0
  | .case _ pattern body :: rest =>
    max (max pattern.functionDepth body.functionDepth) (Expr.functionDepthArms rest)
  | .otherwise _ body :: rest => max body.functionDepth (Expr.functionDepthArms rest)

def Expr.functionDepthEntries : List Entry → Nat
  | [] => 0
  | .mk key value :: rest =>
    max (max key.functionDepth value.functionDepth) (Expr.functionDepthEntries rest)

end

/-- What the names of a program refer to, and the problems found; `globals` are the names that need
no declaration. -/
def Script.resolve (globals : Text → Bool) (script : Script) : Resolution × List Diagnostic :=
  let start := ({} : Resolve.State).openScope none .program
  let st := Resolve.items globals script.items 0 start
  let st := Resolve.pendingBodies globals (Expr.functionDepthItems script.items + 1) st
  (st.resolution, st.problems.reverse)

end Inkwell
