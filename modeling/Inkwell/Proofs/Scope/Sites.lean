import Mathlib.Data.List.Flatten
import Mathlib.Tactic.Common
import Inkwell.Scope.Resolve

/-!
# Lexical scoping

The rule for what a name means, said about the source alone. A traversal of a program meets its scopes
and the names in them: the parts of an expression from left to right, the value of a definition before
its target, and the body of a function where the function stands. `Site.declaration?` gives the
declaration a name refers to. Within its own function a name sees the declarations met before it; of
the functions around it sees all of them.

The names inside a target that cannot be assigned to are not met.
-/

namespace Inkwell

namespace Lexical

/-- What opens a scope. The names declared in a group are held by a unit, the arm whose body the group
is or the unit around it. -/
inductive Opening where
  | program
  | function (index : Nat)
  | group (index : Nat) (unit : CodeUnit)
deriving DecidableEq

/-- A scope: what opens it, and the openings of the scopes around it, innermost first. -/
abbrev Path := List Opening

namespace Path

/-- The unit that holds the names declared in a scope. -/
def unit : Path → CodeUnit
  | .function index :: _ => .function index
  | .group _ unit :: _ => unit
  | _ => .program

/-- The number of functions that a scope is inside of. -/
def depth : Path → Nat
  | [] => 0
  | .function _ :: outer => depth outer + 1
  | _ :: outer => depth outer

/-- A scope and the scopes around it, innermost first. -/
def scopes : Path → List Path
  | [] => []
  | opening :: outer => (opening :: outer) :: scopes outer

end Path

/-- What a name does where it stands. -/
inductive Role where
  | use
  /-- It is what a definition assigns to. -/
  | target
  /-- It is the parameter at a place of the parameter list. -/
  | parameter (place : Nat)
deriving DecidableEq

/-- A name in the source, with the innermost scope that it stands in. -/
structure Site where
  token : Token
  name : Text
  role : Role
  path : Path
deriving DecidableEq

/-- What a traversal meets: the opening of a scope, or a name. -/
inductive Event where
  | opened (path : Path)
  | met (site : Site)
deriving DecidableEq

namespace Event

/-- The name that is met. -/
def site? : Event → Option Site
  | .opened _ => none
  | .met site => some site

/-- The scope that is opened. -/
def path? : Event → Option Path
  | .opened path => some path
  | .met _ => none

/-- The number of functions that an event is inside of. -/
def depth : Event → Nat
  | .opened path => path.depth
  | .met site => site.path.depth

end Event

/-- The parameters of a function, from the one at `place` on; those named `_` declare nothing. -/
def parameterEvents (path : Path) : Nat → List Parameter → List Event
  | _, [] => []
  | place, p :: rest =>
    let others := parameterEvents path (place + 1) rest
    if p.name = ("_" : Text) then others
    else .met ⟨p.token, p.name, .parameter place, path⟩ :: others

end Lexical

open Lexical (Event Path Site)

mutual

/-- What a traversal of an expression meets, in a scope. If the expression is a group, `unit` holds the
names declared in it. -/
def Expr.events : Expr → CodeUnit → Path → List Event
  | .number .., _, _ | .string .., _, _ | .boolean .., _, _ | .empty .., _, _ => []
  | .name token, _, path => [.met ⟨token, token.lexeme, .use, path⟩]
  | .negate _ operand, _, path => operand.events path.unit path
  | .binary _ left right, _, path => left.events path.unit path ++ right.events path.unit path
  | .define _ target value, _, path => value.events path.unit path ++ target.targetEvents path
  | .access _ container key, _, path =>
    container.events path.unit path ++ key.events path.unit path
  | .call _ callee arguments, _, path =>
    callee.events path.unit path ++ Expr.itemEvents arguments path
  | .choose _ subject arms, _, path => subject.events path.unit path ++ Expr.armEvents arms path
  | .group token items, unit, path =>
    let inner := .group token.index unit :: path
    .opened inner :: Expr.itemEvents items inner
  | .list _ items, _, path => Expr.itemEvents items path
  | .object _ entries, _, path => Expr.entryEvents entries path
  | .function token _ parameters body, _, path =>
    let inner := .function token.index :: path
    .opened inner ::
      (Lexical.parameterEvents inner 0 parameters ++ body.events (.function token.index) inner)

/-- What a traversal of the target of a definition meets. -/
def Expr.targetEvents : Expr → Path → List Event
  | .name token, path => [.met ⟨token, token.lexeme, .target, path⟩]
  | .access _ container key, path =>
    container.events path.unit path ++ key.events path.unit path
  | _, _ => []

/-- What a traversal of several expressions meets. -/
def Expr.itemEvents : List Expr → Path → List Event
  | [], _ => []
  | e :: rest, path => e.events path.unit path ++ Expr.itemEvents rest path

/-- What a traversal of the arms of a choice meets. A group behind an arrow is a scope of the arm. -/
def Expr.armEvents : List Arm → Path → List Event
  | [], _ => []
  | .case token pattern body :: rest, path =>
    pattern.events path.unit path ++ (body.events (.arm token.index) path ++ Expr.armEvents rest path)
  | .otherwise token body :: rest, path =>
    body.events (.arm token.index) path ++ Expr.armEvents rest path

/-- What a traversal of the entries of an object meets. -/
def Expr.entryEvents : List Entry → Path → List Event
  | [], _ => []
  | .mk key value :: rest, path =>
    key.events path.unit path ++ (value.events path.unit path ++ Expr.entryEvents rest path)

end

namespace Script

/-- What a traversal of a program meets. -/
def events (script : Script) : List Event := Expr.itemEvents script.items [.program]

/-- The names of a program in the order a traversal meets them. -/
def sites (script : Script) : List Site := script.events.filterMap Event.site?

end Script

namespace Lexical

/-! ## The rule -/

/-- The place of a parameter in the parameter list. -/
def Site.parameter? (s : Site) : Option Nat :=
  match s.role with
  | .parameter place => some place
  | _ => none

/-- Which of the sites of a name in a scope declares it: the last parameter, or else the first
target. -/
def declaring? (here : List Site) : Option Site :=
  (here.filter fun d => d.parameter?.isSome).getLast?.or (here.find? fun d => d.role = .target)

/-- The declaration of a name in a scope among some sites. -/
def declarationIn? (sites : List Site) (path : Path) (name : Text) : Option Site :=
  declaring? (sites.filter fun d => d.path = path ∧ d.name = name)

/-- The declaration that a name sees: the one in the innermost scope that has one. In the scopes of its
own function these are the declarations `before` it, in those of the functions around it `all`. -/
def Site.visible? (before all : List Site) (u : Site) : Option Site :=
  u.path.scopes.findSome? fun scope =>
    declarationIn? (if scope.depth = u.path.depth then before else all) scope u.name

/-- What a name means. -/
inductive Meaning where
  /-- What is declared at a site. -/
  | declared (site : Site)
  | global
  | undefined
deriving DecidableEq

/-- What a name means, given the names met before it and all names of the program. A parameter declares
itself; a target that is not declared in its scope before declares itself there. -/
def Site.meaning (globals : Text → Bool) (before all : List Site) (u : Site) : Meaning :=
  match u.role with
  | .parameter _ => .declared u
  | .target => .declared ((declarationIn? before u.path u.name).getD u)
  | .use =>
    match u.visible? before all with
    | some d => .declared d
    | none => if globals u.name then .global else .undefined

end Lexical

end Inkwell
