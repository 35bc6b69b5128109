import Inkwell.Expr.Basic
import Std.Data.HashMap

/-!
# Bindings

What the names of a program refer to. The code of a program is divided into units, each with
locations of its own: the program, every function, and every arm whose body is not a constant. A
binding is a name declared in a unit. A reference says what one use of a name means; uses are told
apart by the index of their token.
-/

namespace Inkwell

/-- A part of a program with locations of its own; functions and arms are told apart by the index of
their arrow. -/
inductive CodeUnit where
  | program
  | function (index : Nat)
  | arm (index : Nat)
deriving DecidableEq, Hashable, Inhabited

structure Binding where
  name : Text
  /-- The unit that holds its location. -/
  owner : CodeUnit
  /-- Its place in the parameter list of the owner, if it is a parameter. -/
  parameter : Option Nat := none
  definitions : Nat := 0
  /-- The name and the number of parameters of the function that its only definition gives it. -/
  function : Option (Text × Nat) := none
  /-- Whether another unit than its owner refers to it. -/
  escapes : Bool := false
deriving Inhabited

/-- What a use of a name means: a binding, by its place in the list of bindings, or a name that
needs no declaration. -/
inductive Reference where
  | binding (index : Nat)
  | global
deriving DecidableEq, Inhabited

/-- The bindings of a program, in the order of their declaration, and the meaning of its names. -/
structure Resolution where
  bindings : Array Binding := #[]
  references : Std.HashMap Nat Reference := {}
deriving Inhabited

namespace Resolution

def reference? (r : Resolution) (token : Token) : Option Reference := r.references[token.index]?

/-- The bindings a unit holds, in the order of their declaration, each with its place in the list of
all bindings. -/
def locals (r : Resolution) (unit : CodeUnit) : List (Nat × Binding) :=
  (r.bindings.toList.zipIdx.filter fun (b, _) => b.owner = unit).map fun (b, i) => (i, b)

/-- For every unit the places of the bindings it holds, the latest declaration first. -/
def frames (r : Resolution) : Std.HashMap CodeUnit (List Nat) :=
  r.bindings.toList.zipIdx.foldl (fun frames (b, i) =>
    frames.alter b.owner fun places => some (i :: places.getD [])) {}

end Resolution

end Inkwell
