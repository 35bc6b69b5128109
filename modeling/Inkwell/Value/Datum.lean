import Inkwell.Number.Decimal

/-!
# Data

A datum is a value whose text is written out. The constants of a program are data, and so are the
operands and results of operators. Composites, functions, cells and blocks are given by the place of
what they refer to.
-/

namespace Inkwell

/-- A value with its text written out. -/
inductive Datum where
  | empty
  | number (n : Number)
  | boolean (b : Bool)
  | string (t : Text)
  | native (id : Int)
  | composite (place : Nat)
  | function (place : Nat)
  | cell (place : Nat)
  | block (place : Nat)
deriving DecidableEq, Hashable, Inhabited

namespace Datum

def typeName : Datum → Text
  | empty => "()"
  | number _ => "number"
  | boolean _ => "boolean"
  | string _ => "string"
  | native _ => "function"
  | composite _ => "composite"
  | function _ => "function"
  | cell _ => "cell"
  | block _ => "block"

/-- Whether two data are equal to a program: numbers by their value, everything else when it is the
same. -/
def equal : Datum → Datum → Bool
  | number a, number b => a.equal b
  | a, b => a = b

/-- Whether a datum is a constant that stands for itself, so that equal ones may be shared. -/
def isShareable : Datum → Bool
  | empty | number _ | boolean _ | string _ | native _ => true
  | composite _ | function _ | cell _ | block _ => false

def isString : Datum → Bool
  | string _ => true
  | _ => false

end Datum

end Inkwell
