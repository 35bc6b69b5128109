import Inkwell.Fault
import Inkwell.Value.Datum

/-!
# Operators

The binary operators and the negation. An operator other than equality works on two operands of one
type; which it works on depends on the type. On strings the bitwise operators combine bytes, the
shorter string filled up with zeros.
-/

namespace Inkwell

inductive Operator where
  | add
  | sub
  | mul
  | div
  | mod
  | greater
  | less
  | equal
  | and
  | or
  | xor
deriving DecidableEq, Inhabited

namespace Operator

def all : List Operator := [.add, .sub, .mul, .div, .mod, .greater, .less, .equal, .and, .or, .xor]

def symbol : Operator → Text
  | add => "+"
  | sub => "-"
  | mul => "*"
  | div => "/"
  | mod => "%"
  | greater => ">"
  | less => "<"
  | equal => "="
  | and => "&"
  | or => "|"
  | xor => "^"

def ofSymbol? (symbol : Text) : Option Operator := all.find? (·.symbol == symbol)

def invalid (symbol : Text) (a b : Datum) : Fault :=
  .invalidOperands symbol a.typeName b.typeName

def onNumbers (x y : Number) : Operator → Except Fault Datum
  | add => .ok (.number (x + y))
  | sub => .ok (.number (x - y))
  | mul => .ok (.number (x * y))
  | div => if y.isZero then .error .divisionByZero else .ok (.number (x / y))
  | mod => if y.isZero then .error .moduloByZero else .ok (.number (x.remainder y))
  | greater => .ok (.boolean (y.less x))
  | less => .ok (.boolean (x.less y))
  | equal => .ok (.boolean (x.equal y))
  | and => .ok (.number (Number.bitwise (· &&& ·) x y))
  | or => .ok (.number (Number.bitwise (· ||| ·) x y))
  | xor => .ok (.number (Number.bitwise (· ^^^ ·) x y))

def onBooleans (x y : Bool) : Operator → Option Bool
  | add | or => some (x || y)
  | mul | and => some (x && y)
  | xor => some (x != y)
  | _ => none

/-- The bytes of two texts combined over the longer length, the shorter filled up with zeros. -/
def combineBytes (f : UInt8 → UInt8 → UInt8) (x y : Text) : Text :=
  let n := max x.size y.size
  let padded (t : Text) : List UInt8 := t.bytes ++ List.replicate (n - t.size) 0
  Text.ofBytes (List.zipWith f (padded x) (padded y))

def onStrings (x y : Text) : Operator → Option Datum
  | add => some (.string (x ++ y))
  | greater => some (.boolean (x.compare y == .gt))
  | less => some (.boolean (x.compare y == .lt))
  | and => some (.string (combineBytes (· &&& ·) x y))
  | or => some (.string (combineBytes (· ||| ·) x y))
  | xor => some (.string (combineBytes (· ^^^ ·) x y))
  | _ => none

def apply (op : Operator) (a b : Datum) : Except Fault Datum :=
  if op = .equal then .ok (.boolean (a.equal b))
  else
    match a, b with
    | .number x, .number y => op.onNumbers x y
    | .boolean x, .boolean y =>
      match op.onBooleans x y with
      | some r => .ok (.boolean r)
      | none => .error (invalid op.symbol a b)
    | .string x, .string y =>
      match op.onStrings x y with
      | some r => .ok r
      | none => .error (invalid op.symbol a b)
    | _, _ => .error (invalid op.symbol a b)

end Operator

/-- The opposite of a number or of a truth value. -/
def Datum.negate : Datum → Except Fault Datum
  | .number n => .ok (.number n.negate)
  | .boolean b => .ok (.boolean !b)
  | d => .error (.invalidOperand d.typeName)

end Inkwell
