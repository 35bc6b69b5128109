import Inkwell.Text.Basic

/-!
# Faults

Why an operation on values, or an instruction, fails. A fault has no place in a program yet.
-/

namespace Inkwell

/-- Why an operation fails. Values in a fault are given by their type or as they are shown. -/
inductive Fault where
  | invalidOperands (operator left right : Text)
  | invalidOperand (operand : Text)
  | divisionByZero
  | moduloByZero
  | releasedComposite
  | releasedCell
  | releasedFunction
  | invalidKey (type : Text)
  | invalidStringIndex (key : Text)
  | notAString (type : Text)
  | stringIndexOutOfRange (index length : Nat)
  | cannotAccess (key container : Text)
  | cannotAssign (key container : Text)
  | notACell (register : Int)
  | bindOutOfRange (bind : Int)
  | notABlock (constant : Int)
  | unknownOpcode (code : Nat)
  | unknownNative (id : Int)
  | cannotCall (type : Text)
  | stackOverflow
  | noMatch (subject : Text)
  | alreadyRunning
  | cancelled
  | native (message : Text)
deriving DecidableEq, Inhabited

def Fault.message : Fault → Text
  | invalidOperands operator left right =>
    "invalid operands for " ++ operator ++ ": " ++ left ++ " and " ++ right
  | invalidOperand operand => "invalid operand for ~: " ++ operand
  | divisionByZero => "division by zero"
  | moduloByZero => "modulo by zero"
  | releasedComposite => "use of released composite"
  | releasedCell => "use of released cell"
  | releasedFunction => "use of released function"
  | invalidKey type => "invalid key type " ++ type
  | invalidStringIndex key => "invalid string index " ++ key
  | notAString type => "cannot assign " ++ type ++ " into a string"
  | stringIndexOutOfRange index length =>
    "string index " ++ Text.ofNat index ++ " out of range (length " ++ Text.ofNat length ++ ")"
  | cannotAccess key container => "cannot access " ++ key ++ " of " ++ container
  | cannotAssign key container => "cannot assign " ++ key ++ " of " ++ container
  | notACell register => "register " ++ Text.ofInt register ++ " does not hold a cell"
  | bindOutOfRange bind => "bind " ++ Text.ofInt bind ++ " out of range"
  | notABlock constant => "constant " ++ Text.ofInt constant ++ " is not a block"
  | unknownOpcode code => "unknown opcode " ++ Text.ofNat code
  | unknownNative id => "unknown native " ++ Text.ofInt id
  | cannotCall type => "cannot call a value of type " ++ type
  | stackOverflow => "stack overflow"
  | noMatch subject => "no match arm matched: " ++ subject
  | alreadyRunning => "vm is already running"
  | cancelled => "context canceled"
  | native message => message

end Inkwell
