import Inkwell.Value.Operator

/-!
# Operation codes

What an instruction does. Every code has a number and a name; `unknown` stands for a number that no
code has.
-/

namespace Inkwell

inductive Opcode where
  | nop
  | move
  /-- Loads a constant; a string gets a buffer of its own. -/
  | loadConstant
  | loadEscaped
  | storeEscaped
  | makeCell
  | loadCell
  | storeCell
  | closure
  | call
  /-- Calls a function in place of the current one. -/
  | tailCall
  /-- Runs the block of an arm if two registers are equal. -/
  | callIfEqual
  /-- Loads a constant and jumps if two registers are equal. -/
  | constantIfEqual
  | callArm
  | jump
  | matchFail
  | makeComposite
  | setElement
  | getElement
  | negate
  | operate (operator : Operator)
  | unknown (code : Nat)
deriving DecidableEq, Inhabited

namespace Opcode

/-- The codes that have a name, in the order of their numbers. -/
def all : List Opcode :=
  [.nop, .move, .loadConstant, .loadEscaped, .storeEscaped, .makeCell, .loadCell, .storeCell,
    .closure, .call, .tailCall, .callIfEqual, .constantIfEqual, .callArm, .jump, .matchFail,
    .makeComposite, .setElement, .getElement, .negate] ++ Operator.all.map .operate

def ofCode (code : Nat) : Opcode := all[code]?.getD (.unknown code)

def code : Opcode → Nat
  | unknown code => code
  | op => all.findIdx (· == op)

def operatorName : Operator → Text
  | .add => "ADD"
  | .sub => "SUB"
  | .mul => "MUL"
  | .div => "DIV"
  | .mod => "MOD"
  | .greater => "GTR"
  | .less => "LSS"
  | .equal => "EQL"
  | .and => "AND"
  | .or => "OR"
  | .xor => "XOR"

def name : Opcode → Text
  | nop => "NOP"
  | move => "MOV"
  | loadConstant => "LOAD_CONST"
  | loadEscaped => "LOAD_ESC"
  | storeEscaped => "STORE_ESC"
  | makeCell => "MAKE_CELL"
  | loadCell => "LOAD_CELL"
  | storeCell => "STORE_CELL"
  | closure => "CLOSURE"
  | call => "CALL"
  | tailCall => "TAIL_CALL"
  | callIfEqual => "CALL_IF_EQ"
  | constantIfEqual => "CONST_IF_EQ"
  | callArm => "CALL_ARM"
  | jump => "JUMP"
  | matchFail => "MATCH_FAIL"
  | makeComposite => "MAKE_COMP"
  | setElement => "SET_ELEM"
  | getElement => "GET_ELEM"
  | negate => "NEG"
  | operate op => operatorName op
  | unknown _ => "UNKNOWN"

def ofName? (name : Text) : Option Opcode := all.find? (·.name == name)

def isUnknown : Opcode → Bool
  | unknown _ => true
  | _ => false

def isBinary : Opcode → Bool
  | operate _ => true
  | _ => false

/-- Whether a code computes its result from its operands alone. -/
def isPure : Opcode → Bool
  | negate | operate _ => true
  | _ => false

def isCall : Opcode → Bool
  | call | tailCall | callIfEqual | callArm => true
  | _ => false

def isBranch : Opcode → Bool
  | callIfEqual | constantIfEqual | callArm | jump => true
  | _ => false

def symbol : Opcode → Text
  | negate => "~"
  | operate op => op.symbol
  | _ => ""

/-- The result of the operator of a code; any other code works on no operands. -/
def apply (op : Opcode) (a b : Datum) : Except Fault Datum :=
  match op with
  | operate operator => operator.apply a b
  | op => .error (Operator.invalid op.symbol a b)

end Opcode

end Inkwell
