import Inkwell.Code.Usage

/-!
# Valid programs

A program is valid when every register, constant, cell and target of its instructions is in range,
so that it can run without looking outside. The first thing found wrong, in the order of the blocks
and their instructions, is reported.
-/

namespace Inkwell

inductive Invalidity where
  | tooManyRegisters (slots : Int)
  | resultOutside (ret slots : Int)
  | rootHasBinds
  | registerOutsideParent (register : Int)
  | bindOutsideParent (bind : Int)
  | unknownOpcode (offset : Nat) (code : Nat)
  | writes (offset : Nat) (op : Opcode) (register : Int)
  | reads (offset : Nat) (op : Opcode) (register : Int)
  | badConstant (offset : Nat) (op : Opcode) (constant : Int)
  | badBlock (offset : Nat) (op : Opcode) (constant : Int)
  | badBind (offset : Nat) (op : Opcode) (bind : Int)
  | badTarget (offset : Nat) (op : Opcode) (target : Int)
deriving DecidableEq

def Text.fourDigits (n : Nat) : Text := Text.padLeft 4 48 (Text.ofNat n)

def Invalidity.message (block : Text) : Invalidity → Text
  | tooManyRegisters slots =>
    "block " ++ block ++ ": " ++ Text.ofInt slots ++ " registers exceed the limit"
  | resultOutside ret slots =>
    "block " ++ block ++ ": ret r" ++ Text.ofInt ret ++ " outside " ++ Text.ofInt slots ++ " slots"
  | rootHasBinds => "block " ++ block ++ ": top-level block has binds"
  | registerOutsideParent register =>
    "block " ++ block ++ ": bind to r" ++ Text.ofInt register ++ " outside parent"
  | bindOutsideParent bind =>
    "block " ++ block ++ ": bind b" ++ Text.ofInt bind ++ " outside parent"
  | unknownOpcode offset code =>
    "block " ++ block ++ ": " ++ Text.fourDigits offset ++ ": unknown opcode " ++ Text.ofNat code
  | writes offset op register =>
    "block " ++ block ++ ": " ++ Text.fourDigits offset ++ " " ++ op.name ++ " writes r"
      ++ Text.ofInt register
  | reads offset op register =>
    "block " ++ block ++ ": " ++ Text.fourDigits offset ++ " " ++ op.name ++ " reads r"
      ++ Text.ofInt register
  | badConstant offset op constant =>
    "block " ++ block ++ ": " ++ Text.fourDigits offset ++ " " ++ op.name ++ " bad constant k"
      ++ Text.ofInt constant
  | badBlock offset op constant =>
    "block " ++ block ++ ": " ++ Text.fourDigits offset ++ " " ++ op.name ++ " bad block k"
      ++ Text.ofInt constant
  | badBind offset op bind =>
    "block " ++ block ++ ": " ++ Text.fourDigits offset ++ " " ++ op.name ++ " bad bind b"
      ++ Text.ofInt bind
  | badTarget offset op target =>
    "block " ++ block ++ ": " ++ Text.fourDigits offset ++ " " ++ op.name ++ " bad target "
      ++ Text.ofInt target

namespace Program

def maxRegisters : Nat := 65536

/-- Whether an integer is a place among `n`. -/
def inRange (i n : Int) : Bool := 0 ≤ i && i < n

def checkBind (parent : Option Block) (bind : Bind) : Except Invalidity Unit :=
  match parent with
  | none => throw .rootHasBinds
  | some parent =>
    if bind.isLocal then
      if inRange bind.index parent.slots then return
      else throw (.registerOutsideParent bind.index)
    else if inRange bind.index parent.binds.size then return
    else throw (.bindOutsideParent bind.index)

def checkOperand (b : Block) (offset : Nat) (ins : Instruction) : Except Invalidity Unit :=
  match ins.op with
  | .loadConstant | .constantIfEqual =>
    if inRange ins.k b.constants.size && (b.nested? ins.k).isNone then return
    else throw (.badConstant offset ins.op ins.k)
  | .closure | .callArm | .callIfEqual =>
    if (b.nested? ins.k).isSome then return else throw (.badBlock offset ins.op ins.k)
  | .loadEscaped | .storeEscaped =>
    if inRange ins.a b.binds.size then return else throw (.badBind offset ins.op ins.a)
  | _ => return

def checkReads (b : Block) (offset : Nat) (op : Opcode) : List Int → Except Invalidity Unit
  | [] => return
  | r :: rest =>
    if inRange r b.slots then checkReads b offset op rest else throw (.reads offset op r)

def checkInstruction (p : Program) (b : Block) (offset : Nat) (ins : Instruction) :
    Except Invalidity Unit := do
  match ins.op with
  | .unknown code => throw (.unknownOpcode offset code)
  | _ => pure ()
  match ins.writes? with
  | some r => if inRange r b.slots then pure () else throw (.writes offset ins.op r)
  | none => pure ()
  checkReads b offset ins.op (p.reads b ins)
  checkOperand b offset ins
  if ins.op.isBranch && (ins.target ≤ offset || (b.code.size : Int) < ins.target) then
    throw (.badTarget offset ins.op ins.target)

def checkCode (p : Program) (b : Block) : Nat → List Instruction → Except Invalidity Unit
  | _, [] => return
  | offset, ins :: rest => do
    checkInstruction p b offset ins
    checkCode p b (offset + 1) rest

def checkBlock (p : Program) (parent : Option Block) (b : Block) : Except Invalidity Unit := do
  if (maxRegisters : Int) < b.slots then throw (.tooManyRegisters b.slots)
  if b.slots < b.params || !inRange b.ret b.slots then throw (.resultOutside b.ret b.slots)
  b.binds.toList.forM (checkBind parent)
  checkCode p b 0 b.code.toList

/-- What is wrong with a block or a block nested in it, with the name of the block that is. -/
def checkFrom (p : Program) : Nat → Option Block → Nat → Except Text Unit
  | 0, _, _ => return
  | levels + 1, parent, place => do
    let b := p.block place
    match checkBlock p parent b with
    | .ok () => b.children.forM fun child => checkFrom p levels (some b) child
    | .error invalidity => throw (invalidity.message b.name)

/-- Whether a program is valid; otherwise the message that says why it is not. -/
def validate (p : Program) : Except Text Unit := p.checkFrom p.blocks.size none 0

end Program

end Inkwell
