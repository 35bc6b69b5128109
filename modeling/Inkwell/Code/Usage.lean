import Inkwell.Code.Block

/-!
# Registers that instructions use

Which registers an instruction reads, and which it writes. Making a function or entering an arm
reads the registers that hold the cells the nested block takes.
-/

namespace Inkwell

namespace Program

/-- The registers whose cells the nested block at a constant takes. -/
def localBinds (p : Program) (b : Block) (k : Int) : List Int :=
  match b.nested? k with
  | none => []
  | some place =>
    (p.block place).binds.toList.filterMap fun bind =>
      if bind.isLocal then some bind.index else none

def reads (p : Program) (b : Block) (ins : Instruction) : List Int :=
  match ins.op with
  | .move | .loadCell | .negate | .matchFail => [ins.a]
  | .storeEscaped => [ins.b]
  | .makeCell => if 0 ≤ ins.a then [ins.a] else []
  | .storeCell | .getElement | .constantIfEqual => [ins.a, ins.b]
  | .setElement => [ins.a, ins.b, ins.c]
  | .call | .tailCall => ins.a :: ins.args
  | .closure | .callArm => p.localBinds b ins.k
  | .callIfEqual => ins.a :: ins.b :: p.localBinds b ins.k
  | .operate _ => [ins.a, ins.b]
  | .nop | .loadConstant | .loadEscaped | .jump | .makeComposite | .unknown _ => []

end Program

def Instruction.writes? (ins : Instruction) : Option Int :=
  match ins.op with
  | .move | .loadConstant | .loadEscaped | .makeCell | .loadCell | .closure | .call | .callIfEqual
  | .constantIfEqual | .callArm | .makeComposite | .getElement | .negate | .operate _ =>
    some ins.dest
  | .nop | .storeEscaped | .storeCell | .tailCall | .jump | .matchFail | .setElement
  | .unknown _ => none

def Program.usage (p : Program) : List (Opcode × List Int × Option Int) :=
  p.walk.flatMap fun b =>
    b.code.toList.map fun ins => (ins.op, p.reads b ins, ins.writes?)

end Inkwell
