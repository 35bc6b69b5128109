import Inkwell.Optimizer.Pass

/-!
# Tail calls

A call whose result is the result of the block takes over the frame of its caller. The machine does
so for a marked call as well; the pass gives such calls a code of their own.
-/

namespace Inkwell

namespace TailCalls

def isTailCall (ins : Instruction) : Bool := ins.op = .call && ins.tail

def instruction (ins : Instruction) : Instruction :=
  if isTailCall ins then { ins with op := .tailCall } else ins

def pass : Pass where
  name := "tailcall"
  run _ b := some ({ b with code := b.code.map instruction }, b.code.any isTailCall)

end TailCalls

end Inkwell
