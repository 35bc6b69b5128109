import Inkwell.Code.Valid
import Inkwell.Heap.Inspect

/-!
# Listings

A program as text: for every block a heading, the cells it takes, and a line for each instruction
with its number, the line of the source unless it is that of the line before, and its operands.
-/

namespace Inkwell

namespace Listing

def register (r : Int) : Text := "r" ++ Text.ofInt r

/-- An integer with at least four characters, zeros between its sign and its digits. -/
def fourWide (n : Int) : Text :=
  if n < 0 then "-" ++ Text.padLeft 3 48 (Text.ofNat n.natAbs) else Text.fourDigits n.natAbs

def bind (b : Bind) : Text := (if b.isLocal then "r" else "b") ++ Text.ofInt b.index

def constant (p : Program) (h : Heap) (b : Block) (k : Int) : Text :=
  match b.constant? k with
  | none => "k" ++ Text.ofInt k ++ "(?)"
  | some d => "k" ++ Text.ofInt k ++ "(" ++ h.inspectDatum (fun i => (p.block i).inspect) d ++ ")"

def operands (p : Program) (h : Heap) (b : Block) (ins : Instruction) : Text :=
  let k := constant p h b ins.k
  match ins.op with
  | .move | .loadCell | .negate => register ins.dest ++ " " ++ register ins.a
  | .loadConstant | .closure => register ins.dest ++ " " ++ k
  | .loadEscaped => register ins.dest ++ " b" ++ Text.ofInt ins.a
  | .storeEscaped => "b" ++ Text.ofInt ins.a ++ " " ++ register ins.b
  | .makeCell =>
    register ins.dest ++ " " ++ (if ins.a < 0 then ("()" : Text) else register ins.a)
  | .storeCell => register ins.a ++ " " ++ register ins.b
  | .call | .tailCall =>
    register ins.dest ++ " " ++ register ins.a ++ "(" ++ Text.join ", " (ins.args.map register)
      ++ ")"
  | .callIfEqual | .constantIfEqual =>
    register ins.dest ++ " " ++ register ins.a ++ " = " ++ register ins.b ++ " " ++ k ++ " -> "
      ++ fourWide ins.target
  | .callArm => register ins.dest ++ " " ++ k ++ " -> " ++ fourWide ins.target
  | .jump => fourWide ins.target
  | .matchFail => register ins.a
  | .makeComposite => register ins.dest
  | .setElement => register ins.a ++ ".(" ++ register ins.b ++ ") " ++ register ins.c
  | .getElement => register ins.dest ++ " " ++ register ins.a ++ ".(" ++ register ins.b ++ ")"
  | .operate _ => register ins.dest ++ " " ++ register ins.a ++ " " ++ register ins.b
  | .nop | .unknown _ => ""

/-- The lines of the instructions from the one at `offset` on; `line` is the source line of the
instruction before. -/
def lines (p : Program) (h : Heap) (b : Block) : Nat → Option Int → List Instruction → List Text
  | _, _, [] => []
  | offset, line, ins :: rest =>
    let sourceLine : Text :=
      if line = some ins.position.line then "   | "
      else Text.padLeft 4 32 (Text.ofInt ins.position.line) ++ " "
    (Text.fourDigits offset ++ " " ++ sourceLine ++ Text.padRight 12 ins.op.name
      ++ operands p h b ins ++ (if ins.tail then " tail\n" else "\n"))
      :: lines p h b (offset + 1) (some ins.position.line) rest

def block (p : Program) (h : Heap) (b : Block) : Text :=
  let heading : Text := "== " ++ b.name ++ " (block " ++ Text.ofInt b.id ++ ") params="
    ++ Text.ofInt b.params ++ " slots=" ++ Text.ofInt b.slots ++ " ret=" ++ register b.ret
    ++ " ==\n"
  let binds : Text :=
    if b.binds.isEmpty then ""
    else "binds: " ++ Text.join " " (b.binds.toList.map bind) ++ "\n"
  heading ++ binds ++ Text.concat (lines p h b 0 none b.code.toList) ++ "\n"

end Listing

def Program.listing (p : Program) (h : Heap) : Text :=
  Text.concat (p.walk.map (Listing.block p h))

end Inkwell
