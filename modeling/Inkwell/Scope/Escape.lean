import Inkwell.Scope.Basic

/-!
# Bindings that escape

A binding escapes when code of another unit than its owner refers to it. Such a binding lives in a
cell that the units share; any other stays in a register of its owner.
-/

namespace Inkwell

namespace Escape

/-- The resolution in which the binding a token refers to escapes, if its owner is not `unit`. -/
def mark (token : Token) (unit : CodeUnit) (r : Resolution) : Resolution :=
  match r.reference? token with
  | some (.binding place) =>
    { r with bindings := r.bindings.modify place fun b =>
        if b.owner = unit then b else { b with escapes := true } }
  | _ => r

mutual

/-- Marks the bindings that escape through an expression in the code of `unit`. -/
def expr : Expr → CodeUnit → Resolution → Resolution
  | .number .., _, r | .string .., _, r | .boolean .., _, r | .empty .., _, r => r
  | .name token, unit, r => mark token unit r
  | .negate _ operand, unit, r => expr operand unit r
  | .binary _ left right, unit, r => expr right unit (expr left unit r)
  | .define _ target value, unit, r => expr target unit (expr value unit r)
  | .access _ container key, unit, r => expr key unit (expr container unit r)
  | .call _ callee arguments, unit, r => items arguments unit (expr callee unit r)
  | .choose _ subject cases, unit, r => arms cases unit (expr subject unit r)
  | .group _ inner, unit, r | .list _ inner, unit, r => items inner unit r
  | .object _ inner, unit, r => entries inner unit r
  | .function token _ _ body, _, r => expr body (.function token.index) r

def items : List Expr → CodeUnit → Resolution → Resolution
  | [], _, r => r
  | e :: rest, unit, r => items rest unit (expr e unit r)

def arms : List Arm → CodeUnit → Resolution → Resolution
  | [], _, r => r
  | .case token pattern body :: rest, unit, r =>
    let inner := if body.isLiteral then unit else .arm token.index
    arms rest unit (expr body inner (expr pattern unit r))
  | .otherwise token body :: rest, unit, r =>
    let inner := if body.isLiteral then unit else .arm token.index
    arms rest unit (expr body inner r)

def entries : List Entry → CodeUnit → Resolution → Resolution
  | [], _, r => r
  | .mk key value :: rest, unit, r => entries rest unit (expr value unit (expr key unit r))

end

end Escape

def Resolution.markEscapes (script : Script) (r : Resolution) : Resolution :=
  Escape.items script.items .program r

end Inkwell
