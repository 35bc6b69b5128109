import Inkwell.Expr.Basic
import Inkwell.Number.Decimal

/-!
# Expressions as text

Every operation stands in parentheses, so the text shows how an expression was understood.
-/

namespace Inkwell

mutual

def Expr.render : Expr → Text
  | .number _ value => value.spelling
  | .string _ value => value.singleQuoted
  | .boolean _ value => if value then "true" else "false"
  | .empty _ => "()"
  | .name token => token.lexeme
  | .negate _ operand => "~" ++ operand.render
  | .binary token left right =>
    "(" ++ left.render ++ " " ++ token.lexeme ++ " " ++ right.render ++ ")"
  | .define _ target value => target.render ++ " := " ++ value.render
  | .access _ container (.string _ key) => container.render ++ "." ++ key
  | .access _ container key => container.render ++ ".(" ++ key.render ++ ")"
  | .call _ callee arguments =>
    callee.render ++ "(" ++ Text.join ", " (Expr.renderItems arguments) ++ ")"
  | .choose _ subject arms =>
    subject.render ++ " :: \x7b" ++ Text.join ", " (Expr.renderArms arms) ++ "\x7d"
  | .group _ items => "(" ++ Text.join ", " (Expr.renderItems items) ++ ")"
  | .list _ items => "[" ++ Text.join ", " (Expr.renderItems items) ++ "]"
  | .object _ entries => "\x7b" ++ Text.join ", " (Expr.renderEntries entries) ++ "\x7d"
  | .function _ _ parameters body =>
    "(" ++ Text.join ", " (parameters.map (·.name)) ++ ") => " ++ body.render

def Expr.renderItems : List Expr → List Text
  | [] => []
  | e :: rest => e.render :: Expr.renderItems rest

def Expr.renderArms : List Arm → List Text
  | [] => []
  | .case _ pattern body :: rest =>
    (pattern.render ++ " -> " ++ body.render) :: Expr.renderArms rest
  | .otherwise _ body :: rest => ("_ -> " ++ body.render) :: Expr.renderArms rest

def Expr.renderEntries : List Entry → List Text
  | [] => []
  | .mk key value :: rest => (key.render ++ ": " ++ value.render) :: Expr.renderEntries rest

end

end Inkwell
