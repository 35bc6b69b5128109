import Inkwell.Token.Basic

/-!
# Expressions

A program is a sequence of expressions. Every expression keeps the token that identifies it: the
operator of an operation, the opening bracket of a bracketed form, the arrow of a function, and the
only token of an atom.
-/

namespace Inkwell

/-- A parameter of a function; the name `_` is a parameter the function does not use. -/
structure Parameter where
  token : Token
  name : Text
deriving DecidableEq, Inhabited

mutual

inductive Expr where
  | number (token : Token) (value : Number)
  | string (token : Token) (value : Text)
  | boolean (token : Token) (value : Bool)
  /-- The empty value: `_` or `()`. -/
  | empty (token : Token)
  | name (token : Token)
  | negate (token : Token) (operand : Expr)
  | binary (token : Token) (left right : Expr)
  | define (token : Token) (target value : Expr)
  | access (token : Token) (container key : Expr)
  | call (token : Token) (function : Expr) (arguments : List Expr)
  /-- The choice of the first arm whose pattern equals the subject. -/
  | choose (token : Token) (subject : Expr) (arms : List Arm)
  /-- Expressions in parentheses; the last one gives the value. -/
  | group (token : Token) (items : List Expr)
  | list (token : Token) (items : List Expr)
  | object (token : Token) (entries : List Entry)
  /-- A function; it has a name when a definition binds it directly. -/
  | function (token : Token) (name : Text) (parameters : List Parameter) (body : Expr)

inductive Arm where
  | case (token : Token) (pattern body : Expr)
  | otherwise (token : Token) (body : Expr)

inductive Entry where
  | mk (key value : Expr)

end

instance : Inhabited Expr := ⟨.empty default⟩

/-- A whole program: its first token, the file it comes from, and its expressions. -/
structure Script where
  token : Token
  file : Text
  items : List Expr
deriving Inhabited

namespace Expr

def token : Expr → Token
  | number t _ | string t _ | boolean t _ | empty t | name t | negate t _ | binary t _ _
  | define t _ _ | access t _ _ | call t _ _ | choose t _ _ | group t _ | list t _ | object t _
  | function t _ _ _ => t

def isLiteral : Expr → Bool
  | number .. | string .. | boolean .. | empty .. => true
  | _ => false

end Expr

namespace Arm

def token : Arm → Token
  | case t _ _ | otherwise t _ => t

def body : Arm → Expr
  | case _ _ b | otherwise _ b => b

def isInline (arm : Arm) : Bool := arm.body.isLiteral

end Arm

/-- The text of the token that identifies the first expression; empty if there is none. -/
def Script.lexeme (s : Script) : Text :=
  match s.items with
  | [] => ""
  | e :: _ => e.token.lexeme

end Inkwell
