import Inkwell.Heap.Basic

/-!
# Showing values

A value as a program would write it. An object inside itself is shown as dots. At most all objects
are inside one another before one repeats, so rendering ends.
-/

namespace Inkwell

namespace Heap

def composeText (c : Composite) (values : List Text) : Text :=
  let labels := (List.range c.dense.size).map Text.ofNat ++ c.sparse.toList.map (·.label)
  "\x7b" ++ Text.join ", " (List.zipWith (fun l v => l ++ ": " ++ v) labels values) ++ "\x7d"

/-- A value as it is shown inside the objects `outer`, of which there are at most `depth` fewer than
objects in all; `blocks` names the blocks of code. -/
def inspectInside (h : Heap) (blocks : Nat → Text) : Nat → List Nat → Value → Text
  | _, _, .empty => "()"
  | _, _, .number n => n.format
  | _, _, .boolean b => if b then "true" else "false"
  | _, _, .string buffer => (h.text buffer).singleQuoted
  | _, _, .native _ => "(function)"
  | _, _, .function _ => "(function)"
  | _, _, .block place => blocks place
  | 0, _, .composite _ | 0, _, .cell _ => "\x7b...\x7d"
  | depth + 1, outer, .composite place =>
    if outer.contains place then "\x7b...\x7d"
    else
      match h.objects[place]? with
      | some { body := .composite c, .. } =>
        let values := c.dense.toList ++ c.sparse.toList.map (·.value)
        composeText c (values.map (inspectInside h blocks depth (place :: outer)))
      | _ => "\x7b\x7d"
  | depth + 1, outer, .cell place =>
    if outer.contains place then "\x7b...\x7d"
    else
      match h.objects[place]? with
      | some { body := .cell content, .. } =>
        "<cell " ++ inspectInside h blocks depth (place :: outer) content ++ ">"
      | _ => "<cell ()>"

def inspect (h : Heap) (blocks : Nat → Text) (v : Value) : Text :=
  h.inspectInside blocks (h.objects.size + 1) [] v

def inspectDatum (h : Heap) (blocks : Nat → Text) (d : Datum) : Text :=
  match d with
  | .string t => t.singleQuoted
  | d => h.inspect blocks (h.load d).1

/-- A value as text: a string is its own text, anything else is shown. -/
def display (h : Heap) (blocks : Nat → Text) (v : Value) : Text :=
  match v with
  | .string buffer => h.text buffer
  | v => h.inspect blocks v

end Heap

end Inkwell
