import Inkwell.Heap.Composite
import Inkwell.Machine.Basic
import Inkwell.Number.Reader
import Inkwell.Text.Blank

/-!
# The standard functions

The functions of the host that every machine has. A missing argument is the empty value, and surplus
arguments are not looked at.
-/

namespace Inkwell

namespace Native

def argument (arguments : List Value) : Value := arguments.headD .empty

def refuse {α : Type} (message : Text) : EStateM Fault Store α := throw (.native message)

def typeOf (v : Value) : EStateM Fault Store Text := return (← get).heap.typeName v

def textOf (function : Text) (v : Value) : EStateM Fault Store Text := do
  match v with
  | .string buffer => return (← get).heap.text buffer
  | v => refuse (function ++ "() expects a string, got " ++ (← typeOf v))

def answerText (t : Text) : EStateM Fault Store Reply :=
  modifyGet fun s =>
    let (v, heap) := s.heap.newString t
    (.answer v, { s with heap })

def answerNumber (n : Number) : EStateM Fault Store Reply := return .answer (.number n)

def write (t : Text) : EStateM Fault Store Unit
  | { code, heap, output := { text, refusal := none } } =>
    .ok () { code, heap, output := { text := text ++ t } }
  | { code, heap, output := { text, refusal := some reason } } =>
    .error (.native ("out(): " ++ reason)) { code, heap, output := { text, refusal := reason } }

def out : Native where
  name := "out"
  run arguments := do
    let v := argument arguments
    write (← textOf "out" v)
    return .answer v

def string : Native where
  name := "string"
  run arguments := do answerText ((← get).display (argument arguments))

/-- The number that a value stands for: itself, zero or one for a boolean, what a string spells; the
empty value if it stands for none. -/
def number : Native where
  name := "number"
  run arguments := do
    match argument arguments with
    | .number n => answerNumber n
    | .boolean b => answerNumber (if b then Number.ofNat 1 else Number.ofNat 0)
    | .string buffer =>
      match Number.read? ((← get).heap.text buffer).trim with
      | some n => answerNumber n
      | none => return .answer .empty
    | _ => return .answer .empty

def len : Native where
  name := "len"
  run arguments := do
    match argument arguments with
    | .composite place =>
      match (← get).heap.composite place with
      | .ok c => answerNumber (Number.ofNat c.size)
      | .error fault => throw fault
    | .string buffer => answerNumber (Number.ofNat ((← get).heap.text buffer).size)
    | v => refuse ("len() expects a composite or string, got " ++ (← typeOf v))

/-- The string of one byte, whose value is the number modulo 256. -/
def char : Native where
  name := "char"
  run arguments := do
    match argument arguments with
    | .number n => answerText (Text.ofBytes [n.toInt64.toUInt64.toUInt8])
    | v => refuse ("char() expects a number, got " ++ (← typeOf v))

def point : Native where
  name := "point"
  run arguments := do
    match (← textOf "point" (argument arguments)).bytes with
    | b :: _ => answerNumber (Number.ofNat b.toNat)
    | [] => refuse "point() of empty string"

def type : Native where
  name := "type"
  run arguments := do answerText (← typeOf (argument arguments))

def newList (elements : List Datum) (h : Heap) : Value × Heap :=
  let (place, h) := h.newObject (.composite {})
  let h := elements.zipIdx.foldl (fun h (d, i) =>
    let (v, h) := Heap.load h d
    (h.retain v).putElement place (.index i) v) h
  (.composite place, h)

def keys : Native where
  name := "keys"
  run arguments := do
    match argument arguments with
    | .composite place =>
      match (← get).heap.composite place with
      | .ok c =>
        modifyGet fun s =>
          let (v, heap) := newList c.keys s.heap
          (.answer v, { s with heap })
      | .error fault => throw fault
    | v => refuse ("keys() expects a composite, got " ++ (← typeOf v))

end Native

def Natives.standard : Natives :=
  #[Native.out, Native.string, Native.number, Native.len, Native.char, Native.point, Native.type,
    Native.keys]

end Inkwell
