import Inkwell.Value.Key

/-!
# The heap

What values refer to. Strings are buffers that values share. Composites, cells and functions are
objects, each with the number of its owners: registers, elements, cells, captured cells and the
host. Releasing the last owner releases what the object holds; the object stays, marked as released.
-/

namespace Inkwell

inductive Value where
  | empty
  | number (n : Number)
  | boolean (b : Bool)
  | string (buffer : Nat)
  /-- A function of the host, by its place in the list of those. -/
  | native (id : Int)
  | composite (place : Nat)
  /-- A function with its captured cells, by the place of its object. -/
  | function (place : Nat)
  /-- A cell, by the place of its object. Programs never see one. -/
  | cell (place : Nat)
  /-- A block of code, by its place. Programs never see one. -/
  | block (place : Nat)
deriving DecidableEq, Inhabited

/-- An element of a composite under a key that is not in its dense part. -/
structure SparseEntry where
  label : Text
  /-- The key as it was first given. -/
  key : Datum
  value : Value
deriving DecidableEq, Inhabited

/-- A composite: the elements at the indices from zero on, and all others in the order their keys
were first set. -/
structure Composite where
  dense : Array Value := #[]
  sparse : Array SparseEntry := #[]
deriving DecidableEq, Inhabited

inductive Body where
  | composite (c : Composite)
  | cell (content : Value)
  /-- The block of a function and the places of the cells it captured. -/
  | closure (block : Nat) (cells : List Nat)
deriving DecidableEq, Inhabited

structure Object where
  body : Body
  owners : Nat := 0
  released : Bool := false
deriving DecidableEq, Inhabited

/-- The buffers of strings, and the objects. -/
structure Heap where
  strings : Array Text := #[]
  objects : Array Object := #[]
deriving Inhabited

namespace Value

/-- The place of the object a value refers to, if it refers to one. -/
def object? : Value → Option Nat
  | composite place | function place | cell place => some place
  | _ => none

def isOwned : Value → Bool
  | composite _ | function _ | cell _ => true
  | _ => false

end Value

namespace Heap

def text (h : Heap) (buffer : Nat) : Text := h.strings[buffer]?.getD ""

def newString (h : Heap) (t : Text) : Value × Heap :=
  (.string h.strings.size, { h with strings := h.strings.push t })

def newObject (h : Heap) (body : Body) : Nat × Heap :=
  (h.objects.size, { h with objects := h.objects.push { body } })

def newComposite (h : Heap) : Value × Heap :=
  let (place, h) := h.newObject (.composite {})
  (.composite place, h)

/-- The value with its text written out. -/
def datum (h : Heap) : Value → Datum
  | .empty => .empty
  | .number n => .number n
  | .boolean b => .boolean b
  | .string buffer => .string (h.text buffer)
  | .native id => .native id
  | .composite place => .composite place
  | .function place => .function place
  | .cell place => .cell place
  | .block place => .block place

/-- The value of a datum; a string gets a buffer of its own. -/
def load (h : Heap) : Datum → Value × Heap
  | .empty => (.empty, h)
  | .number n => (.number n, h)
  | .boolean b => (.boolean b, h)
  | .string t => h.newString t
  | .native id => (.native id, h)
  | .composite place => (.composite place, h)
  | .function place => (.function place, h)
  | .cell place => (.cell place, h)
  | .block place => (.block place, h)

def typeName (h : Heap) (v : Value) : Text := (h.datum v).typeName

def equal (h : Heap) (a b : Value) : Bool := (h.datum a).equal (h.datum b)

def owners? (h : Heap) (v : Value) : Option Nat :=
  v.object?.bind fun place => h.objects[place]?.map (·.owners)

def isReleased (h : Heap) (v : Value) : Bool :=
  (v.object?.bind fun place => h.objects[place]?.map (·.released)).getD false

def retainObject (h : Heap) (place : Nat) : Heap :=
  { h with objects := h.objects.modify place fun o => { o with owners := o.owners + 1 } }

/-- The heap in which the object a value refers to, if any, has one more owner. -/
def retain (h : Heap) (v : Value) : Heap :=
  match v.object? with
  | some place => h.retainObject place
  | none => h

/-- The heap in which the objects of several values have one more owner each. -/
def retainAll (h : Heap) (vs : List Value) : Heap := vs.foldl retain h

end Heap

end Inkwell
