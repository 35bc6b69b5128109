import Inkwell.Heap.Release

/-!
# Elements

Reading and writing elements of composites and bytes of strings. A composite keeps the elements at
the indices `0`, `1`, ... without a gap in its dense part, and all others in the order their keys
were first set. When the dense part grows up to an index that has an element already, that element
moves into it.
-/

namespace Inkwell

namespace Composite

def sparsePlace? (c : Composite) (label : Text) : Option Nat :=
  c.sparse.findIdx? fun e => e.label == label

def get (c : Composite) (key : Key) : Value :=
  let outside : Value :=
    match c.sparse.find? fun e => e.label == key.text with
    | some e => e.value
    | none => .empty
  match key with
  | .index i => c.dense[i]?.getD outside
  | .label .. => outside

/-- Moves elements that follow the dense part into it; every round takes one of them. -/
def settle : Nat → Composite → Composite
  | 0, c => c
  | rounds + 1, c =>
    match c.sparsePlace? (Text.ofNat c.dense.size) with
    | none => c
    | some place =>
      match c.sparse[place]? with
      | none => c
      | some e =>
        settle rounds { dense := c.dense.push e.value, sparse := c.sparse.eraseIdxIfInBounds place }

def setSparse (c : Composite) (label : Text) (key : Datum) (value : Value) :
    Composite × Option Value :=
  match c.sparsePlace? label with
  | some place =>
    let old := c.sparse[place]?.map (·.value)
    ({ c with sparse := c.sparse.modify place fun e => { e with value } }, old)
  | none => ({ c with sparse := c.sparse.push { label, key, value } }, none)

/-- The composite with an element under a key, and the element it replaces. -/
def set (c : Composite) (key : Key) (value : Value) : Composite × Option Value :=
  match key with
  | .index i =>
    if i < c.dense.size then
      let old := c.dense[i]?
      ({ c with dense := c.dense.setIfInBounds i value }, old)
    else if i = c.dense.size then
      let rounds := c.sparse.size
      (settle rounds { c with dense := c.dense.push value }, none)
    else c.setSparse key.text key.datum value
  | .label .. => c.setSparse key.text key.datum value

def size (c : Composite) : Nat := c.dense.size + c.sparse.size

/-- The keys: the indices of the dense part, then the others in the order they were first set. -/
def keys (c : Composite) : List Datum :=
  (List.range c.dense.size).map (fun i => .number (Number.ofNat i)) ++
    c.sparse.toList.map (·.key)

end Composite

/-- The object with an element under a key, if it is a composite, and the element it replaces. -/
def Object.setElement (o : Object) (key : Key) (value : Value) : Object × Option Value :=
  match o with
  | { body := .composite c, owners, released } =>
    let (c, old) := c.set key value
    ({ body := .composite c, owners, released }, old)
  | o => (o, none)

namespace Heap

def composite (h : Heap) (place : Nat) : Except Fault Composite :=
  match h.objects[place]? with
  | some { body := .composite c, released := false, .. } => .ok c
  | _ => .error .releasedComposite

def getElement (h : Heap) (place : Nat) (key : Datum) : Except Fault Value := do
  let c ← h.composite place
  let k ← Key.ofDatum key
  return c.get k

/-- The heap in which the composite at a place has an element under a key; what the element replaces
loses an owner. The object is taken out while it changes, so that nothing else refers to it. -/
def putElement (h : Heap) (place : Nat) (key : Key) (value : Value) : Heap :=
  match h with
  | { strings, objects } =>
    match objects[place]? with
    | none => { strings, objects }
    | some o =>
      let objects := objects.setIfInBounds place default
      let (o, old) := o.setElement key value
      let h : Heap := { strings, objects := objects.setIfInBounds place o }
      match old with
      | some v => h.release v
      | none => h

/-- The key that a datum stands for in the composite at a place, unless that has been released. -/
def elementKey (h : Heap) (place : Nat) (key : Datum) : Except Fault Key := do
  let _ ← h.composite place
  Key.ofDatum key

/-- The heap in which a composite has an element under a key; the composite becomes an owner of the
element, and what it replaces loses one. -/
def setElement (h : Heap) (place : Nat) (key : Datum) (value : Value) : Except Fault Heap := do
  let k ← h.elementKey place key
  return (h.retain value).putElement place k value

/-- The byte of a string at a key as a string of its own, or the empty value behind the end. -/
def byteAt (h : Heap) (buffer : Nat) (key : Datum) : Except Fault Datum := do
  let i ← key.byteIndex
  match (h.text buffer).data[i]? with
  | some b => return .string (Text.ofBytes [b])
  | none => return .empty

/-- Where in a string, and which, bytes are to be written for a key and a value. The string may
grow, but there may be no gap. -/
def byteRange (h : Heap) (buffer : Nat) (key value : Datum) : Except Fault (Nat × Text) := do
  let i ← key.byteIndex
  match value with
  | .string source =>
    let length := (h.text buffer).size
    if length < i then throw (.stringIndexOutOfRange i length)
    return (i, source)
  | d => throw (.notAString d.typeName)

/-- The text with the bytes of another written over it from an offset on. -/
def overwrite (t : Text) (offset : Nat) (source : Text) : Text :=
  t.take offset ++ source ++ t.drop (offset + source.size)

def writeBytes (h : Heap) (buffer offset : Nat) (source : Text) : Heap :=
  { h with strings := h.strings.modify buffer fun t => overwrite t offset source }

end Heap

end Inkwell
