import Inkwell.Proofs.Heap.Counts

/-!
# Values up to the places of objects

Two heaps may hold the same values at different places. A renaming says where the objects of one heap
are in the other; strings keep their buffers. Values are the same if a renaming takes the one to the
other and every object they lead to to an object with the same contents.
-/

namespace Inkwell

/-- The value with its object at another place. -/
def Value.rename (f : Nat → Nat) : Value → Value
  | .composite place => .composite (f place)
  | .function place => .function (f place)
  | .cell place => .cell (f place)
  | v => v

/-- The composite with renamed elements. -/
def Composite.rename (f : Nat → Nat) (c : Composite) : Composite where
  dense := c.dense.map (Value.rename f)
  sparse := c.sparse.map fun e => { e with value := e.value.rename f }

/-- What a function is made of: its code and its cells. -/
abbrev FunctionPart := Nat × List Nat

/-- The contents of two objects are the same; `Same` says when two functions are. -/
inductive Body.Renamed (f : Nat → Nat) (Same : FunctionPart → FunctionPart → Prop) :
    Body → Body → Prop
  | composite (c : Composite) : Renamed f Same (.composite c) (.composite (c.rename f))
  | cell (v : Value) : Renamed f Same (.cell v) (.cell (v.rename f))
  | closure {block block' : Nat} {cells cells' : List Nat} (same : Same (block, cells) (block', cells')) :
      Renamed f Same (.closure block cells) (.closure block' cells')

namespace Heap

/-- A renaming of the objects at the places in `D`, which lead only to each other. -/
structure Renames (f : Nat → Nat) (D : Nat → Prop) (Same : FunctionPart → FunctionPart → Prop)
    (h h' : Heap) : Prop where
  strings : h'.strings = h.strings
  injective : ∀ a b, D a → D b → f a = f b → a = b
  bodies : ∀ place, D place → ∃ o o', h.objects[place]? = some o ∧ h'.objects[f place]? = some o' ∧
    o.released = false ∧ o'.released = false ∧ o.body.Renamed f Same o'.body ∧
    ∀ v ∈ o.body.owned, ∀ other, v.object? = some other → D other

end Heap

/-- Two values in their heaps are the same, up to the places of their objects. -/
def SameValue (Same : (Nat → Nat) → FunctionPart → FunctionPart → Prop) (h : Heap) (v : Value)
    (h' : Heap) (v' : Value) : Prop :=
  ∃ f D, h.Renames f D (Same f) h' ∧ (∀ place, v.object? = some place → D place) ∧ v' = v.rename f

/-! ## The same places -/

theorem Value.rename_id (v : Value) : v.rename id = v := by
  cases v <;> rfl

theorem Composite.rename_id (c : Composite) : c.rename id = c := by
  have hvalue : Value.rename id = id := funext Value.rename_id
  simp [Composite.rename, hvalue]

end Inkwell
