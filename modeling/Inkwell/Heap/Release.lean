import Inkwell.Heap.Basic

/-!
# Releasing

Taking an owner from an object. When the last owner goes, the object is marked as released, loses
its contents and takes an owner from everything it held, and so on. This ends on every heap, with
cycles and wrong counts too, because every object that loses an owner has one owner less.
-/

namespace Inkwell

namespace Composite

def values (c : Composite) : List Value := c.dense.toList ++ c.sparse.toList.map (·.value)

end Composite

namespace Body

def owned : Body → List Value
  | composite c => c.values
  | cell content => [content]
  | closure _ cells => cells.map .cell

def cleared : Body → Body
  | composite _ => .composite {}
  | cell _ => .cell .empty
  | closure block _ => .closure block []

end Body

namespace Object

/-- The object with one owner less; the last owner leaves it released and without contents. -/
def disown (o : Object) : Object :=
  if o.owners ≤ 1 then { body := o.body.cleared, owners := 0, released := true }
  else { o with owners := o.owners - 1 }

def passedOn (o : Object) : List Value := if o.owners ≤ 1 then o.body.owned else []

end Object

namespace Heap

def totalOwners (h : Heap) : Nat := h.objects.toList.foldr (fun o n => o.owners + n) 0

def disown (h : Heap) (place : Nat) : Heap :=
  { h with objects := h.objects.modify place Object.disown }

/-- The object at the place that a value refers to, if it can lose an owner. -/
def disownable? (h : Heap) (v : Value) : Option (Nat × Object) :=
  match v.object? with
  | none => none
  | some place =>
    match h.objects[place]? with
    | none => none
    | some o => if o.released || o.owners = 0 then none else some (place, o)

private theorem sum_modify_lt {l : List Object} {i : Nat} {o : Object} {f : Object → Object}
    (h : l[i]? = some o) (hlt : (f o).owners < o.owners) :
    (l.modify i f).foldr (fun o n => o.owners + n) 0 < l.foldr (fun o n => o.owners + n) 0 := by
  induction l generalizing i with
  | nil => simp at h
  | cons a rest ih =>
    cases i with
    | zero =>
      simp only [List.getElem?_cons_zero, Option.some.injEq] at h
      subst h
      simp only [List.modify_zero_cons, List.foldr_cons]
      omega
    | succ i =>
      have hrest := ih (i := i) (by simpa using h)
      simp only [List.modify_succ_cons, List.foldr_cons]
      omega

private theorem owners_disown_lt {o : Object} (h : o.owners ≠ 0) : o.disown.owners < o.owners := by
  unfold Object.disown
  split
  · show 0 < o.owners
    omega
  · show o.owners - 1 < o.owners
    omega

/-- The object that `disownable?` finds is there and has an owner. -/
theorem disownable?_eq_some {h : Heap} {v : Value} {place : Nat} {o : Object}
    (hv : h.disownable? v = some (place, o)) :
    v.object? = some place ∧ h.objects[place]? = some o ∧ o.released = false ∧ o.owners ≠ 0 := by
  unfold disownable? at hv
  split at hv
  · cases hv
  · rename_i p hp
    split at hv
    · cases hv
    · rename_i q hq
      split at hv
      · cases hv
      · rename_i hlive
        simp only [Option.some.injEq, Prod.mk.injEq] at hv
        obtain ⟨rfl, rfl⟩ := hv
        simp only [Bool.or_eq_true, decide_eq_true_eq, not_or, Bool.not_eq_true] at hlive
        exact ⟨hp, hq, hlive.1, hlive.2⟩

/-- An object that loses an owner leaves fewer owners in the heap. -/
theorem totalOwners_disown_lt {h : Heap} {v : Value} {place : Nat} {o : Object}
    (hv : h.disownable? v = some (place, o)) :
    (h.disown place).totalOwners < h.totalOwners := by
  obtain ⟨_, hplace, _, howners⟩ := disownable?_eq_some hv
  unfold totalOwners disown
  rw [Array.toList_modify]
  exact sum_modify_lt (by simpa using hplace) (owners_disown_lt howners)

/-- The heap after taking an owner from the objects of several values, one after the other. -/
def releaseAll (h : Heap) (work : List Value) : Heap :=
  match work with
  | [] => h
  | v :: rest =>
    match _found : h.disownable? v with
    | none => releaseAll h rest
    | some (place, o) => releaseAll (h.disown place) (o.passedOn ++ rest)
termination_by (h.totalOwners, work.length)
decreasing_by
  · exact Prod.Lex.right _ (by simp)
  · exact Prod.Lex.left _ _ (totalOwners_disown_lt (by assumption))

def release (h : Heap) (v : Value) : Heap := h.releaseAll [v]

end Heap

end Inkwell
