import Inkwell.Proofs.Machine.Results

/-!
# Functions in the heap

Only the instruction that makes a function puts one into the heap, and no function ever changes:
whatever else happens to a heap, each function in it afterwards was there before, with the same
block and the same cells.
-/

namespace Inkwell

variable {h : Heap}

namespace Heap

/-- A function that has not been released stands at a place of the heap. -/
def HasFunction (h : Heap) (place block : Nat) (cells : List Nat) : Prop :=
  ∃ o, h.objects[place]? = some o ∧ o.released = false ∧ o.body = .closure block cells

/-- The heap `h'` has as many places as the heap `h`, or more, and every function of `h'` is one of
`h`. -/
structure AddsNoFunction (h h' : Heap) : Prop where
  grows : h.objects.size ≤ h'.objects.size
  old : ∀ place block cells, h'.HasFunction place block cells → h.HasFunction place block cells

namespace AddsNoFunction

theorem refl (h : Heap) : AddsNoFunction h h := ⟨Nat.le_refl _, fun _ _ _ hf => hf⟩

theorem trans {h' h'' : Heap} (first : AddsNoFunction h h') (second : AddsNoFunction h' h'') :
    AddsNoFunction h h'' :=
  ⟨Nat.le_trans first.grows second.grows,
    fun place block cells hf => first.old place block cells (second.old place block cells hf)⟩

end AddsNoFunction

/-- Changing an object adds no function if a live function it becomes was there before. -/
theorem addsNoFunction_modify {place : Nat} {g : Object → Object}
    (hg : ∀ o block cells, (g o).released = false → (g o).body = .closure block cells → o.released =
      false ∧ o.body = .closure block cells) :
    AddsNoFunction h { h with objects := h.objects.modify place g } := by
  refine ⟨by simp, ?_⟩
  rintro other block cells ⟨o, ho, hreleased, hbody⟩
  rw [Array.getElem?_modify] at ho
  split at ho
  · obtain ⟨o', ho', rfl⟩ := Option.map_eq_some_iff.mp ho
    obtain ⟨hreleased', hbody'⟩ := hg o' block cells hreleased hbody
    exact ⟨o', ho', hreleased', hbody'⟩
  · exact ⟨o, ho, hreleased, hbody⟩

theorem addsNoFunction_push {body : Body} (hbody : ∀ block cells, body ≠ .closure block cells) :
    AddsNoFunction h (h.newObject body).2 := by
  refine ⟨by simp [newObject], ?_⟩
  rintro place block cells ⟨o, ho, hreleased, ho'⟩
  simp only [newObject, Array.getElem?_push] at ho
  split at ho
  · cases ho
    exact absurd ho' (hbody block cells)
  · exact ⟨o, ho, hreleased, ho'⟩

theorem addsNoFunction_strings {h' : Heap} (hobjects : h'.objects = h.objects) :
    AddsNoFunction h h' := by
  refine ⟨Nat.le_of_eq (congrArg Array.size hobjects.symm), ?_⟩
  rintro place block cells ⟨o, ho, hlive⟩
  rw [hobjects] at ho
  exact ⟨o, ho, hlive⟩

theorem addsNoFunction_retainObject (h : Heap) (place : Nat) :
    AddsNoFunction h (h.retainObject place) :=
  addsNoFunction_modify fun _ _ _ hreleased hbody => ⟨hreleased, hbody⟩

theorem addsNoFunction_retain (h : Heap) (v : Value) : AddsNoFunction h (h.retain v) := by
  unfold retain
  split
  · exact addsNoFunction_retainObject h _
  · exact .refl h

theorem addsNoFunction_retainAll (h : Heap) (vs : List Value) :
    AddsNoFunction h (h.retainAll vs) := by
  induction vs generalizing h with
  | nil => exact .refl h
  | cons v rest ih => exact (addsNoFunction_retain h v).trans (ih (h.retain v))

theorem addsNoFunction_retainObjects (h : Heap) (places : List Nat) :
    AddsNoFunction h (places.foldl retainObject h) := by
  induction places generalizing h with
  | nil => exact .refl h
  | cons place rest ih => exact (addsNoFunction_retainObject h place).trans (ih _)

theorem addsNoFunction_disown (h : Heap) (place : Nat) : AddsNoFunction h (h.disown place) := by
  refine addsNoFunction_modify fun o block cells hreleased hbody => ?_
  unfold Object.disown at hreleased hbody
  split at hreleased
  · cases hreleased
  · rename_i howners
    rw [if_neg howners] at hbody
    exact ⟨hreleased, hbody⟩

theorem addsNoFunction_releaseAll (h : Heap) (work : List Value) :
    AddsNoFunction h (h.releaseAll work) := by
  fun_induction releaseAll h work with
  | case1 h => exact .refl h
  | case2 h v rest hfound ih => exact ih
  | case3 h v rest place o hfound ih => exact (addsNoFunction_disown h place).trans ih

theorem addsNoFunction_release (h : Heap) (v : Value) : AddsNoFunction h (h.release v) :=
  addsNoFunction_releaseAll h [v]

theorem addsNoFunction_load (h : Heap) (d : Datum) : AddsNoFunction h (h.load d).2 := by
  cases d <;> exact addsNoFunction_strings rfl

theorem setElement_body {o : Object} {key : Key} {v : Value} {block : Nat} {cells : List Nat}
    (h : (o.setElement key v).1.body = .closure block cells) :
    (o.setElement key v).1.released = o.released ∧ o.body = .closure block cells := by
  obtain ⟨body, owners, released⟩ := o
  cases body with
  | composite c => cases h
  | cell content => cases h
  | closure block' cells' => exact ⟨rfl, h⟩

theorem addsNoFunction_putElement (h : Heap) (place : Nat) (key : Key) (v : Value) :
    AddsNoFunction h (h.putElement place key v) := by
  have hput : ∀ o, h.objects[place]? = some o →
      AddsNoFunction h { h with objects :=
        (h.objects.setIfInBounds place default).setIfInBounds place (o.setElement key v).1 } := by
    intro o ho
    refine ⟨by simp, ?_⟩
    rintro other block cells ⟨o', ho', hreleased, hbody⟩
    simp only [Array.getElem?_setIfInBounds, Array.size_setIfInBounds] at ho'
    split at ho'
    · rename_i hplace
      subst hplace
      split at ho'
      · cases ho'
        obtain ⟨hsame, hbody'⟩ := setElement_body hbody
        exact ⟨o, ho, hsame ▸ hreleased, hbody'⟩
      · cases ho'
    · exact ⟨o', ho', hreleased, hbody⟩
  obtain ⟨strings, objects⟩ := h
  unfold putElement
  dsimp only
  split
  · exact .refl _
  · rename_i o ho
    split
    · exact (hput o ho).trans (addsNoFunction_release _ _)
    · exact hput o ho

end Heap

end Inkwell
