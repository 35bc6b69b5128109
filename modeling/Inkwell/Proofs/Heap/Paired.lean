import Mathlib
import Inkwell.Proofs.Heap.Shadow

/-!
# A heap beside its shadow

What one operation does to a heap with exact counts and to its shadow. The counted heap changes when
owners come and go; the shadow changes only when a program makes an object or changes one.
-/

namespace Inkwell

variable {v : Value} {place : Nat} {o : Object}

namespace Heap

/-- The functions of a heap are still there in another. -/
def KeepsFunctions (p p' : Heap) : Prop :=
  ∀ place block cells, p.HasFunction place block cells → p'.HasFunction place block cells

namespace KeepsFunctions

variable {p p' p'' : Heap}

theorem refl (p : Heap) : p.KeepsFunctions p := fun _ _ _ hf => hf

theorem trans (first : p.KeepsFunctions p') (second : p'.KeepsFunctions p'') :
    p.KeepsFunctions p'' :=
  fun place block cells hf => second place block cells (first place block cells hf)

theorem of_objects (hobjects : p'.objects = p.objects) : p.KeepsFunctions p' := by
  rintro place block cells ⟨o, ho, hlive⟩
  exact ⟨o, by rw [hobjects]; exact ho, hlive⟩

theorem newObject (p : Heap) (body : Body) : p.KeepsFunctions (p.newObject body).2 := by
  rintro place block cells ⟨o, ho, hlive⟩
  have hlt := (Array.getElem?_eq_some_iff.mp ho).1
  refine ⟨o, ?_, hlive⟩
  simp only [Heap.newObject, Array.getElem?_push]
  rw [if_neg (by omega), ho]

/-- An object that is no function may get new contents. -/
theorem setBody (ho : p.objects[place]? = some o)
    (hother : ∀ block cells, o.body ≠ .closure block cells) (body : Body) :
    p.KeepsFunctions (p.modified place fun o => { o with body }) := by
  rintro other block cells ⟨o', ho', hreleased, hbody⟩
  refine ⟨o', ?_, hreleased, hbody⟩
  rw [getElem?_modified, if_neg, ho']
  rintro rfl
  rw [ho] at ho'
  cases ho'
  exact hother block cells hbody

end KeepsFunctions

/-- The heap `h` is exact for the roots, and `p` is its shadow. -/
structure Paired (h p : Heap) (roots : List Value) : Prop where
  exact : h.Exact roots
  shadows : p.Shadows h
  labelled : h.Labelled

namespace Paired

variable {h p : Heap} {roots roots' : List Value} {v : Value}

section

variable (hpaired : h.Paired p roots)

include hpaired

theorem perm (hperm : roots.Perm roots') : h.Paired p roots' :=
  ⟨hpaired.exact.perm hperm, hpaired.shadows, hpaired.labelled⟩

/-- The roots in another order. -/
theorem reorder (others : List Value)
    (hcount : ∀ v, others.count v = roots.count v) : h.Paired p others :=
  hpaired.perm (List.perm_iff_count.mpr fun v => (hcount v).symm)

theorem retain (hv : h.Lives v) : (h.retain v).Paired p (v :: roots) :=
  ⟨hpaired.exact.retain hv, hpaired.shadows.retain v, hpaired.labelled.retain v⟩

theorem retainAll {vs : List Value} (hvs : ∀ v ∈ vs, h.Lives v) :
    (h.retainAll vs).Paired p (vs ++ roots) :=
  ⟨hpaired.exact.retainAll hvs, hpaired.shadows.retainAll vs, hpaired.labelled.retainAll vs⟩

omit hpaired in
theorem releaseAll {work : List Value} (hpaired : h.Paired p (work ++ roots)) :
    (h.releaseAll work).Paired p roots :=
  ⟨hpaired.exact.releaseAll, hpaired.shadows.releaseAll work, hpaired.labelled.releaseAll work⟩

omit hpaired in
theorem release (hpaired : h.Paired p (v :: roots)) : (h.release v).Paired p roots :=
  releaseAll hpaired

theorem cons_of_none (hv : v.object? = none) : h.Paired p (v :: roots) :=
  ⟨hpaired.exact.cons_of_none hv, hpaired.shadows, hpaired.labelled⟩

/-- Values that refer to no object make no difference. -/
theorem append_of_none {vs : List Value}
    (hvs : ∀ v ∈ vs, v.object? = none) : h.Paired p (vs ++ roots) := by
  induction vs with
  | nil => exact hpaired
  | cons v rest ih =>
    exact (ih fun w hw => hvs w (.tail _ hw)).cons_of_none (hvs v (.head _))

theorem strings (strings : Array Text) : Paired { h with strings } { p with strings } roots :=
  ⟨hpaired.exact.strings rfl, hpaired.shadows.strings_changed strings, hpaired.labelled.of_objects rfl⟩

theorem load (d : Datum) :
    (p.load d).1 = (h.load d).1 ∧ (h.load d).2.Paired (p.load d).2 roots :=
  ⟨(hpaired.shadows.load d).1, hpaired.exact.strings (objects_load h d), (hpaired.shadows.load d).2,
    hpaired.labelled.of_objects (objects_load h d)⟩

end

theorem newObject {body : Body} (hpaired : h.Paired p (body.owned ++ roots))
    (hbody : body.Labelled) : (h.newObject body).2.Paired (p.newObject body).2 roots :=
  ⟨hpaired.exact.newObject, hpaired.shadows.newObject body, hpaired.labelled.newObject hbody⟩

/-- The new content of a cell takes the place of the old one among the roots. -/
theorem setCell {old : Value} (hpaired : h.Paired p (v :: roots)) (ho : h.objects[place]? = some o)
    (hlive : o.released = false) (hbody : o.body = .cell old) :
    (h.modified place fun o => { o with body := .cell v }).Paired
      (p.modified place fun o => { o with body := .cell v }) (old :: roots) :=
  ⟨hpaired.exact.setCell ho hlive hbody, hpaired.shadows.setBody place _,
    hpaired.labelled.modified fun _ _ => trivial⟩

theorem putElement {c : Composite} {key : Key} (hpaired : h.Paired p (v :: roots))
    (ho : h.objects[place]? = some o) (hlive : o.released = false) (hbody : o.body = .composite c)
    (hkey : key.datum.isBare = true) :
    (h.putElement place key v).Paired
      (p.modified place fun o => { o with body := .composite (c.set key v).1 }) roots := by
  have hc : c.Labelled := by
    have hlabelled := hpaired.labelled place o ho
    rw [hbody] at hlabelled
    exact hlabelled
  refine ⟨hpaired.exact.putElement ho hlive hbody, ?_, ?_⟩ <;> rw [putElement_eq key v ho hbody]
  · exact (hpaired.shadows.setBody place _).releaseAll _
  · have hset : (Body.composite (c.set key v).1).Labelled := hc.set hkey v
    exact (hpaired.labelled.modified (f := fun o => { o with body := .composite (c.set key v).1 })
      fun _ _ => hset).releaseAll _

/-- A list of data that are no objects. -/
theorem newList (hpaired : h.Paired p roots) {elements : List Datum}
    (helements : ∀ d ∈ elements, d.object? = none) :
    (Native.newList elements p).1 = (Native.newList elements h).1 ∧
      (Native.newList elements h).2.Paired (Native.newList elements p).2 roots := by
  rw [Native.newList_eq helements h, Native.newList_eq helements p, hpaired.shadows.size,
    hpaired.shadows.strings]
  refine ⟨rfl, newObject ((hpaired.strings _).append_of_none ?_) fun e he => ?_⟩
  · simpa [Body.owned, Composite.values] using Native.object?_loadAll helements h.strings
  · exact absurd he (Array.not_mem_empty e)

end Paired

/-- A new object lives. -/
theorem lives_of_newObject {h : Heap} {body : Body} (hplace : v.object? = some h.objects.size)
    (hsuits : body.Suits v) :
    (h.newObject body).2.Lives v := by
  intro place hobject
  rw [hplace] at hobject
  cases hobject
  exact ⟨_, Array.getElem?_push_size, rfl, hsuits⟩

end Heap

/-- What lives is shown in the same way on a machine with the shadow of the heap. -/
theorem Store.inspect_eq {s t : Store} {roots : List Value} (hcode : t.code = s.code)
    (hpaired : s.heap.Paired t.heap roots) (hv : s.heap.Lives v) :
    t.inspect v = s.inspect v := by
  have hblocks : t.block = s.block := by
    funext place
    simp [Store.block, hcode]
  unfold Store.inspect Heap.inspect
  rw [hblocks, hpaired.shadows.size, hpaired.shadows.inspectInside hpaired.exact _ _ _ hv]

/-- What lives looks the same on a machine with the shadow of the heap. -/
theorem Store.sight_eq {s t : Store} {roots : List Value} (hcode : t.code = s.code)
    (hpaired : s.heap.Paired t.heap roots) (hv : s.heap.Lives v) :
    t.sight v = s.sight v := by
  have hshown : t.display v = s.display v := by
    cases v with
    | string buffer => exact hpaired.shadows.text buffer
    | _ => exact Store.inspect_eq hcode hpaired hv
  unfold Store.sight
  rw [hshown]
  cases v with
  | composite place =>
    obtain ⟨o, c, -, -, -, hc, hc', -⟩ := hpaired.shadows.composite hv
    simp only [hc, hc', Heap.typeName, hpaired.shadows.datum]
  | _ => simp only [Heap.typeName, hpaired.shadows.datum, hpaired.shadows.text]

end Inkwell
