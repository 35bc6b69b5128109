import Mathlib
import Inkwell.Proofs.Heap.Counts

/-!
# Exact counts and the contents of objects

New objects, and changes of what an object holds. A value that goes into an object stops being a
root, and a value that an object gives up becomes one.
-/

namespace Inkwell

open List

/-! ## The elements of a composite -/

/-- A value that takes the place of another in a list. -/
theorem cons_set_perm {α : Type} {l : List α} {i : Nat} {old : α} (new : α)
    (h : l[i]? = some old) : (new :: l).Perm (old :: l.set i new) := by
  obtain ⟨hlt, rfl⟩ := List.getElem?_eq_some_iff.mp h
  have hrest := (List.getElem_cons_eraseIdx_perm hlt).symm.cons new
  exact (hrest.trans (.swap _ _ _)).trans ((List.set_perm_cons_eraseIdx hlt new).symm.cons _)

namespace Composite

variable {c : Composite}

/-- The elements that follow the dense part move, but none appears or goes. -/
theorem values_settle (rounds : Nat) (c : Composite) : (settle rounds c).values.Perm c.values := by
  induction rounds generalizing c with
  | zero => exact .refl _
  | succ rounds ih =>
    unfold settle
    split
    · exact .refl _
    · rename_i place _
      split
      · exact .refl _
      · rename_i e he
        refine (ih _).trans ?_
        obtain ⟨hlt, hget⟩ := Array.getElem?_eq_some_iff.mp he
        have hmoved : (e.value :: (c.sparse.toList.eraseIdx place).map (·.value)).Perm
            (c.sparse.toList.map (·.value)) := by
          have hlt' : place < c.sparse.toList.length := by simpa using hlt
          have hmap := (getElem_cons_eraseIdx_perm hlt').map (·.value)
          simpa [hget] using hmap
        have herase : (c.sparse.eraseIdxIfInBounds place).toList =
            c.sparse.toList.eraseIdx place := by
          simp [Array.eraseIdxIfInBounds, hlt]
        simp only [values, Array.toList_push, herase, append_assoc, singleton_append]
        exact hmoved.append_left _

theorem values_setSparse (c : Composite) (label : Text) (key : Datum) (v : Value) :
    (v :: c.values).Perm
      ((c.setSparse label key v).2.toList ++ (c.setSparse label key v).1.values) := by
  unfold setSparse
  split
  · rename_i place hplace
    obtain ⟨hlt, -⟩ := Array.findIdx?_eq_some_iff_getElem.mp hplace
    have hget : c.sparse[place]? = some c.sparse[place] := Array.getElem?_eq_getElem hlt
    have hmodify : (c.sparse.modify place fun e => { e with value := v }).toList.map (·.value) =
        (c.sparse.toList.map (·.value)).set place v := by
      refine ext_getElem? fun i => ?_
      rw [Array.toList_modify, getElem?_map, getElem?_modify, getElem?_set]
      by_cases hi : place = i
      · subst hi
        simp [hlt]
      · simp [hi]
    simp only [hget, Option.map_some, Option.toList_some, singleton_append, values, hmodify]
    have hold : (c.sparse.toList.map (·.value))[place]? = some c.sparse[place].value := by
      simp [hget]
    exact (perm_middle.symm.trans ((cons_set_perm v hold).append_left _)).trans perm_middle
  · simp only [Option.toList_none, nil_append, values, Array.toList_push, map_append,
      map_cons, map_nil, ← append_assoc]
    exact (perm_append_singleton _ _).symm

/-- The new element comes in, and the one it replaces, if any, goes out. -/
theorem values_set (c : Composite) (key : Key) (v : Value) :
    (v :: c.values).Perm ((c.set key v).2.toList ++ (c.set key v).1.values) := by
  unfold set
  cases key with
  | label text given => exact values_setSparse c _ _ v
  | index i =>
    dsimp only
    split
    · rename_i hlt
      have hold : c.dense.toList[i]? = some c.dense[i] := by simp [hlt]
      simp only [Array.getElem?_eq_getElem hlt, Option.toList_some, singleton_append, values,
        Array.toList_setIfInBounds]
      exact (cons_set_perm v hold).append_right _
    · split
      · simp only [Option.toList_none, nil_append]
        refine List.Perm.trans ?_ (values_settle _ _).symm
        simp only [values, Array.toList_push, append_assoc, singleton_append]
        exact perm_middle.symm
      · exact values_setSparse c _ _ v

/-- What is found under a key is an element. -/
theorem get_mem (c : Composite) (key : Key) : c.get key = .empty ∨ c.get key ∈ c.values := by
  have hsparse : ∀ text given, c.get (.label text given) = .empty ∨
      c.get (.label text given) ∈ c.values := by
    intro text given
    unfold get
    dsimp only
    split
    · rename_i e he
      refine .inr (mem_append_right _ (mem_map.mpr ⟨e, ?_, rfl⟩))
      exact Array.mem_toList_iff.mpr (Array.mem_of_find?_eq_some he)
    · exact .inl rfl
  cases key with
  | label text given => exact hsparse text given
  | index i =>
    have hget : c.get (.index i) = c.dense[i]?.getD (c.get (.label (Text.ofNat i) default)) := rfl
    rw [hget]
    cases hi : c.dense[i]? with
    | none => exact hsparse _ _
    | some v =>
      exact .inr (mem_append_left _ (Array.mem_toList_iff.mpr (Array.mem_of_getElem? hi)))

end Composite

/-! ## Objects -/

namespace Heap

variable {v : Value} {place : Nat} {body : Body} {o : Object}
variable {h : Heap} {roots : List Value}

theorem lt_of_lives (hv : h.Lives v) (hplace : v.object? = some place) :
    place < h.objects.size := by
  obtain ⟨o, ho, -⟩ := hv place hplace
  exact (Array.getElem?_eq_some_iff.mp ho).1

theorem lives_newObject (hv : h.Lives v) :
    (h.newObject body).2.Lives v := by
  intro place hplace
  obtain ⟨o, ho, hlive⟩ := hv place hplace
  have hlt := (Array.getElem?_eq_some_iff.mp ho).1
  refine ⟨o, ?_, hlive⟩
  simp only [newObject, Array.getElem?_push]
  rw [if_neg (by omega), ho]

/-- A new object takes over what it holds; nothing refers to the object yet. -/
theorem Exact.newObject (hexact : h.Exact (body.owned ++ roots)) :
    (h.newObject body).2.Exact roots := by
  have hheld : (h.newObject body).2.held = h.held ++ body.owned := by
    simp [held, Heap.newObject, Object.held]
  refine ⟨fun place o ho => ?_, fun v hv => ?_⟩
  · simp only [Heap.newObject, Array.getElem?_push] at ho
    rw [hheld, append_assoc]
    split at ho
    · rename_i hplace
      cases ho
      -- The place is new, so that no value refers to it.
      have hnone : references place (h.held ++ (body.owned ++ roots)) = 0 := by
        unfold references
        rw [countP_eq_zero]
        intro v hv hrefers
        have hlt := lt_of_lives (hexact.lives v hv) (by simpa using hrefers)
        omega
      exact hnone.symm
    · exact hexact.owners place o ho
  · refine lives_newObject (hexact.lives v ?_)
    rw [hheld, append_assoc] at hv
    exact hv

/-- Values that go into an object, and values that it gives up. -/
theorem Exact.setBody (incoming outgoing : List Value) (hexact : h.Exact (incoming ++ roots))
    (ho : h.objects[place]? = some o) (hlive : o.released = false)
    (hkind : ∀ v, o.body.Suits v → body.Suits v)
    (hperm : (incoming ++ o.body.owned).Perm (outgoing ++ body.owned)) :
    (h.modified place fun o => { o with body }).Exact (outgoing ++ roots) := by
  have hheld : o.held = o.body.owned := by simp [Object.held, hlive]
  have hheld' : ({ o with body } : Object).held = body.owned := by simp [Object.held, hlive]
  have hcount : ∀ p, references p (o.held ++ (incoming ++ roots)) =
      references p (({ o with body } : Object).held ++ (outgoing ++ roots)) := by
    intro p
    have hsame := references_perm p hperm
    simp only [hheld, hheld', references_append] at hsame ⊢
    omega
  refine hexact.changed (f := fun o => { o with body }) ho (fun other _ => hcount other) ?_
    (fun v hreleased hsuits => ⟨hreleased, hkind v hsuits⟩) ?_
  · rw [hcount]
  · intro v hv
    have hmem : v ∈ incoming ++ o.body.owned ∨ v ∈ roots := by
      simp only [hheld', mem_append] at hv
      rcases hv with hv | hv | hv
      · exact .inl (hperm.mem_iff.mpr (mem_append_right _ hv))
      · exact .inl (hperm.mem_iff.mpr (mem_append_left _ hv))
      · exact .inr hv
    rcases hmem with hmem | hmem
    · rcases mem_append.mp hmem with hmem | hmem
      · exact hexact.root_lives (mem_append_left _ hmem)
      · exact hexact.held_lives ho hlive hmem
    · exact hexact.root_lives (mem_append_right _ hmem)

/-- A cell gets a new content. -/
theorem Exact.setCell {old : Value} (hexact : h.Exact (v :: roots))
    (ho : h.objects[place]? = some o) (hlive : o.released = false) (hbody : o.body = .cell old) :
    (h.modified place fun o => { o with body := .cell v }).Exact (old :: roots) := by
  refine Exact.setBody [v] [old] hexact ho hlive ?_ ?_
  · intro w hw
    rw [hbody] at hw
    cases w <;> first | exact hw.elim | trivial
  · rw [hbody]
    exact .swap _ _ _

/-- What putting an element does: the body changes, and the element it replaces, if any, is
released. -/
theorem putElement_eq {c : Composite} (key : Key) (v : Value) (ho : h.objects[place]? = some o)
    (hbody : o.body = .composite c) :
    h.putElement place key v =
      (h.modified place fun o => { o with body := .composite (c.set key v).1 }).releaseAll
        (c.set key v).2.toList := by
  have hset : o.setElement key v =
      ({ o with body := .composite (c.set key v).1 }, (c.set key v).2) := by
    obtain ⟨body, owners, released⟩ := o
    simp only at hbody
    subst hbody
    rfl
  have hobjects : (h.objects.setIfInBounds place default).setIfInBounds place
      { o with body := .composite (c.set key v).1 } =
      h.objects.modify place fun o => { o with body := .composite (c.set key v).1 } := by
    refine Array.ext_getElem? fun i => ?_
    simp only [Array.getElem?_setIfInBounds, Array.size_setIfInBounds, Array.getElem?_modify]
    have hlt := (Array.getElem?_eq_some_iff.mp ho).1
    by_cases hi : place = i
    · subst hi
      rw [if_pos rfl, if_pos rfl, ho, if_pos hlt]
      rfl
    · simp [hi]
  obtain ⟨strings, objects⟩ := h
  simp only [putElement, ho, hset, hobjects, modified]
  cases (c.set key v).2 with
  | none => exact (releaseAll_nil _).symm
  | some old => rfl

/-- A composite gets a new element. -/
theorem Exact.putElement {c : Composite} {key : Key} (hexact : h.Exact (v :: roots))
    (ho : h.objects[place]? = some o) (hlive : o.released = false) (hbody : o.body = .composite c) :
    (h.putElement place key v).Exact roots := by
  rw [putElement_eq key v ho hbody]
  refine Exact.releaseAll (Exact.setBody [v] _ hexact ho hlive ?_ ?_)
  · intro w hw
    rw [hbody] at hw
    cases w <;> first | exact hw.elim | trivial
  · rw [hbody]
    exact Composite.values_set c key v

/-- The places of cells, retained one after the other. -/
theorem foldl_retainObject_eq (h : Heap) (places : List Nat) :
    places.foldl retainObject h = h.retainAll (places.map .cell) := by
  unfold retainAll
  rw [foldl_map]
  rfl

theorem retainObject_eq_function (h : Heap) (place : Nat) :
    h.retainObject place = h.retain (.function place) := rfl

end Heap

end Inkwell
