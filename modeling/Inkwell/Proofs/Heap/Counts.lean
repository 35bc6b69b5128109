import Mathlib.Tactic.Common
import Inkwell.Proofs.Machine.Results

/-!
# Exact owner counts

A heap is exact for a list of values, its roots, when the owners of every object are as many as the
references to it: those that unreleased objects hold, and those among the roots (`Heap.Exact`). The
roots are what registers, frames and the host own.

Retaining a value adds it to the roots, releasing one takes it away, and a change of the contents of
an object moves values between the roots and the object. Nothing else is needed about single
operations: that no reference is to a released object is part of exactness.
-/

namespace Inkwell

open List

variable {vs : List Value} {place : Nat} {v : Value} {o : Object}

/-! ## References -/

/-- How many of the values refer to the object at a place. -/
def references (place : Nat) (vs : List Value) : Nat := vs.countP fun v => v.object? = some place

@[simp] theorem references_nil (place : Nat) : references place [] = 0 := rfl

theorem references_cons (place : Nat) (v : Value) (vs : List Value) :
    references place (v :: vs) = references place vs + if v.object? = some place then 1 else 0 := by
  simp [references, countP_cons]

@[simp] theorem references_append (place : Nat) (vs ws : List Value) :
    references place (vs ++ ws) = references place vs + references place ws :=
  countP_append

theorem references_perm (place : Nat) {ws : List Value} (h : vs.Perm ws) :
    references place vs = references place ws := h.countP_eq _

theorem references_pos (hv : v ∈ vs) (hplace : v.object? = some place) : 0 < references place vs :=
  countP_pos_iff.mpr ⟨v, hv, by simpa using hplace⟩

/-- What an object is an owner of; a released one owns nothing. -/
def Object.held (o : Object) : List Value := if o.released then [] else o.body.owned

/-- Whether a body is that of an object that a value of some kind refers to. -/
def Body.Suits : Body → Value → Prop
  | .composite _, .composite _ => True
  | .cell _, .cell _ => True
  | .closure _ _, .function _ => True
  | _, _ => False

/-- Changing one element of a list changes the concatenation only in the part of that element. -/
theorem flatMap_modify_perm {α β : Type} {l : List α} {i : Nat} {a : α} (f : α → α) (g : α → List β)
    (h : l[i]? = some a) : ((l.modify i f).flatMap g ++ g a).Perm (l.flatMap g ++ g (f a)) := by
  induction l generalizing i with
  | nil => simp at h
  | cons b rest ih =>
    cases i with
    | zero =>
      simp only [getElem?_cons_zero, Option.some.injEq] at h
      subst h
      have hswap : (g (f b) ++ rest.flatMap g ++ g b).Perm
          (g b ++ (rest.flatMap g ++ g (f b))) :=
        perm_append_comm.trans (perm_append_comm.append_left _)
      simpa only [modify_zero_cons, flatMap_cons, append_assoc] using hswap
    | succ i =>
      have hrest := ih (i := i) (by simpa using h)
      simp only [modify_succ_cons, flatMap_cons, append_assoc]
      exact hrest.append_left (g b)

namespace Heap

variable {h : Heap} {f : Object → Object} {roots : List Value}

/-- Everything that the objects of a heap own. -/
def held (h : Heap) : List Value := h.objects.toList.flatMap Object.held

/-- A value refers to no object, or to one of its kind that has not been released. -/
def Lives (h : Heap) (v : Value) : Prop :=
  ∀ place, v.object? = some place →
    ∃ o, h.objects[place]? = some o ∧ o.released = false ∧ o.body.Suits v

/-- The owners of every object are the references to it among the roots and in the objects. -/
structure Exact (h : Heap) (roots : List Value) : Prop where
  owners : ∀ (place : Nat) (o : Object), h.objects[place]? = some o →
    o.owners = references place (h.held ++ roots)
  lives : ∀ v ∈ h.held ++ roots, h.Lives v

theorem lives_of_none (hv : v.object? = none) : h.Lives v := by
  intro place hplace
  rw [hv] at hplace
  cases hplace

namespace Exact

variable {h : Heap} {roots roots' : List Value}

variable (hexact : h.Exact roots)

include hexact

theorem perm (hperm : roots.Perm roots') : h.Exact roots' where
  owners := fun place o ho => by
    rw [hexact.owners place o ho]
    exact references_perm place (hperm.append_left h.held)
  lives := fun v hv => hexact.lives v ((hperm.append_left h.held).mem_iff.mpr hv)

theorem root_lives (hv : v ∈ roots) : h.Lives v :=
  hexact.lives v (mem_append_right _ hv)

/-- What an unreleased object holds lives. -/
theorem held_lives (ho : h.objects[place]? = some o)
    (hreleased : o.released = false) (hv : v ∈ o.body.owned) : h.Lives v := by
  refine hexact.lives v (mem_append_left _ ?_)
  refine mem_flatMap.mpr ⟨o, Array.mem_toList_iff.mpr (Array.mem_of_getElem? ho), ?_⟩
  simpa [Object.held, hreleased] using hv

/-- Values that refer to no object make no difference. -/
theorem cons_of_none (hv : v.object? = none) : h.Exact (v :: roots) where
  owners := fun place o ho => by
    rw [hexact.owners place o ho]
    simp [references_cons, hv]
  lives := fun w hw => by
    simp only [mem_append, mem_cons] at hw
    rcases hw with hw | rfl | hw
    · exact hexact.lives w (mem_append_left _ hw)
    · exact lives_of_none hv
    · exact hexact.root_lives hw

omit hexact in
theorem of_cons_none (hexact : h.Exact (v :: roots)) (hv : v.object? = none) :
    h.Exact roots where
  owners := fun place o ho => by
    rw [hexact.owners place o ho]
    simp [references_cons, hv]
  lives := fun w hw => hexact.lives w (by
    simp only [mem_append, mem_cons] at hw ⊢
    rcases hw with hw | hw
    · exact .inl hw
    · exact .inr (.inr hw))

/-- New strings change no count. -/
theorem strings {h' : Heap} (hobjects : h'.objects = h.objects) : h'.Exact roots := by
  have hheld : h'.held = h.held := by simp [held, hobjects]
  refine ⟨fun place o ho => ?_, fun v hv place hplace => ?_⟩
  · rw [hheld]
    exact hexact.owners place o (by rw [← hobjects]; exact ho)
  · rw [hobjects]
    exact hexact.lives v (by rw [← hheld]; exact hv) place hplace

end Exact

/-! ## Owners -/

/-- The heap with the object at a place changed. -/
def modified (h : Heap) (place : Nat) (f : Object → Object) : Heap :=
  { h with objects := h.objects.modify place f }

theorem getElem?_modified {other : Nat} :
    (h.modified place f).objects[other]? =
      if place = other then h.objects[other]?.map f else h.objects[other]? := by
  simp [modified, Array.getElem?_modify]

section Modified

variable (ho : h.objects[place]? = some o)

include ho

/-- A changed object changes what is held only in its own part. -/
theorem held_modified_perm (f : Object → Object) :
    ((h.modified place f).held ++ o.held).Perm (h.held ++ (f o).held) := by
  unfold held modified
  rw [Array.toList_modify]
  exact flatMap_modify_perm f Object.held (by simpa using ho)

theorem lives_modified (hv : h.Lives v)
    (hf : v.object? = some place → o.released = false → o.body.Suits v → (f o).released = false ∧ (f
      o).body.Suits v) : (h.modified place f).Lives v := by
  intro other hother
  obtain ⟨o', ho', hreleased, hsuits⟩ := hv other hother
  rw [getElem?_modified]
  split
  · rename_i hsame
    subst hsame
    rw [ho] at ho'
    cases ho'
    exact ⟨f o, by rw [ho]; rfl, hf hother hreleased hsuits⟩
  · exact ⟨o', ho', hreleased, hsuits⟩

theorem mem_held_modified (hv : v ∈ (h.modified place f).held) :
    v ∈ h.held ∨ v ∈ (f o).held := by
  have hmem := (held_modified_perm ho f).mem_iff.mp (mem_append_left _ hv)
  exact mem_append.mp hmem

theorem mem_held (hv : v ∈ o.held) : v ∈ h.held :=
  mem_flatMap.mpr ⟨o, Array.mem_toList_iff.mpr (Array.mem_of_getElem? ho), hv⟩

variable {roots' : List Value} (hexact : h.Exact roots)
  (hothers : ∀ other ≠ place,
    references other (o.held ++ roots) = references other ((f o).held ++ roots'))
  (hown : (f o).owners + references place (o.held ++ roots) =
    o.owners + references place ((f o).held ++ roots'))

include hexact hothers hown

/-- The counts stay exact when the owners of a changed object follow the references to it, and the
references to all others stay. -/
theorem Exact.modified
    (hlives : ∀ v ∈ (h.modified place f).held ++ roots', (h.modified place f).Lives v) :
    (h.modified place f).Exact roots' := by
  refine ⟨fun other o' ho' => ?_, hlives⟩
  have hperm : ∀ p, references p (h.modified place f).held + references p o.held =
      references p h.held + references p (f o).held := by
    intro p
    have hcount := references_perm p (held_modified_perm ho f)
    simpa only [references_append] using hcount
  have hold := hperm other
  rw [getElem?_modified] at ho'
  split at ho'
  · rename_i hsame
    subst hsame
    rw [ho] at ho'
    cases ho'
    have howners := hexact.owners place o ho
    simp only [references_append] at hown howners ⊢
    omega
  · rename_i hdifferent
    have howners := hexact.owners other o' ho'
    have hsame := hothers other (Ne.symm hdifferent)
    simp only [references_append] at howners hsame ⊢
    omega

/-- An object that stays unreleased and of its kind. -/
theorem Exact.changed
    (hkind : ∀ v, o.released = false → o.body.Suits v → (f o).released = false ∧ (f o).body.Suits v)
    (hlives : ∀ v ∈ (f o).held ++ roots', h.Lives v) :
    (h.modified place f).Exact roots' := by
  refine hexact.modified ho hothers hown fun v hv => ?_
  have hold : h.Lives v := by
    rcases mem_append.mp hv with hv | hv
    · rcases mem_held_modified ho hv with hv | hv
      · exact hexact.lives v (mem_append_left _ hv)
      · exact hlives v (mem_append_left _ hv)
    · exact hlives v (mem_append_right _ hv)
  exact lives_modified ho hold fun _ hreleased hsuits => hkind v hreleased hsuits

end Modified

/-- Retaining a value that lives makes it a root. -/
theorem Exact.retain (hexact : h.Exact roots) (hv : h.Lives v) : (h.retain v).Exact (v :: roots) :=
    by
  unfold Heap.retain
  cases hobject : v.object? with
  | none => exact hexact.cons_of_none hobject
  | some place =>
    obtain ⟨o, ho, hreleased, hsuits⟩ := hv place hobject
    have hheld : ({ o with owners := o.owners + 1 } : Object).held = o.held := rfl
    refine hexact.changed (f := fun o => { o with owners := o.owners + 1 }) ho ?_ ?_
      (fun _ hreleased hsuits => ⟨hreleased, hsuits⟩) ?_
    · intro other hother
      simp [references_cons, hobject, hheld, Ne.symm hother]
    · simp only [references_append, references_cons, hobject, hheld, if_true]
      omega
    · intro w hw
      simp only [hheld, mem_append, mem_cons] at hw
      rcases hw with hw | rfl | hw
      · exact hexact.lives w (mem_append_left _ (mem_held ho hw))
      · exact hv
      · exact hexact.root_lives hw

theorem lives_retain {w : Value} (hv : h.Lives v) : (h.retain w).Lives v := by
  unfold Heap.retain
  split
  · rename_i place hplace
    cases ho : h.objects[place]? with
    | none =>
      intro other hother
      obtain ⟨o', ho', hlive⟩ := hv other hother
      refine ⟨o', ?_, hlive⟩
      rw [retainObject, Array.getElem?_modify]
      split
      · rename_i hsame
        subst hsame
        rw [ho] at ho'
        cases ho'
      · exact ho'
    | some o => exact lives_modified ho hv fun _ hreleased hsuits => ⟨hreleased, hsuits⟩
  · exact hv

theorem lives_retainAll (hv : h.Lives v) :
    (h.retainAll vs).Lives v := by
  induction vs generalizing h with
  | nil => exact hv
  | cons w rest ih => exact ih (lives_retain hv)

/-- Retaining values that live makes them roots. -/
theorem Exact.retainAll (hexact : h.Exact roots) (hvs : ∀ v ∈ vs, h.Lives v) :
    (h.retainAll vs).Exact (vs ++ roots) := by
  induction vs generalizing h roots with
  | nil => exact hexact
  | cons v rest ih =>
    have hretained := hexact.retain (hvs v (.head _))
    have hrest := ih hretained fun w hw => lives_retain (hvs w (.tail _ hw))
    exact hrest.perm perm_middle

/-- An object whose last owner goes is released; what it held becomes a root. -/
theorem Exact.free (hexact : h.Exact (v :: roots)) (hv : v.object? = some place)
    (ho : h.objects[place]? = some o) (hlive : o.released = false) (hlast : o.owners ≤ 1) :
    (h.disown place).Exact (o.body.owned ++ roots) := by
  have hheld : o.held = o.body.owned := by simp [Object.held, hlive]
  have hfreed : o.disown = { body := o.body.cleared, owners := 0, released := true } := by
    simp [Object.disown, hlast]
  have hnone : o.disown.held = [] := by simp [Object.held, hfreed]
  have hzero : o.disown.owners = 0 := by rw [hfreed]
  have howners := hexact.owners place o ho
  -- The reference that goes is the only one, so that nothing refers to the object any more.
  have hlonely : references place (h.held ++ roots) = 0 := by
    simp only [references_append, references_cons, hv, if_true] at howners ⊢
    omega
  refine hexact.modified (f := Object.disown) ho ?_ ?_ ?_
  · intro other hother
    simp [hheld, hnone, references_cons, hv, Ne.symm hother]
  · simp only [hheld, hnone, hzero, references_append, references_cons, references_nil, hv,
      if_true] at howners ⊢
    omega
  · intro w hw
    have hmem : w ∈ h.held ++ roots := by
      simp only [mem_append] at hw ⊢
      rcases hw with hw | hw | hw
      · rcases mem_held_modified ho hw with hw | hw
        · exact .inl hw
        · rw [hnone] at hw
          cases hw
      · exact .inl (mem_held ho (by rw [hheld]; exact hw))
      · exact .inr hw
    refine lives_modified ho (hexact.lives w ?_) fun hplace => ?_
    · simp only [mem_append, mem_cons] at hmem ⊢
      exact hmem.imp id .inr
    · exact absurd (references_pos hmem hplace) (by omega)

/-- An object that loses one of several owners. -/
theorem Exact.lessen (hexact : h.Exact (v :: roots)) (hv : v.object? = some place)
    (ho : h.objects[place]? = some o) (hmore : ¬ o.owners ≤ 1) : (h.disown place).Exact roots := by
  have hless : o.disown = { o with owners := o.owners - 1 } := by simp [Object.disown, hmore]
  have hheld : o.disown.held = o.held := by rw [hless]; rfl
  have howners : o.disown.owners = o.owners - 1 := by rw [hless]
  refine hexact.changed (f := Object.disown) ho ?_ ?_ ?_ ?_
  · intro other hother
    simp [hheld, references_cons, hv, Ne.symm hother]
  · simp only [hheld, howners, references_append, references_cons, hv, if_true]
    omega
  · intro w hreleased hsuits
    rw [hless]
    exact ⟨hreleased, hsuits⟩
  · intro w hw
    rw [hheld] at hw
    rcases mem_append.mp hw with hw | hw
    · exact hexact.lives w (mem_append_left _ (mem_held ho hw))
    · exact hexact.root_lives (.tail _ hw)

/-- Releasing takes values away from the roots. -/
theorem Exact.releaseAll {work : List Value} (hexact : h.Exact (work ++ roots)) :
    (h.releaseAll work).Exact roots := by
  fun_induction Heap.releaseAll h work with
  | case1 h => exact hexact
  | case2 h v rest hfound ih =>
    refine ih (hexact.of_cons_none ?_)
    cases hobject : v.object? with
    | none => rfl
    | some place =>
      obtain ⟨o, ho, hreleased, -⟩ := hexact.root_lives (.head _) place hobject
      have howners := hexact.owners place o ho
      simp only [cons_append, references_append, references_cons, hobject,
        if_true] at howners
      have hsome : h.disownable? v = some (place, o) := by
        simp only [disownable?, hobject, ho, hreleased, Bool.false_or, decide_eq_true_eq]
        rw [if_neg (by omega)]
      rw [hsome] at hfound
      cases hfound
  | case3 h v rest place o hfound ih =>
    obtain ⟨hobject, ho, hreleased, -⟩ := disownable?_eq_some hfound
    refine ih ?_
    rw [append_assoc]
    by_cases hlast : o.owners ≤ 1
    · simp only [Object.passedOn, hlast, if_true]
      exact hexact.free hobject ho hreleased hlast
    · simp only [Object.passedOn, hlast, if_false]
      exact hexact.lessen hobject ho hlast

end Heap

end Inkwell
