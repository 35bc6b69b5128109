import Mathlib
import Inkwell.Proofs.Machine.Results

/-!
# Releasing in any order

Values that lose an owner wait in a list, and what an object held is put in front of those that wait
already. Any other order gives the same heap (`Heap.releaseAll_perm`). Two values in a row may change
places: objects at different places lose their owners independently of one another, and values of the
same object are alike. Either way one owner less is left in the heap, so what waits after that is
permuted by induction on the number of owners, whether or not they are the owners that there are.

One step takes any of the values that wait (`Heap.Releases`). There are only finitely many steps in a
row, and all of them together come to one heap (`Heap.release_anyOrder`).
-/

namespace Inkwell.Heap

section

variable {h : Heap} {u v : Value} {place : Nat} {o : Object} {work work' : List Value}

theorem disownable?_congr (h : Heap) (hsame : u.object? = v.object?) :
    h.disownable? u = h.disownable? v := by
  unfold disownable?
  rw [hsame]

theorem releaseAll_congr (h : Heap) (rest : List Value) (hsame : u.object? = v.object?) :
    h.releaseAll (u :: rest) = h.releaseAll (v :: rest) := by
  have hfound := h.disownable?_congr hsame
  cases hv : h.disownable? v with
  | none => rw [releaseAll_cons_of_none (hfound.trans hv), releaseAll_cons_of_none hv]
  | some found => rw [releaseAll_cons_of_some (hfound.trans hv), releaseAll_cons_of_some hv]

/-- An object at another place stays as it is. -/
theorem disownable?_disown_of_ne (h : Heap) (hne : v.object? ≠ some place) :
    (h.disown place).disownable? v = h.disownable? v := by
  unfold disownable?
  cases hv : v.object? with
  | none => rfl
  | some q =>
    have hq : place ≠ q := fun heq => hne (heq ▸ hv)
    simp only [disown, Array.getElem?_modify, if_neg hq]

theorem disown_comm (h : Heap) (p q : Nat) : (h.disown p).disown q = (h.disown q).disown p := by
  simp only [disown, mk.injEq, true_and]
  refine Array.ext_getElem? fun i => ?_
  simp only [Array.getElem?_modify]
  split <;> split <;> rfl

/-- The first of two values, if it is the only one of an object that can lose an owner. -/
theorem releaseAll_swap_of_none
    (ih : ∀ h' : Heap, h'.totalOwners < h.totalOwners → ∀ {work work' : List Value},
      work.Perm work' → h'.releaseAll work = h'.releaseAll work')
    (hu : h.disownable? u = some (place, o)) (hv : h.disownable? v = none) (rest : List Value) :
    h.releaseAll (u :: v :: rest) = h.releaseAll (v :: u :: rest) := by
  have hne : v.object? ≠ some place := fun heq => by
    rw [h.disownable?_congr (heq.trans (disownable?_eq_some hu).1.symm), hu] at hv
    cases hv
  rw [releaseAll_cons_of_some hu, releaseAll_cons_of_none hv, releaseAll_cons_of_some hu,
    ih _ (totalOwners_disown_lt hu) List.perm_middle,
    releaseAll_cons_of_none ((h.disownable?_disown_of_ne hne).trans hv)]

/-- Two values in a row may change places, if all may that come after the first object. -/
theorem releaseAll_swap
    (ih : ∀ h' : Heap, h'.totalOwners < h.totalOwners → ∀ {work work' : List Value},
      work.Perm work' → h'.releaseAll work = h'.releaseAll work') (u v : Value) (rest : List Value) :
    h.releaseAll (u :: v :: rest) = h.releaseAll (v :: u :: rest) := by
  cases hu : h.disownable? u with
  | none =>
    cases hv : h.disownable? v with
    | none =>
      rw [releaseAll_cons_of_none hu, releaseAll_cons_of_none hv, releaseAll_cons_of_none hv,
        releaseAll_cons_of_none hu]
    | some found => exact (releaseAll_swap_of_none ih hv hu rest).symm
  | some found =>
    obtain ⟨p, o⟩ := found
    have hless := totalOwners_disown_lt hu
    have hfirst : h.releaseAll (u :: v :: rest) = (h.disown p).releaseAll (v :: (o.passedOn ++ rest)) := by
      rw [releaseAll_cons_of_some hu, ih _ hless List.perm_middle]
    by_cases hsame : u.object? = v.object?
    · have hv := (h.disownable?_congr hsame).symm.trans hu
      rw [hfirst, releaseAll_cons_of_some hv, ih _ hless List.perm_middle, releaseAll_congr _ _ hsame]
    cases hv : h.disownable? v with
    | none => exact releaseAll_swap_of_none ih hu hv rest
    | some found =>
      obtain ⟨q, o'⟩ := found
      have hp := (disownable?_eq_some hu).1
      have hq := (disownable?_eq_some hv).1
      have hv' := (h.disownable?_disown_of_ne fun heq => hsame (hp.trans heq.symm)).trans hv
      have hu' := (h.disownable?_disown_of_ne fun heq => hsame (heq.trans hq.symm)).trans hu
      have hperm : (o'.passedOn ++ (o.passedOn ++ rest)).Perm (o.passedOn ++ (o'.passedOn ++ rest)) := by
        rw [← List.append_assoc, ← List.append_assoc]
        exact List.perm_append_comm.append_right rest
      calc h.releaseAll (u :: v :: rest)
          = ((h.disown p).disown q).releaseAll (o'.passedOn ++ (o.passedOn ++ rest)) :=
            hfirst.trans (releaseAll_cons_of_some hv')
        _ = ((h.disown q).disown p).releaseAll (o.passedOn ++ (o'.passedOn ++ rest)) := by
            rw [ih _ ((totalOwners_disown_lt hv').trans hless) hperm, disown_comm]
        _ = (h.disown q).releaseAll (u :: (o'.passedOn ++ rest)) := (releaseAll_cons_of_some hu').symm
        _ = h.releaseAll (v :: u :: rest) := by
            rw [releaseAll_cons_of_some hv, ih _ (totalOwners_disown_lt hv) List.perm_middle]

/-- The order in which values lose an owner makes no difference. -/
theorem releaseAll_perm (h : Heap) (hperm : work.Perm work') :
    h.releaseAll work = h.releaseAll work' := by
  induction hn : h.totalOwners using Nat.strong_induction_on generalizing h work work' with
  | _ n ih =>
    subst hn
    have hless : ∀ h' : Heap, h'.totalOwners < h.totalOwners → ∀ {work work' : List Value},
        work.Perm work' → h'.releaseAll work = h'.releaseAll work' :=
      fun h' hlt _ _ hperm => ih _ hlt h' hperm rfl
    induction hperm with
    | nil => rfl
    | cons v hrest ihrest =>
      cases hv : h.disownable? v with
      | none => rw [releaseAll_cons_of_none hv, releaseAll_cons_of_none hv, ihrest]
      | some found =>
        rw [releaseAll_cons_of_some hv, releaseAll_cons_of_some hv]
        exact hless _ (totalOwners_disown_lt hv) (hrest.append_left _)
    | swap u v rest => exact releaseAll_swap hless v u rest
    | trans _ _ hfirst hsecond => exact hfirst.trans hsecond

end

/-- One of the values that wait loses its owner, and what its object held, if that was the last one,
waits too. -/
inductive Releases : Heap × List Value → Heap × List Value → Prop
  | skip {h : Heap} {work rest : List Value} (v : Value) (chosen : work.Perm (v :: rest))
      (kept : h.disownable? v = none) : Releases (h, work) (h, rest)
  | disown {h : Heap} {work work' rest : List Value} {place : Nat} {o : Object} (v : Value)
      (chosen : work.Perm (v :: rest)) (found : h.disownable? v = some (place, o))
      (later : work'.Perm (o.passedOn ++ rest)) : Releases (h, work) (h.disown place, work')

theorem Releases.releaseAll_eq {s s' : Heap × List Value} (hstep : Releases s s') :
    s'.1.releaseAll s'.2 = s.1.releaseAll s.2 := by
  cases hstep with
  | skip v chosen kept => rw [releaseAll_perm _ chosen, releaseAll_cons_of_none kept]
  | disown v chosen found later =>
    rw [releaseAll_perm _ chosen, releaseAll_cons_of_some found, releaseAll_perm _ later]

/-- Every step leaves fewer owners, or as many and fewer values that wait. -/
theorem wellFounded_releases : WellFounded fun s' s => Releases s s' := by
  refine Subrelation.wf (fun {s' s} hstep => ?_) (InvImage.wf
    (fun s : Heap × List Value => (s.1.totalOwners, s.2.length)) (Prod.lex Nat.lt_wfRel Nat.lt_wfRel).wf)
  cases hstep with
  | @skip h work rest v chosen kept =>
    have hless : rest.length < work.length := by
      rw [chosen.length_eq]
      exact Nat.lt_succ_self _
    exact Prod.Lex.right _ hless
  | disown v chosen found later => exact Prod.Lex.left _ _ (totalOwners_disown_lt found)

theorem releases_releaseAll (h : Heap) (work : List Value) :
    Relation.ReflTransGen Releases (h, work) (h.releaseAll work, []) := by
  fun_induction releaseAll h work with
  | case1 h => exact .refl
  | case2 h v rest hfound ih => exact ih.head (.skip v .rfl hfound)
  | case3 h v rest place o hfound ih => exact ih.head (.disown v .rfl hfound .rfl)

/-- **Releasing in any order.** Two values may be released one after the other or the other way round.
Steps that take the values that wait in any order come to an end, and to the same heap. -/
theorem release_anyOrder (h : Heap) (a b : Value) :
    (h.release a).release b = (h.release b).release a ∧
      (WellFounded fun s' s => Releases s s') ∧
      ∀ work h', Relation.ReflTransGen Releases (h, work) (h', []) ↔ h' = h.releaseAll work := by
  refine ⟨?_, wellFounded_releases, fun work h' => ⟨fun hsteps => ?_, fun heq => ?_⟩⟩
  · have hpair : ∀ u v : Value, (h.release u).release v = h.releaseAll [u, v] := fun u v =>
      (releaseAll_append h [u] [v]).symm
    rw [hpair, hpair]
    exact releaseAll_perm h (.swap b a [])
  · have hkeep : ∀ s, Relation.ReflTransGen Releases (h, work) s →
        s.1.releaseAll s.2 = h.releaseAll work := by
      intro s hs
      induction hs with
      | refl => rfl
      | tail _ hstep ih => exact hstep.releaseAll_eq.trans ih
    have hend := hkeep _ hsteps
    rwa [releaseAll_nil] at hend
  · exact heq ▸ releases_releaseAll h work

end Inkwell.Heap
