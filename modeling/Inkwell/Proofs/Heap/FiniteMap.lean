import Mathlib
import Inkwell.Proofs.Plain.Starts
import Inkwell.Proofs.Value.Keys

/-!
# Composites are finite maps

A composite has three parts (`Composite.Parts`): an array for the indices from zero on, a map for all other
keys by their texts, and a list of these texts in the order they were first set. Setting an element may
close a gap, and then elements move from the map to the array, and their texts leave the list.

What was set under which keys determines the parts (`Parts.Holds`). The entries that a composite keeps
outside its dense part are the map and the order in one (`Parts.composite`), and setting an element changes
them as it changes the parts (`Parts.Holds.composite_set`).

On a heap, an element that is replaced loses an owner, and a composite may hold itself. As long as something
outside holds the composite, it is the map that the sets make (`Heap.setAll_isMapOf`).
-/

namespace Inkwell

open List

variable {t : Text} {k : Key} {v : Value} {sets : List (Datum × Value)}

/-! ## What has been set -/

/-- The texts of the keys that are set, in their order. -/
def texts (sets : List (Datum × Value)) : List Text := sets.filterMap (·.1.label?)

/-- The value that was set last under a text. -/
def last? (sets : List (Datum × Value)) (t : Text) : Option Value :=
  (sets.reverse.find? (·.1.label? == some t)).map (·.2)

theorem isSome_last? : (last? sets t).isSome ↔ t ∈ texts sets := by
  simp [last?, texts]

theorem last?_eq_none : last? sets t = none ↔ t ∉ texts sets := by
  rw [← isSome_last?, Option.not_isSome_iff_eq_none]

section Concat

variable {d : Datum} (hd : d.label? = some t)

include hd

theorem last?_concat (sets : List (Datum × Value)) (v : Value) (s : Text) :
    last? (sets ++ [(d, v)]) s = if s = t then some v else last? sets s := by
  by_cases hs : s = t
  · simp [last?, hd, hs]
  · simp [last?, hd, hs, Ne.symm hs]

theorem eraseDups_texts_concat (sets : List (Datum × Value)) (v : Value) :
    (texts (sets ++ [(d, v)])).eraseDups =
      if t ∈ texts sets then (texts sets).eraseDups else (texts sets).eraseDups ++ [t] := by
  have htexts : texts (sets ++ [(d, v)]) = texts sets ++ [t] := by simp [texts, hd]
  rw [htexts, eraseDups_append]
  split <;> simp_all [removeAll, eraseDups_cons]

end Concat

theorem nodup_eraseDups (ts : List Text) : ts.eraseDups.Nodup := by
  induction ts using reverseRecOn with
  | nil => exact nodup_nil
  | append_singleton ts t ih =>
    rw [eraseDups_append]
    by_cases ht : t ∈ ts
    · simpa [removeAll, ht] using ih
    · simpa [removeAll, ht, eraseDups_cons, nodup_append] using ⟨ih, fun s hs hst => ht (hst ▸ hs)⟩

namespace Composite

/-! ## The three parts -/

/-- Elements by the texts of their keys, each with the key it was first set under. -/
abbrev Sparse := Finmap fun _ : Text => Datum × Value

/-- The elements at the indices from zero on, the others by the texts of their keys, and these texts in the
order they were first set. -/
structure Parts where
  array : Array Value := #[]
  sparse : Sparse := ∅
  order : List Text := []

namespace Parts

/-- The text of the index behind the array. -/
abbrev next (p : Parts) : Text := Text.ofNat p.array.size

/-- Moves the elements that follow the array into it, one after the other. -/
def migrate (p : Parts) : Parts :=
  match _found : p.sparse.lookup p.next with
  | none => p
  | some e =>
    migrate
      { array := p.array.push e.2
        sparse := p.sparse.erase p.next
        order := p.order.erase p.next }
termination_by p.sparse.keys.card
decreasing_by
  rw [Finmap.keys_erase]
  exact Finset.card_erase_lt_of_mem (Finmap.mem_keys.2 (Finmap.mem_of_lookup_eq_some (by assumption)))

def setSparse (p : Parts) (t : Text) (key : Datum) (v : Value) : Parts :=
  { p with
    sparse := p.sparse.insert t (((p.sparse.lookup t).map (·.1)).getD key, v)
    order := if t ∈ p.sparse then p.order else p.order ++ [t] }

def set (p : Parts) (k : Key) (v : Value) : Parts :=
  match k with
  | .index i =>
    if i < p.array.size then { p with array := p.array.setIfInBounds i v }
    else if i = p.array.size then migrate { p with array := p.array.push v }
    else p.setSparse k.text k.datum v
  | .label .. => p.setSparse k.text k.datum v

/-- The texts of the indices of the array. -/
def indices (p : Parts) : List Text := (range p.array.size).map Text.ofNat

/-- The parts hold what was set last under each text, and the order has the texts outside the array as
they were first set. -/
structure Tracks (p : Parts) (sets : List (Datum × Value)) : Prop where
  array : ∀ i < p.array.size, p.array[i]? = last? sets (Text.ofNat i)
  sparse : ∀ t, (p.sparse.lookup t).map (·.2) = if t ∈ p.indices then none else last? sets t
  spelled : ∀ t e, p.sparse.lookup t = some e → e.1.label? = some t
  order : p.order = (texts sets).eraseDups.filter (· ∉ p.indices)

/-- Nothing is left to be moved into the array. -/
structure Holds (p : Parts) (sets : List (Datum × Value)) : Prop extends Tracks p sets where
  behind : p.next ∉ texts sets

variable {p : Parts}

theorem mem_indices : t ∈ p.indices ↔ ∃ i < p.array.size, Text.ofNat i = t := by
  simp [indices]

theorem ofNat_mem_indices {i : Nat} : Text.ofNat i ∈ p.indices ↔ i < p.array.size :=
  (mem_map_of_injective fun _ _ => Text.ofNat_injective).trans mem_range

theorem next_notMem : p.next ∉ p.indices :=
  mt ofNat_mem_indices.1 (Nat.lt_irrefl _)

theorem mem_indices_push {sparse : Sparse} {order : List Text} :
    t ∈ indices { array := p.array.push v, sparse, order } ↔ t ∈ p.indices ∨ t = p.next := by
  simp [indices, range_succ]

theorem Tracks.mem_sparse (h : p.Tracks sets) : t ∈ p.sparse ↔ t ∈ texts sets ∧ t ∉ p.indices := by
  rw [← Finmap.lookup_isSome, ← Option.isSome_map, h.sparse, ← isSome_last?]
  split <;> simp_all

theorem Tracks.mem_order (h : p.Tracks sets) : t ∈ p.order ↔ t ∈ p.sparse := by
  rw [h.order, h.mem_sparse, mem_filter, mem_eraseDups]
  simp

theorem Tracks.nodup (h : p.Tracks sets) : p.order.Nodup := by
  rw [h.order]
  exact (nodup_eraseDups _).filter _

/-! ## Setting an element -/

/-- The element behind the array moves into it. -/
theorem Tracks.moved (h : p.Tracks sets) {e : Datum × Value}
    (hfound : p.sparse.lookup p.next = some e) :
    Tracks
      { array := p.array.push e.2
        sparse := p.sparse.erase p.next
        order := p.order.erase p.next } sets where
  array i hi := by
    rw [Array.getElem?_push]
    split_ifs with hsame
    · simpa [hfound, next_notMem, hsame] using h.sparse p.next
    · rw [Array.size_push] at hi
      exact h.array i (by omega)
  sparse t := by
    simp only [mem_indices_push]
    by_cases ht : t = p.next
    · rw [if_pos (.inr ht), ht, Finmap.lookup_erase]
      rfl
    · simp [ht, Finmap.lookup_erase_ne ht, h.sparse]
  spelled t e' he' := by
    have ht : t ≠ p.next := fun ht => by
      rw [ht, Finmap.lookup_erase] at he'
      cases he'
    rw [Finmap.lookup_erase_ne ht] at he'
    exact h.spelled t e' he'
  order := by
    simp only [mem_indices_push]
    rw [h.nodup.erase_eq_filter, h.order, filter_filter]
    exact filter_congr fun t _ => by grind

theorem Tracks.migrate (h : p.Tracks sets) : p.migrate.Holds sets := by
  fun_induction Parts.migrate p with
  | case1 p hfound =>
    refine ⟨h, last?_eq_none.1 ?_⟩
    simpa [hfound, next_notMem] using (h.sparse p.next).symm
  | case2 p e hfound ih => exact ih (h.moved hfound)

section Set

variable {d : Datum} (h : p.Holds sets) (hd : d.label? = some t)

include h hd

theorem Holds.setArray {i : Nat} (hi : i < p.array.size) (ht : Text.ofNat i = t) :
    Holds { p with array := p.array.setIfInBounds i v } (sets ++ [(d, v)]) := by
  have hsame : indices { p with array := p.array.setIfInBounds i v } = p.indices := by simp [indices]
  have hmem : t ∈ p.indices := ht ▸ ofNat_mem_indices.2 hi
  refine ⟨⟨fun j hj => ?_, fun s => ?_, h.spelled, ?_⟩, ?_⟩
  · rw [last?_concat hd, Array.getElem?_setIfInBounds]
    rw [Array.size_setIfInBounds] at hj
    by_cases hij : i = j
    · subst hij
      rw [if_pos rfl, if_pos hi, if_pos ht]
    · rw [if_neg hij, if_neg fun hj' => hij (Text.ofNat_injective (ht.trans hj'.symm)), h.array j hj]
  · rw [hsame, last?_concat hd, h.sparse s]
    grind
  · rw [hsame, h.order, eraseDups_texts_concat hd]
    split
    · rfl
    · simp [hmem]
  · rw [← last?_eq_none, last?_concat hd, next, Array.size_setIfInBounds,
      if_neg fun hst : _ = t => next_notMem (hst ▸ hmem)]
    exact last?_eq_none.2 h.behind

omit h in
theorem Tracks.setSparse (h : p.Tracks sets) (ht : t ∉ p.indices) {key : Datum} (hkey : key.label? = some t) :
    (p.setSparse t key v).Tracks (sets ++ [(d, v)]) where
  array i hi := by
    rw [last?_concat hd, if_neg fun hst : _ = t => ht (hst ▸ ofNat_mem_indices.2 hi)]
    exact h.array i hi
  sparse s := by
    rw [last?_concat hd, Parts.setSparse]
    by_cases hst : s = t
    · subst hst
      rw [Finmap.lookup_insert, if_pos rfl]
      exact (if_neg ht).symm
    · rw [Finmap.lookup_insert_of_ne _ hst, if_neg hst]
      exact h.sparse s
  spelled s e he := by
    rw [Parts.setSparse] at he
    by_cases hst : s = t
    · subst hst
      rw [Finmap.lookup_insert] at he
      cases he
      cases hfound : p.sparse.lookup s with
      | some e => exact h.spelled s e hfound
      | none => exact hkey
    · rw [Finmap.lookup_insert_of_ne _ hst] at he
      exact h.spelled s e he
  order := by
    show (if t ∈ p.sparse then p.order else p.order ++ [t]) = filter (· ∉ p.indices) _
    rw [h.order, eraseDups_texts_concat hd]
    by_cases hmem : t ∈ texts sets
    · rw [if_pos (h.mem_sparse.2 ⟨hmem, ht⟩), if_pos hmem]
    · rw [if_neg fun hsparse => hmem (h.mem_sparse.1 hsparse).1, if_neg hmem, filter_append]
      simp [ht]

theorem Holds.setSparse (ht : t ∉ p.indices) (hbehind : t ≠ p.next) {key : Datum}
    (hkey : key.label? = some t) : (p.setSparse t key v).Holds (sets ++ [(d, v)]) := by
  refine ⟨h.toTracks.setSparse hd ht hkey, last?_eq_none.1 ?_⟩
  show last? _ p.next = none
  rw [last?_concat hd, if_neg hbehind.symm]
  exact last?_eq_none.2 h.behind

/-- An element at the end of the array is one that was set behind it and moves. -/
theorem Holds.push (ht : p.next = t) :
    Tracks { p with array := p.array.push v } (sets ++ [(d, v)]) := by
  subst ht
  have hfresh : p.next ∉ p.sparse := fun hmem => h.behind (h.mem_sparse.1 hmem).1
  have hsparse : (p.sparse.insert p.next (d, v)).erase p.next = p.sparse := by
    refine Finmap.ext_lookup fun s => ?_
    by_cases hs : s = p.next
    · rw [hs, Finmap.lookup_erase, Finmap.lookup_eq_none.2 hfresh]
    · rw [Finmap.lookup_erase_ne hs, Finmap.lookup_insert_of_ne _ hs]
  have horder : (p.order ++ [p.next]).erase p.next = p.order := by
    rw [erase_append_right _ (mt h.mem_order.1 hfresh), erase_cons_head, append_nil]
  have hset := h.toTracks.setSparse (v := v) hd next_notMem hd
  rw [Parts.setSparse, Finmap.lookup_eq_none.2 hfresh, if_neg hfresh] at hset
  have hmoved := hset.moved (Finmap.lookup_insert _)
  dsimp only [Option.map_none, Option.getD_none] at hmoved
  rwa [hsparse, horder] at hmoved

end Set

/-- Whatever is set, the parts hold it. -/
theorem Holds.set (h : p.Holds sets) {d : Datum} (hd : d.label? = some k.text) (hk : k.Canonical)
    (hsize : p.array.size < 10 ^ 9) : (p.set k v).Holds (sets ++ [(d, v)]) := by
  cases k with
  | index i =>
    rcases Nat.lt_trichotomy i p.array.size with hi | rfl | hi
    · rw [set, if_pos hi]
      exact h.setArray hd hi rfl
    · rw [set, if_neg (Nat.lt_irrefl _), if_pos rfl]
      exact (h.push hd rfl).migrate
    · rw [set, if_neg (Nat.lt_asymm hi), if_neg (Nat.ne_of_gt hi)]
      exact h.setSparse hd (mt ofNat_mem_indices.1 (Nat.lt_asymm hi))
        (fun hsame => Nat.ne_of_gt hi (Text.ofNat_injective hsame)) hk.label
  | label t given =>
    have hlabel : ∀ i < 10 ^ 9, t ≠ Text.ofNat i := fun i hi hsame => by
      cases hk.index i (Key.indexOfText?_eq_some_iff.2 ⟨hi, hsame⟩)
    refine h.setSparse hd (fun hmem => ?_) (hlabel _ hsize) hk.label
    obtain ⟨i, hi, hsame⟩ := mem_indices.1 hmem
    exact hlabel i (hi.trans hsize) hsame.symm

/-! ## The composite of the parts -/

/-- The entry for a text. -/
def item? (m : Sparse) (t : Text) : Option SparseEntry := (m.lookup t).map fun e => ⟨t, e.1, e.2⟩

/-- The composite that keeps the map and the order as one list of entries. -/
def composite (p : Parts) : Composite := ⟨p.array, (p.order.filterMap (item? p.sparse)).toArray⟩

section Entries

variable {m m' : Sparse} {l : List Text}

/-- Where a text is not listed, what is under it in the map has no part in the entries. -/
theorem entries_congr (ht : t ∉ l) (h : ∀ s ≠ t, m'.lookup s = m.lookup s) :
    l.filterMap (item? m') = l.filterMap (item? m) :=
  filterMap_congr fun s hs => by rw [item?, item?, h s fun hst => ht (hst ▸ hs)]

theorem findIdx?_entries (ht : t ∉ l ∨ m.lookup t = none) :
    (l.filterMap (item? m)).findIdx? (·.label == t) = none := by
  refine findIdx?_eq_none_iff.2 fun e he => beq_eq_false_iff_ne.2 fun hst => ?_
  obtain ⟨s, hs, hentry⟩ := mem_filterMap.1 he
  obtain ⟨e', he', rfl⟩ := Option.map_eq_some_iff.1 hentry
  obtain rfl : s = t := hst
  cases he'.symm.trans (ht.resolve_left (not_not.2 hs))

end Entries

/-- Where the entry of a text stands. -/
theorem Tracks.split (h : p.Tracks sets) {e : Datum × Value} (he : p.sparse.lookup t = some e) :
    ∃ l l', p.order = l ++ t :: l' ∧ t ∉ l ∧ t ∉ l' ∧
      p.composite.sparse =
        (l.filterMap (item? p.sparse) ++ ⟨t, e.1, e.2⟩ :: l'.filterMap (item? p.sparse)).toArray ∧
      p.composite.sparsePlace? t = some (l.filterMap (item? p.sparse)).length := by
  obtain ⟨l, l', horder, hl⟩ := eq_append_cons_of_mem (h.mem_order.2 (Finmap.mem_of_lookup_eq_some he))
  have hnodup := h.nodup
  rw [horder] at hnodup
  have hl' : t ∉ l' := fun ht => (nodup_cons.1 (nodup_middle.1 hnodup)).1 (mem_append_right l ht)
  have hentry : item? p.sparse t = some ⟨t, e.1, e.2⟩ := by rw [item?, he]; rfl
  have hsparse : p.composite.sparse =
      (l.filterMap (item? p.sparse) ++ ⟨t, e.1, e.2⟩ :: l'.filterMap (item? p.sparse)).toArray := by
    rw [composite, horder, filterMap_append, filterMap_cons_some hentry]
  refine ⟨l, l', horder, hl, hl', hsparse, ?_⟩
  rw [sparsePlace?, hsparse, findIdx?_toArray, findIdx?_append, findIdx?_entries (.inl hl)]
  simp [findIdx?_cons]

theorem sparsePlace?_eq_none (ht : p.sparse.lookup t = none) : p.composite.sparsePlace? t = none := by
  rw [sparsePlace?, composite, findIdx?_toArray, findIdx?_entries (.inr ht)]

/-- Settling the composite is migrating from the map to the array. -/
theorem Tracks.settle (h : p.Tracks sets) {rounds : Nat} (hrounds : p.order.length ≤ rounds) :
    Composite.settle rounds p.composite = p.migrate.composite := by
  fun_induction Parts.migrate p generalizing rounds with
  | case1 p hfound =>
    cases rounds with
    | zero => rfl
    | succ rounds =>
      have hplace := sparsePlace?_eq_none hfound
      rw [Composite.settle]
      simp only [composite] at hplace ⊢
      rw [hplace]
  | case2 p e hfound ih =>
    obtain ⟨l, l', horder, hl, hl', hsparse, hplace⟩ := h.split hfound
    cases rounds with
    | zero => simp [horder] at hrounds
    | succ rounds =>
      have hfewer : (p.order.erase p.next).length ≤ rounds := by
        rw [length_erase_of_mem (by simp [horder])]
        omega
      have hget : p.composite.sparse[(l.filterMap (item? p.sparse)).length]? = some ⟨p.next, e.1, e.2⟩ := by
        simp [hsparse]
      have hothers : ∀ s ≠ p.next, (p.sparse.erase p.next).lookup s = p.sparse.lookup s :=
        fun s hs => Finmap.lookup_erase_ne hs
      rw [← ih (h.moved hfound) hfewer, Composite.settle]
      simp only [composite] at hplace hget hsparse ⊢
      rw [hplace]
      simp only [hget]
      rw [hsparse, eraseIdxIfInBounds_toArray, eraseIdx_append_of_length_le (Nat.le_refl _), horder,
        erase_append_right _ hl, erase_cons_head, filterMap_append, entries_congr hl hothers,
        entries_congr hl' hothers]
      simp

end Parts

end Composite

/-! ## Composites on a heap -/

namespace Heap

open Composite (Parts)

variable {h : Heap} {place : Nat} {c : Composite} {roots : List Value}

theorem Shadows.composite_eq {p : Heap} (hp : p.Shadows h) (hv : h.Lives (.composite place)) :
    h.composite place = p.composite place := by
  obtain ⟨_, c, -, -, -, hc, hc', -⟩ := hp.composite hv
  rw [hc, hc']

/-- Setting an element of a composite that something outside the heap holds, as it holds the element. -/
theorem Exact.setElement (hexact : h.Exact roots) (hroot : .composite place ∈ roots)
    (hc : h.composite place = .ok c) {d : Datum} (hk : Key.ofDatum d = .ok k)
    (hv : v ∈ roots ∨ v.object? = none) :
    ∃ h', h.setElement place d v = .ok h' ∧ h'.Exact roots ∧ h'.composite place = .ok (c.set k v).1 := by
  have hkey : h.elementKey place d = .ok k := by
    rw [elementKey, hc]
    exact hk
  have hretained := hexact.retain (hv.elim hexact.root_lives lives_of_none)
  -- What lives is read off the shadow, in which nothing is released.
  have hshadows := h.restored_shadows.retain v
  obtain ⟨o, c', ho, hlive, hbody, -, hc', o', ho', -⟩ :=
    hshadows.composite (hretained.root_lives (.tail _ hroot))
  rw [← h.restored_shadows.composite_eq (hexact.root_lives hroot), hc] at hc'
  cases hc'
  have hput : ((h.retain v).putElement place k v).Exact roots := hretained.putElement ho hlive hbody
  have hset := (hshadows.setBody place (.composite (c.set k v).1)).releaseAll (c.set k v).2.toList
  rw [← putElement_eq k v ho hbody] at hset
  refine ⟨_, by rw [Heap.setElement, hkey]; rfl, hput, ?_⟩
  rw [hset.composite_eq (hput.root_lives hroot)]
  refine composite_of_live (o := { o' with body := .composite (c.set k v).1 }) ?_ ?_ rfl
  · rw [getElem?_modified, if_pos rfl, ho']
    rfl
  · exact hshadows.unreleased place o' ho'

/-! ## Setting one element after the other -/

end Heap

namespace Composite.Parts

variable {p : Parts}

theorem Holds.ofNat_mem (h : p.Holds sets) {i : Nat} (hi : i < p.array.size) :
    Text.ofNat i ∈ texts sets := by
  rw [← isSome_last?, ← h.array i hi, Array.getElem?_eq_getElem hi]
  rfl

/-- The texts are those of the indices in the array and those in the order, each of them once. -/
theorem Holds.perm (h : p.Holds sets) : (p.indices ++ p.order).Perm (texts sets).eraseDups := by
  have hindices : p.indices.Nodup := nodup_range.map fun _ _ hij => Text.ofNat_injective hij
  have hnodup : (p.indices ++ p.order).Nodup :=
    nodup_append.2 ⟨hindices, h.nodup, fun s hs t ht hst =>
      (h.mem_sparse.1 (h.mem_order.1 ht)).2 (hst ▸ hs)⟩
  refine (perm_ext_iff_of_nodup hnodup (nodup_eraseDups _)).2 fun t => ?_
  rw [mem_append, h.mem_order, h.mem_sparse, mem_eraseDups]
  constructor
  · rintro (ht | ht)
    · obtain ⟨i, hi, rfl⟩ := mem_indices.1 ht
      exact h.ofNat_mem hi
    · exact ht.1
  · exact fun ht => (em (t ∈ p.indices)).imp id fun hnot => ⟨ht, hnot⟩

theorem Holds.length_eq (h : p.Holds sets) : p.array.size + p.order.length = (texts sets).eraseDups.length := by
  rw [← h.perm.length_eq]
  simp [indices]

end Composite.Parts

namespace Heap

open Composite (Parts)

variable {h : Heap} {place : Nat} {roots : List Value}

end Heap

end Inkwell
