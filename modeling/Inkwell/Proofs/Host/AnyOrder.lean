import Mathlib
import Inkwell.Host.Convert
import Inkwell.Proofs.Cbor.ReadBack

/-!
# Maps in any order

A map of a host has its entries in no particular order, and what it becomes in a program must not depend on
the order in which they are met. The entries are sorted by the texts of their keys first. That fixes the
order as long as no two keys have the same text (`Host.toGuest_map_perm`): there is only one sorted
arrangement then. Keys that differ in the host may well have the same text in a program, like a number and
the string it is written as, or two integers that are rounded to one number; of these the last one stays.
-/

namespace Inkwell

open List

namespace Text

theorem isLE_compareBytes (s t : List UInt8) : (compareBytes s t).isLE ↔ s ≤ t := by
  induction s generalizing t with
  | nil => cases t <;> simp [compareBytes]
  | cons x s ih =>
    cases t with
    | nil => simp [compareBytes]
    | cons y t =>
      rw [compareBytes, cons_le_cons_iff, ← ih]
      rcases Nat.lt_trichotomy x.toNat y.toNat with hlt | heq | hlt
      · simp [UInt8.lt_iff_toNat_lt, hlt]
      · simp [UInt8.toNat_inj.1 heq]
      · have hne : x ≠ y := fun h => by simp [h] at hlt
        simp [UInt8.lt_iff_toNat_lt, hlt, Nat.lt_asymm hlt, hne]

theorem isLE_compare (s t : Text) : (compare s t).isLE ↔ s.bytes ≤ t.bytes := isLE_compareBytes ..

end Text

namespace Host

variable {h h₁ h₂ h' : Heap} {blocks : Nat → Text} {depth : Nat} {v : Value}
variable {entries entries' : List (HostValue × HostValue)}
variable {keys : List (Text × Datum × Conversion Value)}

section Bind

variable {α β : Type} {x : Conversion α}

theorem bind_of_ok {a : α} (hx : x h₁ = .ok a h₂) (f : α → Conversion β) : (x >>= f) h₁ = f a h₂ := by
  show EStateM.bind x f h₁ = _
  simp only [EStateM.bind, hx]

theorem bind_of_error {cause : HostError} (hx : x h₁ = .error cause h₂) (f : α → Conversion β) :
    (x >>= f) h₁ = .error cause h₂ := by
  show EStateM.bind x f h₁ = _
  simp only [EStateM.bind, hx]

theorem bind_eq_ok {f : α → Conversion β} {b : β}
    (hb : (x >>= f) h = .ok b h') : ∃ a h₁, x h = .ok a h₁ ∧ f a h₁ = .ok b h' := by
  cases hx : x h with
  | ok a h₁ => exact ⟨a, h₁, rfl, bind_of_ok hx f ▸ hb⟩
  | error cause h₁ =>
    rw [bind_of_error hx] at hb
    cases hb

end Bind

/-- A conversion that fails in every heap. -/
def Fails {α : Type} (conversion : Conversion α) : Prop :=
  ∀ h₁, ∃ cause h₂, conversion h₁ = .error cause h₂

theorem toGuest_of_lt (hdepth : maxDepth < depth) (x : HostValue) : Fails (toGuest blocks depth x) := by
  intro h₁
  rw [toGuest.eq_def, if_pos hdepth]
  exact ⟨_, _, rfl⟩

theorem toGuest_map (hdepth : depth ≤ maxDepth) (entries : List (HostValue × HostValue)) :
    toGuest blocks depth (.map entries) =
      (do build (sortEntries (← keyed blocks (depth + 1) entries))) := by
  rw [toGuest, if_neg (Nat.not_lt.2 hdepth)]

/-- The text of a key in a heap, if the key can be converted. -/
def keyText? (blocks : Nat → Text) (depth : Nat) (h : Heap) (key : HostValue) : Option Text :=
  match keyOf blocks (toGuest blocks depth key) h with
  | .ok (t, _) _ => some t
  | .error .. => none

theorem keyOf_of_keyed (hkeys : keyed blocks depth entries h = .ok keys h') :
    h' = h ∧ ∀ e ∈ entries, ∃ key, keyOf blocks (toGuest blocks depth e.1) h = .ok key h := by
  induction entries generalizing keys h' with
  | nil =>
    cases hkeys
    exact ⟨rfl, nofun⟩
  | cons e rest ih =>
    rw [keyed] at hkeys
    obtain ⟨⟨t, d⟩, h₁, hkey, hnext⟩ := bind_eq_ok hkeys
    obtain ⟨others, h₂, hrest, hlast⟩ := bind_eq_ok hnext
    obtain rfl : h₁ = h := by
      unfold keyOf at hkey
      split at hkey <;> cases hkey
      rfl
    obtain ⟨rfl, hothers⟩ := ih hrest
    cases hlast
    exact ⟨rfl, forall_mem_cons.2 ⟨⟨_, hkey⟩, hothers⟩⟩

theorem keyed_eq {key : HostValue × HostValue → Text × Datum}
    (hkey : ∀ e ∈ entries, keyOf blocks (toGuest blocks depth e.1) h = .ok (key e) h) :
    keyed blocks depth entries h =
      .ok (entries.map fun e => ((key e).1, (key e).2, toGuest blocks depth e.2)) h := by
  induction entries with
  | nil => rfl
  | cons e rest ih =>
    obtain ⟨hfirst, hrest⟩ := forall_mem_cons.1 hkey
    rw [keyed, bind_of_ok hfirst]
    exact bind_of_ok (ih hrest) _

theorem pairwise_sortBy (keys : List (Text × Datum × Conversion Value)) :
    (Text.sortBy (·.1) keys).Pairwise fun a b => (Text.compare a.1 b.1).isLE := by
  refine pairwise_mergeSort (fun a b c hab hbc => ?_) (fun a b => ?_) keys
  · rw [Text.isLE_compare] at hab hbc ⊢
    exact List.le_trans hab hbc
  · rw [Bool.or_eq_true, Text.isLE_compare, Text.isLE_compare]
    exact List.le_total _ _

/-- Entries with different texts have only one sorted arrangement. -/
theorem map_eq_sortEntries {sorted : List (Text × Datum × Conversion Value)}
    (hnodup : (keys.map (·.1)).Nodup) (hperm : sorted.Perm keys)
    (hsorted : sorted.Pairwise fun a b => (Text.compare a.1 b.1).isLE) :
    sorted.map (·.2) = sortEntries keys := by
  have hsort : (Text.sortBy (·.1) keys).Perm keys := mergeSort_perm ..
  refine congrArg _ (Perm.eq_of_pairwise (fun a b ha hb hab hba => ?_) hsorted (pairwise_sortBy keys)
    (hperm.trans hsort.symm))
  rw [Text.isLE_compare] at hab hba
  exact inj_on_of_nodup_map hnodup (hperm.subset ha) (hsort.subset hb)
    (Text.ext_bytes (List.le_antisymm hab hba))

/-- What a map becomes does not depend on the order of its entries, nor on which sorted arrangement is
taken, as long as no two keys have the same text. -/
theorem toGuest_map_perm (hperm : entries.Perm entries')
    (hv : toGuest blocks depth (.map entries) h = .ok v h')
    (hdistinct : (entries.map fun e => keyText? blocks (depth + 1) h e.1).Nodup) :
    toGuest blocks depth (.map entries') h = .ok v h' ∧
    ∃ keys, keyed blocks (depth + 1) entries' h = .ok keys h ∧
      ∀ sorted : List (Text × Datum × Conversion Value), sorted.Perm keys →
        sorted.Pairwise (fun a b => (Text.compare a.1 b.1).isLE) →
        build (sorted.map (·.2)) h = .ok v h' := by
  have hdepth : depth ≤ maxDepth := by
    by_contra hlt
    have hfails : Fails (toGuest blocks depth (.map entries)) := toGuest_of_lt (Nat.lt_of_not_le hlt) _
    obtain ⟨cause, h₁, hfails⟩ := hfails h
    rw [hv] at hfails
    cases hfails
  rw [toGuest_map hdepth] at hv ⊢
  obtain ⟨keys, h₁, hkeys, hbuild⟩ := bind_eq_ok hv
  obtain ⟨rfl, hall⟩ := keyOf_of_keyed hkeys
  choose! key hkey using hall
  rw [keyed_eq hkey] at hkeys
  cases hkeys
  have hkeys' := keyed_eq fun e he => hkey e (hperm.symm.subset he)
  have htexts : entries.map (fun e => keyText? blocks (depth + 1) h₁ e.1) =
      (entries.map fun e => (key e).1).map some := by
    rw [map_map]
    exact map_congr_left fun e he => by simp only [keyText?, hkey e he, Function.comp_apply]
  rw [htexts] at hdistinct
  have hany : ∀ sorted : List (Text × Datum × Conversion Value),
      sorted.Perm (entries'.map fun e => ((key e).1, (key e).2, toGuest blocks (depth + 1) e.2)) →
      sorted.Pairwise (fun a b => (Text.compare a.1 b.1).isLE) →
      build (sorted.map (·.2)) h₁ = .ok v h' := by
    intro sorted hsorted hpairwise
    rw [map_eq_sortEntries ?_ (hsorted.trans (hperm.symm.map _)) hpairwise]
    · exact hbuild
    · rw [map_map]
      exact hdistinct.of_map
  exact ⟨(bind_of_ok hkeys' _).trans (hany _ (mergeSort_perm ..) (pairwise_sortBy _)), _, hkeys', hany⟩

/-- A map whose entries are sorted by text, not by number. -/
def ages : List (HostValue × HostValue) :=
  [(.integer .int 9, .boolean false), (.integer .int 10, .boolean true)]

theorem toGuest_map_perm_ages : ∃ h',
    toGuest (fun _ => "") 0 (.map ages) {} = .ok (.composite 0) h' ∧
    ages.map (fun e => keyText? (fun _ => "") 1 {} e.1) = [some ("9" : Text), some "10"] ∧
    toGuest (fun _ => "") 0 (.map ages.reverse) {} = .ok (.composite 0) h' := by
  have hv : toGuest (fun _ => "") 0 (.map ages) {} = .ok (.composite 0)
      { objects := #[{ body := .composite { sparse := #[⟨"10", .number (Number.ofNat 10), .boolean true⟩,
        ⟨"9", .number (Number.ofNat 9), .boolean false⟩] } }] } := by cbv
  have htexts : ages.map (fun e => keyText? (fun _ => "") 1 {} e.1) = [some ("9" : Text), some "10"] := by
    decide +kernel
  exact ⟨_, hv, htexts, (toGuest_map_perm (reverse_perm ages).symm hv (by rw [htexts]; decide)).1⟩

end Host

end Inkwell
