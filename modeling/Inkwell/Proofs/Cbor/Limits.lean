import Inkwell.Proofs.Cbor.ReadBack

/-!
# Items that are too long to be read back

An array or map may be longer than the reader takes. What is written for an item that has such lists
in it is read as nothing else: if something is read, it is the item, and no list in it was too long
(`item?_spell_some`).
-/

namespace Inkwell

open List

namespace Cbor

variable {depth : Nat} {item : Item}

/-- Nothing but the item is read of what is written for it, and only if it can be read back. -/
def ReadsOnly (depth : Nat) (item : Item) : Prop :=
  ∀ (rounds : Nat) (rest behind : List UInt8) (found : Item),
    item? rounds depth (spell item ++ rest) = some (found, behind) →
      found = item ∧ behind = rest ∧ item.Fits maxItems depth

/-- Items of which nothing else is read one by one are read together or not at all. -/
theorem items?_spellAll_some {items : List Item} (hitems : ∀ item ∈ items, ReadsOnly depth item) :
    ∀ {rounds : Nat} {earlier found : List Item} {rest behind : List UInt8},
      items? rounds depth items.length earlier (spellAll items ++ rest) = some (found, behind) →
        found = earlier.reverse ++ items ∧ behind = rest ∧ ∀ item ∈ items, item.Fits maxItems depth := by
  induction items with
  | nil =>
    intro rounds earlier found rest behind h
    simp only [length_nil, items?, spellAll, nil_append, Option.some.injEq,
      Prod.mk.injEq] at h
    simp [h.1, h.2]
  | cons item items ih =>
    intro rounds earlier found rest behind h
    cases rounds with
    | zero => simp [items?] at h
    | succ rounds =>
      rw [spellAll, append_assoc, length_cons, items?] at h
      split at h
      · rename_i first after hfirst
        obtain ⟨rfl, rfl, hfits⟩ := hitems item mem_cons_self _ _ _ _ hfirst
        obtain ⟨hfound, hbehind, hothers⟩ :=
          ih (fun other hother => hitems other (mem_cons_of_mem _ hother)) h
        refine ⟨?_, hbehind, forall_mem_cons.2 ⟨hfits, hothers⟩⟩
        rw [hfound, reverse_cons, append_assoc, singleton_append]
      · cases h

/-- Nothing is read in no round. -/
theorem ReadsOnly.of_succ
    (h : ∀ (rounds : Nat) (rest behind : List UInt8) (found : Item), item? (rounds + 1) depth (spell
      item ++ rest) = some (found, behind) → found = item ∧ behind = rest ∧ item.Fits maxItems
      depth) : ReadsOnly depth item := by
  intro rounds rest behind found hread
  cases rounds with
  | zero => simp [item?] at hread
  | succ rounds => exact h rounds rest behind found hread

/-- An item without others in it is read in one round. -/
theorem ReadsOnly.of_leaf (hfits : item.Fits maxItems depth)
    (h : ∀ rounds rest, item? (rounds + 1) depth (spell item ++ rest) = some (item, rest)) :
    ReadsOnly depth item := by
  refine .of_succ fun rounds rest behind found hread => ?_
  rw [h rounds rest] at hread
  cases hread
  exact ⟨rfl, rfl, hfits⟩

/-- What is written for an item is read as the item or not at all. -/
theorem item?_spell_some {limit : Nat} (hlimit : limit < 1 <<< 64) (h : item.Fits limit depth) :
    ReadsOnly depth item := by
  induction h with
  | @unsigned depth n small =>
    exact .of_leaf (.unsigned small) fun rounds rest => item?_unsigned rounds depth rest small
  | @negative depth n small =>
    exact .of_leaf (.negative small) fun rounds rest => item?_negative rounds depth rest small
  | @bytes depth t small =>
    exact .of_leaf (.bytes small) fun rounds rest => item?_bytes rounds depth rest small
  | @text depth t small =>
    exact .of_leaf (.text small) fun rounds rest => item?_text rounds depth rest small
  | @array depth items level few inner ih =>
    refine .of_succ fun rounds rest behind found hread => ?_
    rw [item?_array rounds depth rest (Nat.lt_of_le_of_lt few hlimit)] at hread
    split at hread
    · cases hread
    · rename_i hlimits
      simp only [Bool.or_eq_true, decide_eq_true_eq, not_or, Nat.not_lt] at hlimits
      obtain ⟨⟨read, after⟩, hitems, heq⟩ := Option.map_eq_some_iff.1 hread
      cases heq
      obtain ⟨rfl, rfl, hfits⟩ := items?_spellAll_some ih hitems
      exact ⟨rfl, rfl, .array level hlimits.2 hfits⟩
  | @map depth items level pairs few inner ih =>
    refine .of_succ fun rounds rest behind found hread => ?_
    rw [item?_map rounds depth rest pairs (Nat.lt_of_le_of_lt few hlimit)] at hread
    split at hread
    · cases hread
    · rename_i hlimits
      simp only [Bool.or_eq_true, decide_eq_true_eq, not_or, Nat.not_lt] at hlimits
      obtain ⟨⟨read, after⟩, hitems, heq⟩ := Option.map_eq_some_iff.1 hread
      cases heq
      obtain ⟨rfl, rfl, hfits⟩ := items?_spellAll_some ih hitems
      exact ⟨rfl, rfl, .map level pairs hlimits.2 hfits⟩
  | @simple depth n small =>
    exact .of_leaf (.simple small) fun rounds rest => item?_simple rounds depth rest small

/-- A text that holds what is written for an item is read as that item or not at all. -/
theorem read?_spell_some {limit : Nat} (hlimit : limit < 1 <<< 64) {t : Text} {found : Item}
    (h : item.Fits limit 0) (ht : t.bytes = spell item) (hread : read? t = some found) :
    found = item ∧ item.Fits maxItems 0 := by
  unfold read? at hread
  split at hread
  · rename_i hitem
    cases hread
    rw [ht, ← append_nil (spell item)] at hitem
    obtain ⟨hfound, -, hfits⟩ := item?_spell_some hlimit h _ _ _ _ hitem
    exact ⟨hfound, hfits⟩
  · cases hread

end Cbor

end Inkwell
