import Mathlib
import Inkwell.Proofs.Heap.Contents
import Inkwell.Proofs.Value.Keys

/-!
# The two spellings of an index

An index can be given as a number or as the text that spells it. A text of more than nine digits is not
taken for an index, though the number is. In a composite this makes no difference: a text that is not
taken for an index is a label, and an element under an index behind the dense part has the same label.
Only the key that is kept with a new element is then a text in place of a number, which `Heap.unkeyed`
forgets. A string has no labels, so there a text of more than nine digits is an error
(`Heap.number_or_spelling`).
-/

namespace Inkwell

/-! ## Keys as they were given -/

/-- A composite without the keys as they were given; their labels stay. -/
def Composite.unkeyed (c : Composite) : Composite :=
  { c with sparse := c.sparse.map fun e => { e with key := .empty } }

/-- An object without the keys as they were given. -/
def Object.unkeyed (o : Object) : Object :=
  match o.body with
  | .composite c => { o with body := .composite c.unkeyed }
  | _ => o

/-- A heap without the keys as they were given. -/
def Heap.unkeyed (h : Heap) : Heap := { h with objects := h.objects.map Object.unkeyed }

/-- The key that is given for a label matters only where the label is new. -/
theorem Composite.setSparse_cases (c : Composite) (t : Text) (d d' : Datum) (v : Value) :
    (c.setSparse t d v).2 = (c.setSparse t d' v).2 ∧
      (c.setSparse t d v).1.unkeyed = (c.setSparse t d' v).1.unkeyed ∧
      ((c.setSparse t d v).2 = none ∨ c.setSparse t d v = c.setSparse t d' v) := by
  unfold setSparse
  split
  · exact ⟨rfl, rfl, .inr rfl⟩
  · exact ⟨rfl, by simp [unkeyed], .inl rfl⟩

variable {n : Number} {i : Nat}

/-- The text that spells a number is taken for an index up to nine digits. -/
theorem Key.indexOfText?_ofNat (i : Nat) :
    Key.indexOfText? (Text.ofNat i) = if i < 10 ^ 9 then some i else none := by
  split
  · rename_i hi
    exact Key.indexOfText?_eq_some_iff.2 ⟨hi, rfl⟩
  · rename_i hi
    refine Option.eq_none_iff_forall_ne_some.2 fun j hj => ?_
    obtain ⟨hlt, hsame⟩ := Key.indexOfText?_eq_some_iff.1 hj
    exact hi (Text.ofNat_injective hsame ▸ hlt)

namespace Heap

/-- Putting an element under a label and under an index behind the dense part. -/
theorem unkeyed_putElement {h : Heap} {place : Nat} {o : Object} {c : Composite}
    (ho : h.objects[place]? = some o) (hbody : o.body = .composite c) (hi : c.dense.size < i)
    (d : Datum) (v : Value) :
    (h.putElement place (.index i) v).unkeyed =
      (h.putElement place (.label (Text.ofNat i) d) v).unkeyed := by
  have hindex : c.set (.index i) v = c.setSparse (Text.ofNat i) (.number (Number.ofNat i)) v := by
    rw [Composite.set, if_neg (by omega), if_neg (by omega)]
    rfl
  have hlabel : c.set (.label (Text.ofNat i) d) v = c.setSparse (Text.ofNat i) d v := rfl
  rw [putElement_eq _ v ho hbody, putElement_eq _ v ho hbody, hindex, hlabel]
  obtain ⟨hold, hunkeyed, hnone | hsame⟩ :=
    c.setSparse_cases (Text.ofNat i) (.number (Number.ofNat i)) d v
  · rw [← hold, hnone, Option.toList_none, releaseAll_nil, releaseAll_nil]
    refine congrArg (Heap.mk h.strings) (Array.ext_getElem? fun other => ?_)
    simp only [modified, Array.getElem?_map, Array.getElem?_modify]
    split
    · rw [Option.map_map, Option.map_map]
      exact congrFun (congrArg Option.map (funext fun o => by simp [Object.unkeyed, hunkeyed])) _
    · rfl
  · rw [hsame]

theorem exists_of_composite {h : Heap} {place : Nat} {c : Composite} (hc : h.composite place = .ok c) :
    ∃ o, h.objects[place]? = some o ∧ o.body = .composite c := by
  unfold composite at hc
  split at hc
  · cases hc
    exact ⟨_, ‹_›, rfl⟩
  · cases hc

theorem exists_retain {h : Heap} {place : Nat} {o : Object} (v : Value)
    (ho : h.objects[place]? = some o) :
    ∃ o', (h.retain v).objects[place]? = some o' ∧ o'.body = o.body := by
  unfold retain
  split
  · simp only [retainObject, Array.getElem?_modify, ho]
    split <;> simp
  · exact ⟨o, ho, rfl⟩

/-- A number that is an index, and the text that spells it, are the same key of a composite. A string
takes both as long as there are at most nine digits. -/
theorem number_or_spelling (h : Heap) (hn : Key.indexOfNumber? n = some i) :
    (∀ place, (∀ c, h.composite place = .ok c → c.dense.size < 10 ^ 9) →
      h.getElement place (.number n) = h.getElement place (.string (Text.ofNat i)) ∧
      ∀ v, (i < 10 ^ 9 →
          h.setElement place (.number n) v = h.setElement place (.string (Text.ofNat i)) v) ∧
        (h.setElement place (.number n) v).map unkeyed =
          (h.setElement place (.string (Text.ofNat i)) v).map unkeyed) ∧
    ∀ buffer, ((h.byteAt buffer (.number n)).toOption =
          (h.byteAt buffer (.string (Text.ofNat i))).toOption ↔ i < 10 ^ 9) ∧
      ∀ d, ((h.byteRange buffer (.number n) d).toOption =
          (h.byteRange buffer (.string (Text.ofNat i)) d).toOption ↔
        i < 10 ^ 9 ∨ d.isString = false ∨ (h.text buffer).size < i) := by
  constructor
  · intro place hsize
    unfold getElement setElement elementKey
    rw [Key.ofDatum, hn, Key.ofDatum, Key.indexOfText?_ofNat]
    cases hc : h.composite place with
    | error e => exact ⟨rfl, fun v => ⟨fun _ => rfl, rfl⟩⟩
    | ok c =>
      by_cases hi : i < 10 ^ 9
      · rw [if_pos hi]
        exact ⟨rfl, fun v => ⟨fun _ => rfl, rfl⟩⟩
      · rw [if_neg hi]
        have hdense : c.dense.size < i := Nat.lt_of_lt_of_le (hsize c hc) (Nat.not_lt.1 hi)
        refine ⟨?_, fun v => ⟨fun h => absurd h hi, ?_⟩⟩
        · refine congrArg Except.ok ?_
          show c.dense[i]?.getD _ = _
          rw [Array.getElem?_eq_none (Nat.le_of_lt hdense)]
          rfl
        · obtain ⟨o, ho, hbody⟩ := exists_of_composite hc
          obtain ⟨o', ho', hbody'⟩ := exists_retain v ho
          exact congrArg Except.ok (unkeyed_putElement ho' (hbody'.trans hbody) hdense _ v)
  · intro buffer
    unfold byteAt byteRange
    rw [Datum.byteIndex, hn, Datum.byteIndex, Key.indexOfText?_ofNat]
    by_cases hi : i < 10 ^ 9
    · rw [if_pos hi]
      exact ⟨iff_of_true rfl hi, fun d => iff_of_true rfl (.inl hi)⟩
    · -- The number is an offset, and the text is an error.
      rw [if_neg hi]
      refine ⟨iff_of_false ?_ hi, fun d => ?_⟩
      · dsimp only [bind, Except.bind]
        split <;> exact fun heq => by cases heq
      · cases d with
        | string source =>
          by_cases hsize : (h.text buffer).size < i
          · refine iff_of_true ?_ (.inr (.inr hsize))
            simp only [bind, Except.bind, hsize, if_true]
            rfl
          · refine iff_of_false ?_ (not_or.2 ⟨hi, not_or.2 ⟨fun heq => (by cases heq), hsize⟩⟩)
            simp only [bind, Except.bind, hsize, if_false]
            exact fun heq => by cases heq
        | _ => exact iff_of_true rfl (.inr (.inl rfl))

/-- A heap with a string and a composite that has an element under ten digits. -/
def tenDigits : Heap where
  strings := #["abc"]
  objects := #[{ body := .composite { sparse := #[
    { label := Text.ofNat (10 ^ 9), key := .number (Number.ofNat (10 ^ 9)), value := .empty }] } }]

theorem number_or_spelling_tenDigits :
    Key.indexOfNumber? (Number.ofNat (10 ^ 9)) = some (10 ^ 9) ∧
    tenDigits.getElement 0 (.number (Number.ofNat (10 ^ 9))) =
      tenDigits.getElement 0 (.string (Text.ofNat (10 ^ 9))) ∧
    (tenDigits.byteAt 0 (.number (Number.ofNat (10 ^ 9)))).toOption ≠
      (tenDigits.byteAt 0 (.string (Text.ofNat (10 ^ 9)))).toOption := by
  have hn : Key.indexOfNumber? (Number.ofNat (10 ^ 9)) = some (10 ^ 9) :=
    Number.indexOfNumber?_ofNat (by decide)
  obtain ⟨hcomposite, hstring⟩ := number_or_spelling tenDigits hn
  refine ⟨hn, (hcomposite 0 fun c hc => ?_).1, fun h => Nat.lt_irrefl _ ((hstring 0).1.1 h)⟩
  cases hc
  decide

end Heap

end Inkwell
