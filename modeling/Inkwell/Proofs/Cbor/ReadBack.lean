import Mathlib.Tactic.Common
import Mathlib.Tactic.Ring
import Inkwell.Cbor.Reader

/-!
# Items read back

What is written for an item is read as that item, whatever bytes follow. That holds of the items that
fit the format: their numbers have at most sixty-four bits, their strings are in one piece, and arrays
and maps are neither nested too deep nor too long.

The reader is bounded by a number of rounds. An item and the list of items behind it take a round
each, so twice the number of bytes is always enough (`item?_spell`).
-/

namespace Inkwell

open List

namespace Text

theorem bytes_append (s t : Text) : bytes (s ++ t) = s.bytes ++ t.bytes := by
  simp only [bytes, ByteArray.data_append, Array.toList_append]

theorem length_bytes (t : Text) : t.bytes.length = t.size := by
  rw [bytes, Array.length_toList]
  rfl

theorem bytes_drop (t : Text) (n : Nat) : (t.drop n).bytes = t.bytes.drop n := by
  simp only [drop, bytes, ByteArray.data_extract, Array.toList_extract, extract_eq_take_drop]
  refine take_of_length_le ?_
  rw [length_drop, Array.length_toList]
  exact Nat.le_refl _

theorem bytes_take (t : Text) (n : Nat) : (t.take n).bytes = t.bytes.take n := by
  simp only [take, bytes, ByteArray.data_extract, Array.toList_extract, extract_eq_take_drop]
  rfl

theorem ext_bytes {s t : Text} (h : s.bytes = t.bytes) : s = t := by
  rw [← ofBytes_bytes s, h, ofBytes_bytes]

theorem concat_singleton (t : Text) : concat [t] = t := by
  apply ext_bytes
  show bytes (ByteArray.empty ++ t) = _
  rw [bytes_append]
  rfl

end Text

namespace Cbor

variable {depth kind n : Nat} {item : Item}

/-! ## Numbers in bytes -/

theorem length_bigEndian (n value : Nat) : (bigEndian n value).length = n := by
  induction n with
  | zero => rfl
  | succ n ih => rw [bigEndian, length_cons, ih]

/-- The bytes of a number spell what is left of it modulo a power of 256. -/
theorem foldl_bigEndian (n value start : Nat) :
    (bigEndian n value).foldl (fun v b => v * 256 + b.toNat) start =
      start * 256 ^ n + value % 256 ^ n := by
  induction n generalizing start with
  | zero => simp [bigEndian, Nat.mod_one]
  | succ n ih =>
    have hbyte : ((value >>> (8 * n)).toUInt8).toNat = value / 256 ^ n % 256 := by
      rw [Nat.toUInt8_eq, UInt8.toNat_ofNat', Nat.shiftRight_eq_div_pow, Nat.pow_mul]
    have hmod : value % 256 ^ (n + 1) = value % 256 ^ n + 256 ^ n * (value / 256 ^ n % 256) := by
      rw [Nat.pow_succ, Nat.mod_mul]
    rw [bigEndian, foldl_cons, ih, hbyte, hmod, Nat.pow_succ]
    ring

theorem bytesNumber?_bigEndian {value : Nat} (h : value < 256 ^ n) (rest : List UInt8) :
    bytesNumber? n (bigEndian n value ++ rest) = some (value, rest) := by
  have hlength := length_bigEndian n value
  unfold bytesNumber?
  rw [splitAt_eq, take_left' hlength, drop_left' hlength]
  simp only [hlength, if_true]
  rw [foldl_bigEndian, Nat.zero_mul, Nat.zero_add, Nat.mod_eq_of_lt h]

theorem content?_bytes (t : Text) (rest : List UInt8) :
    content? t.size (t.bytes ++ rest) = some (t, rest) := by
  have hlength := t.length_bytes
  unfold content?
  rw [splitAt_eq, take_left' hlength, drop_left' hlength]
  simp only [hlength, if_true, Text.ofBytes_bytes]

/-! ## Heads -/

theorem length_head_pos (kind n : Nat) : 0 < (head kind n).length := by
  unfold head
  dsimp only
  split_ifs <;> exact Nat.succ_pos _

/-- The first byte of a head holds its kind and its form. -/
theorem first_parts {info : Nat} (hkind : kind < 8) (hinfo : info < 32) :
    ((kind * 32 + info).toUInt8).toNat / 32 = kind ∧ ((kind * 32 + info).toUInt8).toNat % 32 = info := by
  have hbyte : ((kind * 32 + info).toUInt8).toNat = kind * 32 + info := by
    rw [Nat.toUInt8_eq, UInt8.toNat_ofNat']
    exact Nat.mod_eq_of_lt (by omega)
  rw [hbyte]
  omega

theorem head?_small (hkind : kind < 8) (hn : n < 24) (rest : List UInt8) :
    head? (head kind n ++ rest) = some (⟨kind, n, some n⟩, rest) := by
  obtain ⟨hfirst, hform⟩ := first_parts hkind (show n < 32 by omega)
  simp only [head, if_pos hn, singleton_append, head?, hfirst, hform]

/-- A head with a number in several bytes. -/
theorem head?_numbered {info width : Nat} (hkind : kind < 7)
    (hform : info = 24 ∧ width = 1 ∨ info = 25 ∧ width = 2 ∨ info = 26 ∧ width = 4 ∨ info = 27 ∧
      width = 8) (hn : n < 256 ^ width) (rest : List UInt8) :
    head? ((kind * 32 + info).toUInt8 :: bigEndian width n ++ rest) =
      some (⟨kind, info, some n⟩, rest) := by
  obtain ⟨hfirst, hinfo⟩ := first_parts (show kind < 8 by omega) (show info < 32 by omega)
  have hseven : ¬ kind = 7 := by omega
  rcases hform with ⟨rfl, rfl⟩ | ⟨rfl, rfl⟩ | ⟨rfl, rfl⟩ | ⟨rfl, rfl⟩ <;>
    simp only [cons_append, head?, hfirst, hinfo, bytesNumber?_bigEndian hn] <;>
    simp [hseven]

theorem head?_head {kind n : Nat} (hkind : kind < 7) (hn : n < 1 <<< 64) (rest : List UInt8) :
    ∃ info, head? (head kind n ++ rest) = some (⟨kind, info, some n⟩, rest) := by
  by_cases hsmall : n < 24
  · exact ⟨n, head?_small (by omega) hsmall rest⟩
  · unfold head
    dsimp only
    rw [if_neg hsmall]
    split_ifs with hone htwo hfour
    · exact ⟨24, head?_numbered hkind (.inl ⟨rfl, rfl⟩) hone rest⟩
    · exact ⟨25, head?_numbered hkind (.inr (.inl ⟨rfl, rfl⟩)) htwo rest⟩
    · exact ⟨26, head?_numbered hkind (.inr (.inr (.inl ⟨rfl, rfl⟩))) hfour rest⟩
    · exact ⟨27, head?_numbered hkind (.inr (.inr (.inr ⟨rfl, rfl⟩))) hn rest⟩

/-! ## Items -/

mutual

/-- The bytes that are written for an item. -/
def spell : Item → List UInt8
  | .unsigned n => head 0 n
  | .negative n => head 1 n
  | .bytes chunks => head 2 (Text.concat chunks).size ++ (Text.concat chunks).bytes
  | .text chunks => head 3 (Text.concat chunks).size ++ (Text.concat chunks).bytes
  | .array items => head 4 items.length ++ spellAll items
  | .map items => head 5 (items.length / 2) ++ spellAll items
  | .tagged tag item => head 6 tag ++ spell item
  | .simple n => head 7 n
  | .float width bits =>
    (224 + (if width = 2 then 25 else if width = 4 then 26 else 27)).toUInt8 :: bigEndian width bits

/-- The bytes that are written for several items. -/
def spellAll : List Item → List UInt8
  | [] => []
  | item :: rest => spell item ++ spellAll rest

end

theorem bytes_append (out : Text) (bs : List UInt8) : (append out bs).bytes = out.bytes ++ bs := by
  induction bs generalizing out with
  | nil => simp [append]
  | cons b rest ih =>
    show (append (out.push b) rest).bytes = _
    rw [ih]
    simp [Text.bytes]

theorem bytes_appendString (out : Text) (kind : Nat) (chunks : List Text) :
    (appendString out kind chunks).bytes =
      out.bytes ++ (head kind (Text.concat chunks).size ++ (Text.concat chunks).bytes) := by
  unfold appendString
  rw [Text.bytes_append, bytes_append, append_assoc]

mutual

/-- Writing an item adds its bytes. -/
theorem bytes_write (out : Text) : ∀ item, (write out item).bytes = out.bytes ++ spell item
  | .unsigned _ | .negative _ | .simple _ | .float _ _ => by
    unfold write spell
    exact bytes_append out _
  | .bytes chunks => by
    unfold write spell
    exact bytes_appendString out 2 chunks
  | .text chunks => by
    unfold write spell
    exact bytes_appendString out 3 chunks
  | .array _ | .map _ => by
    unfold write spell
    rw [bytes_writeAll, bytes_append, append_assoc]
  | .tagged tag item => by
    unfold write spell
    rw [bytes_write, bytes_append, append_assoc]

theorem bytes_writeAll (out : Text) : ∀ items, (writeAll out items).bytes = out.bytes ++ spellAll items
  | [] => by
    unfold writeAll spellAll
    rw [append_nil]
  | item :: rest => by
    unfold writeAll spellAll
    rw [bytes_writeAll, bytes_write, append_assoc]

end

/-- An item that can be read inside `depth` others where arrays and maps may have up to `limit` items or
entries. -/
inductive Item.Fits (limit : Nat) : Nat → Item → Prop
  | unsigned {depth n : Nat} (small : n < 1 <<< 64) : Fits limit depth (.unsigned n)
  | negative {depth n : Nat} (small : n < 1 <<< 64) : Fits limit depth (.negative n)
  | bytes {depth : Nat} {t : Text} (small : t.size < 1 <<< 64) : Fits limit depth (.bytes [t])
  | text {depth : Nat} {t : Text} (small : t.size < 1 <<< 64) : Fits limit depth (.text [t])
  | array {depth : Nat} {items : List Item} (level : depth < maxDepth)
      (few : items.length ≤ limit) (inner : ∀ item ∈ items, Fits limit (depth + 1) item) :
      Fits limit depth (.array items)
  | map {depth : Nat} {items : List Item} (level : depth < maxDepth) (pairs : 2 ∣ items.length)
      (few : items.length / 2 ≤ limit) (inner : ∀ item ∈ items, Fits limit (depth + 1) item) :
      Fits limit depth (.map items)
  | simple {depth n : Nat} (small : n < 24) : Fits limit depth (.simple n)

/-- So many rounds are enough to read an item. -/
def ReadsBack (depth : Nat) (item : Item) : Prop :=
  ∀ rounds rest, 2 * (spell item).length ≤ rounds + 1 →
    item? rounds depth (spell item ++ rest) = some (item, rest)

theorem length_spell_pos (item : Item) : 0 < (spell item).length := by
  cases item with
  | float width bits =>
    unfold spell
    exact Nat.succ_pos _
  | unsigned n | negative n | simple n =>
    unfold spell
    exact length_head_pos _ _
  | bytes chunks | text chunks | array items | map items | tagged tag item =>
    unfold spell
    rw [length_append]
    exact Nat.lt_of_lt_of_le (length_head_pos _ _) (Nat.le_add_right _ _)

/-- Reading an item takes at least one round. -/
theorem ReadsBack.of_succ
    (h : ∀ rounds rest, 2 * (spell item).length ≤ rounds + 2 → item? (rounds + 1) depth (spell item
      ++ rest) = some (item, rest)) : ReadsBack depth item := by
  intro rounds rest hrounds
  have hpos := length_spell_pos item
  cases rounds with
  | zero => omega
  | succ rounds => exact h rounds rest hrounds

/-- Items that are read back one by one are read back together. -/
theorem items?_spellAll {items : List Item} (hitems : ∀ item ∈ items, ReadsBack depth item) :
    ∀ (rounds : Nat) (found : List Item) (rest : List UInt8),
      2 * (spellAll items).length ≤ rounds →
      items? rounds depth items.length found (spellAll items ++ rest) =
        some (found.reverse ++ items, rest) := by
  induction items with
  | nil =>
    intro rounds found rest _
    simp [items?, spellAll]
  | cons item items ih =>
    intro rounds found rest hrounds
    have hpos := length_spell_pos item
    rw [spellAll, length_append] at hrounds
    cases rounds with
    | zero => omega
    | succ rounds =>
      have hfirst := hitems item mem_cons_self rounds (spellAll items ++ rest) (by omega)
      have hrest := ih (fun other hother => hitems other (mem_cons_of_mem _ hother)) rounds
        (item :: found) rest (by omega)
      rw [spellAll, append_assoc, length_cons, items?, hfirst]
      simpa using hrest

/-! ### One round -/

section Rounds

variable {n : Nat} {t : Text} {items : List Item} (rounds depth : Nat) (rest : List UInt8)

theorem item?_unsigned (small : n < 1 <<< 64) :
    item? (rounds + 1) depth (spell (.unsigned n) ++ rest) = some (.unsigned n, rest) := by
  obtain ⟨info, hhead⟩ := @head?_head 0 _ (by omega) small rest
  rw [spell, item?, hhead]
  rfl

theorem item?_negative (small : n < 1 <<< 64) :
    item? (rounds + 1) depth (spell (.negative n) ++ rest) = some (.negative n, rest) := by
  obtain ⟨info, hhead⟩ := @head?_head 1 _ (by omega) small rest
  rw [spell, item?, hhead]
  rfl

theorem item?_bytes (small : t.size < 1 <<< 64) :
    item? (rounds + 1) depth (spell (.bytes [t]) ++ rest) = some (.bytes [t], rest) := by
  obtain ⟨info, hhead⟩ := @head?_head 2 _ (by omega) small (t.bytes ++ rest)
  rw [spell, Text.concat_singleton, append_assoc, item?, hhead]
  simp [content?_bytes]

theorem item?_text (small : t.size < 1 <<< 64) :
    item? (rounds + 1) depth (spell (.text [t]) ++ rest) = some (.text [t], rest) := by
  obtain ⟨info, hhead⟩ := @head?_head 3 _ (by omega) small (t.bytes ++ rest)
  rw [spell, Text.concat_singleton, append_assoc, item?, hhead]
  simp [content?_bytes]

theorem item?_array (small : items.length < 1 <<< 64) :
    item? (rounds + 1) depth (spell (.array items) ++ rest) =
      if maxDepth ≤ depth || maxItems < items.length then none
      else (items? rounds (depth + 1) items.length [] (spellAll items ++ rest)).map
        fun (items, rest) => (.array items, rest) := by
  obtain ⟨info, hhead⟩ := @head?_head 4 _ (by omega) small (spellAll items ++ rest)
  rw [spell, append_assoc, item?, hhead]
  rfl

theorem item?_map (pairs : 2 ∣ items.length) (small : items.length / 2 < 1 <<< 64) :
    item? (rounds + 1) depth (spell (.map items) ++ rest) =
      if maxDepth ≤ depth || maxItems < items.length / 2 then none
      else (items? rounds (depth + 1) items.length [] (spellAll items ++ rest)).map
        fun (items, rest) => (.map items, rest) := by
  obtain ⟨info, hhead⟩ := @head?_head 5 _ (by omega) small (spellAll items ++ rest)
  rw [spell, append_assoc, item?, hhead]
  show (if maxDepth ≤ depth || maxItems < items.length / 2 then none
    else (items? rounds (depth + 1) (2 * (items.length / 2)) [] (spellAll items ++ rest)).map
      fun (items, rest) => (Item.map items, rest)) = _
  rw [Nat.mul_div_cancel' pairs]

theorem item?_simple (small : n < 24) :
    item? (rounds + 1) depth (spell (.simple n) ++ rest) = some (.simple n, rest) := by
  have hplain : plainItem n n = .simple n := by
    unfold plainItem
    rw [if_neg (by omega), if_neg (by omega), if_neg (by omega)]
  rw [spell, item?, head?_small (by omega) small]
  simp [hplain]

end Rounds

/-- An item that fits is read back. -/
theorem item?_spell (h : item.Fits maxItems depth) : ReadsBack depth item := by
  induction h with
  | @unsigned depth n small => exact .of_succ fun rounds rest _ => item?_unsigned rounds depth rest small
  | @negative depth n small => exact .of_succ fun rounds rest _ => item?_negative rounds depth rest small
  | @bytes depth t small => exact .of_succ fun rounds rest _ => item?_bytes rounds depth rest small
  | @text depth t small => exact .of_succ fun rounds rest _ => item?_text rounds depth rest small
  | @array depth items level few inner ih =>
    refine .of_succ fun rounds rest hrounds => ?_
    rw [spell, length_append] at hrounds
    have hpos := length_head_pos 4 items.length
    have hsmall : items.length < 1 <<< 64 := Nat.lt_of_le_of_lt few (by decide)
    have hinner := items?_spellAll ih rounds [] rest (by omega)
    rw [item?_array rounds depth rest hsmall, hinner]
    simp [Nat.not_le.2 level, Nat.not_lt.2 few]
  | @map depth items level pairs few inner ih =>
    refine .of_succ fun rounds rest hrounds => ?_
    rw [spell, length_append] at hrounds
    have hpos := length_head_pos 5 (items.length / 2)
    have hsmall : items.length / 2 < 1 <<< 64 := Nat.lt_of_le_of_lt few (by decide)
    have hinner := items?_spellAll ih rounds [] rest (by omega)
    rw [item?_map rounds depth rest pairs hsmall, hinner]
    simp [Nat.not_le.2 level, Nat.not_lt.2 few]
  | @simple depth n small => exact .of_succ fun rounds rest _ => item?_simple rounds depth rest small

/-- A text that holds what is written for an item is read as that item. -/
theorem read?_spell {t : Text} (h : item.Fits maxItems 0) (ht : t.bytes = spell item) :
    read? t = some item := by
  have hsize : (spell item).length = t.size := by rw [← ht, t.length_bytes]
  have hitem := item?_spell h (2 * t.size + 2) [] (by omega)
  rw [append_nil, ← ht] at hitem
  rw [read?, hitem]

end Cbor

end Inkwell
