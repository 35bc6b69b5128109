import Mathlib
import Inkwell.Proofs.Cbor.ReadBack

/-!
# Runes and their bytes

Reading a text as runes loses nothing: the bytes of the runes are the bytes of the text
(`Text.flatMap_bytes_runes`). An ASCII byte is always a rune of its own, so a text can be cut at one
(`Text.chars_ofBytes_ascii`), and an ASCII character is among the characters of a text exactly if its
byte is among the bytes (`Text.mem_chars_iff`).
-/

namespace Inkwell.Text

open List

variable {x : UInt8}

/-! ## One rune -/

/-- The bytes of the character with a code. -/
theorem bytes_ofNat_char {n : Nat} (h : n.isValidChar) {bs : List UInt8}
    (hbs : bs.map UInt8.toNat = if n ≤ 127 then [n] else if n ≤ 2047 then [n / 64 + 192, n % 64 + 128]
      else if n ≤ 65535 then [n / 4096 + 224, n / 64 % 64 + 128, n % 64 + 128]
      else [n / 262144 + 240, n / 4096 % 64 + 128, n / 64 % 64 + 128, n % 64 + 128]) :
    (Rune.char (Char.ofNat n)).bytes = bs := by
  have hn : n < 0x110000 := by
    unfold Nat.isValidChar at h
    omega
  have hval : (Char.ofNat n).val.toNat = n := (Char.toNat_ofNat n).trans (if_pos h)
  apply map_injective_iff.2 fun _ _ => UInt8.toNat_inj.1
  rw [hbs, Rune.bytes, String.utf8EncodeChar, hval]
  split_ifs <;> simp <;> omega

theorem toNat_ite (b x y z : UInt8) :
    (if b = x then y else z).toNat = if b.toNat = x.toNat then y.toNat else z.toNat := by
  simp only [apply_ite UInt8.toNat, UInt8.toNat_inj]

/-- A rune has the bytes that it is read from. -/
theorem bytes_leadingRune (b : UInt8) (rest : List UInt8) :
    (leadingRune b rest).1.bytes = b :: rest.take (leadingRune b rest).2 ∧
      (leadingRune b rest).2 ≤ rest.length := by
  fun_cases leadingRune b rest
  all_goals simp +zetaDelta only [isContinuation, continuationBits, UInt8.le_iff_toNat_le,
    UInt8.lt_iff_toNat_lt, toNat_ite, Bool.and_eq_true, decide_eq_true_eq, UInt8.reduceToNat] at *
  case case1 =>
    refine ⟨bytes_ofNat_char (.inl (by omega)) ?_, Nat.zero_le _⟩
    simp
    omega
  case case2 =>
    refine ⟨bytes_ofNat_char (.inl (by omega)) ?_, by simp⟩
    simp
    split_ifs <;> simp <;> omega
  case case5 | case8 =>
    -- The bounds on the second byte keep out surrogates and what has a shorter spelling.
    rename_i hbounds
    refine ⟨bytes_ofNat_char ?_ ?_, by simp⟩
    · unfold Nat.isValidChar
      split_ifs at hbounds <;> omega
    · simp only [map_cons, take_succ_cons, take_zero, map_nil]
      split_ifs at hbounds <;> split_ifs <;> simp <;> omega
  all_goals exact ⟨rfl, Nat.zero_le _⟩

/-- An ASCII byte is not a part of the rune in front of it. -/
theorem leadingRune_append (hx : x < 0x80) (b : UInt8) (bs cs : List UInt8) :
    leadingRune b (bs ++ x :: cs) = leadingRune b bs := by
  have hcontinues : isContinuation x = false := by simp [isContinuation, hx]
  have hleast : ∀ {p : Prop} [Decidable p] {y z : UInt8}, 0x80 ≤ y → 0x80 ≤ z →
      ¬ (if p then y else z) ≤ x := by
    intro p _ y z hy hz
    split
    · exact UInt8.not_le.2 (UInt8.lt_of_lt_of_le hx hy)
    · exact UInt8.not_le.2 (UInt8.lt_of_lt_of_le hx hz)
  unfold leadingRune
  rcases bs with _ | ⟨c, _ | ⟨d, _ | ⟨e, bs⟩⟩⟩ <;> rcases cs with _ | ⟨d', _ | ⟨e', cs⟩⟩ <;>
    simp [hcontinues, hleast]

/-! ## All runes -/

theorem runesAfter_eq_append (found : List Rune) (skipped : Nat) (bs : List UInt8) :
    runesAfter found skipped bs = found.reverse ++ runesAfter [] skipped bs := by
  induction bs generalizing found skipped with
  | nil => simp [runesAfter]
  | cons b bs ih =>
    cases skipped with
    | zero =>
      simp only [runesAfter]
      rw [ih (_ :: found), ih [_]]
      simp
    | succ skipped =>
      simp only [runesAfter]
      exact ih found skipped

theorem runesAfter_ascii (hx : x < 0x80) {bs : List UInt8} (cs : List UInt8) {skipped : Nat}
    (found : List Rune) (hskipped : skipped ≤ bs.length) :
    runesAfter found skipped (bs ++ x :: cs) =
      runesAfter found skipped bs ++ .char (Char.ofNat x.toNat) :: runesAfter [] 0 cs := by
  induction bs generalizing skipped found with
  | nil =>
    obtain rfl := Nat.le_zero.1 hskipped
    simp only [nil_append, runesAfter, leadingRune, hx, if_true]
    rw [runesAfter_eq_append, reverse_cons, append_assoc, singleton_append]
  | cons b bs ih =>
    cases skipped with
    | zero =>
      simp only [cons_append, runesAfter, leadingRune_append hx]
      exact ih _ (bytes_leadingRune b bs).2
    | succ skipped =>
      simp only [cons_append, runesAfter]
      exact ih found (Nat.le_of_succ_le_succ hskipped)

theorem flatMap_bytes_runesAfter (skipped : Nat) (bs : List UInt8) :
    (runesAfter [] skipped bs).flatMap Rune.bytes = bs.drop skipped := by
  induction bs generalizing skipped with
  | nil => simp [runesAfter]
  | cons b bs ih =>
    cases skipped with
    | zero =>
      simp only [runesAfter]
      rw [runesAfter_eq_append, flatMap_append, ih, reverse_singleton, flatMap_singleton,
        (bytes_leadingRune b bs).1, cons_append, take_append_drop, drop_zero]
    | succ skipped => rw [runesAfter, ih, drop_succ_cons]

/-- The runes of a text have its bytes. -/
theorem flatMap_bytes_runes (t : Text) : t.runes.flatMap Rune.bytes = t.bytes :=
  flatMap_bytes_runesAfter 0 t.bytes

/-- A text is cut at an ASCII byte. -/
theorem chars_ofBytes_ascii (hx : x < 0x80) (bs cs : List UInt8) :
    (ofBytes (bs ++ x :: cs)).chars =
      (ofBytes bs).chars ++ Char.ofNat x.toNat :: (ofBytes cs).chars := by
  simp only [chars, runes, bytes_ofBytes]
  rw [runesAfter_ascii hx cs [] (Nat.zero_le _), map_append, map_cons]
  rfl

theorem mem_chars_iff (hx : x < 0x80) {t : Text} : Char.ofNat x.toNat ∈ t.chars ↔ x ∈ t.bytes := by
  have hn : x.toNat < 128 := UInt8.lt_iff_toNat_lt.1 hx
  constructor
  · intro h
    obtain ⟨r, hr, hchar⟩ := mem_map.1 h
    rw [← flatMap_bytes_runes]
    refine mem_flatMap.2 ⟨r, hr, ?_⟩
    cases r with
    | char c =>
      rw [show c = Char.ofNat x.toNat from hchar,
        @bytes_ofNat_char x.toNat (.inl (by omega)) [x] (by simp; omega)]
      exact mem_singleton_self x
    | stray b =>
      have hcode := congrArg Char.toNat hchar
      rw [Char.toNat_ofNat, if_pos (.inl (by omega))] at hcode
      exact absurd (show 0xfffd = x.toNat from hcode) (by omega)
  · intro h
    obtain ⟨bs, cs, hbytes⟩ := append_of_mem h
    rw [← ofBytes_bytes t, hbytes, chars_ofBytes_ascii hx]
    exact mem_append_right _ mem_cons_self

/-- A well-formed text is written with its characters. -/
theorem ofChars_chars {t : Text} (h : t.isWellFormed = true) : ofChars t.chars = t := by
  have hbytes : t.chars.flatMap String.utf8EncodeChar = t.runes.flatMap Rune.bytes := by
    rw [chars, flatMap_map]
    refine flatMap_congr fun r hr => ?_
    have hr := all_eq_true.1 h r hr
    cases r with
    | char c => rfl
    | stray b => cases hr
  rw [ofChars, hbytes, flatMap_bytes_runes, ofBytes_bytes]

/-- Different characters have different texts. -/
theorem ofChars_injective {cs ds : List Char} (h : ofChars cs = ofChars ds) : cs = ds := by
  have hencode : ∀ cs : List Char, ofChars cs = (String.ofList cs).toByteArray := by
    intro cs
    apply ext_bytes
    show _ = (cs.flatMap String.utf8EncodeChar).toByteArray.data.toList
    rw [toList_data_toByteArray]
    rfl
  rw [hencode, hencode, String.toByteArray_inj] at h
  exact String.ofList_injective h

end Inkwell.Text
