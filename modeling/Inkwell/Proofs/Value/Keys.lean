import Mathlib.Data.List.Basic
import Inkwell.Proofs.Cbor.ReadBack
import Inkwell.Value.Key

/-!
# Keys and their texts

A composite takes a number and the text it is shown as for the same key. That this is one notion of
key rests on three facts about the decimal spelling of numbers:

* a text is read as an index exactly if it is the decimal text of that index
  (`Key.indexOfText?_eq_some_iff`);
* a number that is an index is shown as that text, and every other number is shown as something that
  is not read as an index (`Number.format_of_indexOfNumber?`, `Number.indexOfText?_format`);
* the number nearest to an index is that index (`Number.indexOfNumber?_ofNat`).

For the second, a number with a fraction must not be shown without one. The fewest digits that read
back are looked for on coarser grids first; a natural number inside the interval of a number would be
the number itself.
-/

namespace Inkwell

open List Text

variable {i : Nat}

/-! ## Decimal texts -/

namespace Text

variable {d : UInt8} {c : Char} {n : Nat}

/-- The value of a list of digits behind digits of the value `n`. -/
def valueFrom (n : Nat) (ds : List UInt8) : Nat := ds.foldl (fun n d => n * 10 + (d.toNat - 48)) n

/-- Whether a byte is a digit. -/
def isDigit (d : UInt8) : Bool := 48 ≤ d && d ≤ 57

theorem isDigit_iff : isDigit d = true ↔ 48 ≤ d.toNat ∧ d.toNat ≤ 57 := by
  simp [isDigit, UInt8.le_iff_toNat_le]

/-- A character as a byte. -/
def byteOf (c : Char) : UInt8 := UInt8.ofNat c.toNat

theorem bounds_of_isDigit (h : c.isDigit = true) : 48 ≤ c.toNat ∧ c.toNat ≤ 57 := by
  simpa [Char.isDigit, UInt32.le_iff_toNat_le] using h

theorem toNat_byteOf (h : c.isDigit = true) : (byteOf c).toNat = c.toNat := by
  have hc := bounds_of_isDigit h
  rw [byteOf, UInt8.toNat_ofNat']
  omega

theorem utf8EncodeChar_of_isDigit (h : c.isDigit = true) :
    String.utf8EncodeChar c = [byteOf c] :=
  if_pos (show c.toNat ≤ 127 from Nat.le_trans (bounds_of_isDigit h).2 (by decide))

theorem isDigit_toDigits (h : c ∈ Nat.toDigits 10 n) : c.isDigit = true :=
  Nat.isDigit_of_mem_toDigits (by decide) (by decide) h

theorem bytes_ofNat (n : Nat) : (ofNat n).bytes = (Nat.toDigits 10 n).map byteOf := by
  show (String.toByteArray (toString n)).data.toList = _
  rw [Nat.toString_eq_ofList_toDigits]
  show ((Nat.toDigits 10 n).flatMap String.utf8EncodeChar).toByteArray.data.toList = _
  rw [toList_data_toByteArray, map_eq_flatMap]
  exact flatMap_congr fun c hc => utf8EncodeChar_of_isDigit (isDigit_toDigits hc)

theorem isDigit_of_mem_ofNat (h : d ∈ (ofNat n).bytes) : isDigit d = true := by
  rw [bytes_ofNat] at h
  obtain ⟨c, hc, rfl⟩ := mem_map.1 h
  have hdigit := isDigit_toDigits hc
  rw [isDigit_iff, toNat_byteOf hdigit]
  exact bounds_of_isDigit hdigit

theorem length_ofNat_le_iff {k : Nat} (hk : 0 < k) : (ofNat n).bytes.length ≤ k ↔ n < 10 ^ k := by
  rw [bytes_ofNat, length_map, Nat.length_toDigits_le_iff (by decide) hk]

/-- The text of a number of one digit. -/
theorem bytes_ofNat_digit (hd : isDigit d = true) : (ofNat (d.toNat - 48)).bytes = [d] := by
  rw [isDigit_iff] at hd
  have hlt : d.toNat - 48 < 10 := by omega
  rw [bytes_ofNat, Nat.toDigits_of_lt_base hlt, map_singleton, byteOf,
    Nat.toNat_digitChar_of_lt_ten hlt]
  congr 1
  apply UInt8.toNat_inj.1
  rw [UInt8.toNat_ofNat']
  omega

/-- A digit behind the digits of a positive number. -/
theorem bytes_ofNat_append (hn : 0 < n) (hd : isDigit d = true) :
    (ofNat n).bytes ++ [d] = (ofNat (n * 10 + (d.toNat - 48))).bytes := by
  have hlt : d.toNat - 48 < 10 := by
    rw [isDigit_iff] at hd
    omega
  rw [← bytes_ofNat_digit hd, bytes_ofNat, bytes_ofNat, bytes_ofNat, ← map_append,
    Nat.toDigits_append_toDigits (by decide) hn hlt, Nat.mul_comm]

/-- Digits behind those of a positive number. -/
theorem bytes_ofNat_valueFrom (hn : 0 < n) {ds : List UInt8} (hds : ds.all isDigit = true) :
    (ofNat n).bytes ++ ds = (ofNat (valueFrom n ds)).bytes := by
  induction ds generalizing n with
  | nil => rw [append_nil]; rfl
  | cons d ds ih =>
    rw [all_cons, Bool.and_eq_true] at hds
    rw [append_cons, bytes_ofNat_append hn hds.1, ih (by omega) hds.2]
    rfl

/-- Digits without a leading zero are the text of their value. -/
theorem bytes_ofNat_value {d : UInt8} {ds : List UInt8} (hall : (d :: ds).all isDigit = true)
    (hzero : d ≠ 48 ∨ ds = []) : (ofNat (valueFrom 0 (d :: ds))).bytes = d :: ds := by
  rw [all_cons, Bool.and_eq_true] at hall
  have hvalue : valueFrom 0 (d :: ds) = valueFrom (d.toNat - 48) ds := by simp [valueFrom]
  rw [hvalue]
  by_cases hd : d = 48
  · obtain rfl := hzero.resolve_left (not_not_intro hd)
    exact bytes_ofNat_digit hall.1
  · have hpos : 0 < d.toNat - 48 := by
      have hne : d.toNat ≠ 48 := fun h => hd (UInt8.toNat_inj.1 h)
      have hdigit := isDigit_iff.1 hall.1
      omega
    rw [← bytes_ofNat_valueFrom hpos hall.2, bytes_ofNat_digit hall.1, singleton_append]

theorem valueFrom_ofNat (n : Nat) : valueFrom 0 (ofNat n).bytes = n := by
  conv_rhs => rw [← @Nat.ofDigitChars_ten_toDigits n]
  rw [bytes_ofNat, valueFrom, foldl_map, Nat.ofDigitChars_eq_foldl]
  refine foldl_ext _ _ _ fun m c hc => ?_
  rw [toNat_byteOf (isDigit_toDigits hc), Nat.mul_comm]
  rfl

/-- The digits of a number, of which only those of zero start with a zero. -/
theorem exists_bytes_ofNat (n : Nat) : ∃ d ds, (ofNat n).bytes = d :: ds ∧ (d ≠ 48 ∨ ds = []) := by
  induction n using Nat.strong_induction_on with
  | _ n ih =>
    rw [bytes_ofNat, Nat.toDigits_eq_if (by decide)]
    split
    · exact ⟨_, _, rfl, .inr rfl⟩
    · obtain ⟨d, ds, hbytes, hzero⟩ := ih (n / 10) (by omega)
      rw [map_append, ← bytes_ofNat, hbytes]
      refine ⟨d, _, rfl, .inl ?_⟩
      rintro rfl
      have hvalue := valueFrom_ofNat (n / 10)
      rw [hbytes, hzero.resolve_left (by decide)] at hvalue
      simp [valueFrom] at hvalue
      omega

theorem ofNat_injective {m : Nat} (h : ofNat m = ofNat n) : m = n := by
  rw [← valueFrom_ofNat m, h, valueFrom_ofNat]

end Text

/-! ## Indices -/

namespace Key

/-- A text is read as an index exactly if it is the decimal text of it, in at most nine digits. -/
theorem indexOfText?_eq_some_iff {t : Text} :
    indexOfText? t = some i ↔ i < 10 ^ 9 ∧ t = Text.ofNat i := by
  rw [← length_ofNat_le_iff (by decide : 0 < 9)]
  constructor
  · intro h
    unfold indexOfText? at h
    cases hbytes : t.bytes with
    | nil => simp [hbytes] at h
    | cons d ds =>
      simp only [hbytes] at h
      split_ifs at h with hlength hzero hall
      have hnat := @Text.bytes_ofNat_value d ds hall (by
        cases ds with
        | nil => exact .inr rfl
        | cons e es => exact .inl (by simpa using hzero))
      have hi : Text.valueFrom 0 (d :: ds) = i := by simpa [Text.valueFrom] using h
      rw [hi] at hnat
      exact ⟨by rw [hnat]; simpa using hlength, ext_bytes (by rw [hnat, hbytes])⟩
  · rintro ⟨hlength, rfl⟩
    obtain ⟨d, ds, hbytes, hzero⟩ := exists_bytes_ofNat i
    have hall : (d :: ds).all (fun d => decide (48 ≤ d) && decide (d ≤ 57)) = true := by
      rw [all_eq_true, ← hbytes]
      exact fun d hd => isDigit_of_mem_ofNat hd
    rw [hbytes] at hlength
    unfold indexOfText?
    simp only [hbytes]
    rw [if_neg (by simpa using hlength), if_neg, if_pos hall]
    · exact congrArg some (hbytes ▸ valueFrom_ofNat i)
    · rcases hzero with hzero | rfl
      · simp [hzero]
      · simp

end Key

/-! ## Numbers that are indices -/

namespace Number

variable {n : Number}

theorem truncatedMagnitude_eq (n : Number) :
    n.truncatedMagnitude = n.significand * 2 ^ n.scale.toNat / 2 ^ (-n.scale).toNat := by
  rw [truncatedMagnitude, Nat.shiftRight_eq_div_pow, Nat.shiftLeft_eq]

theorem isIntegral_iff : n.isIntegral = true ↔
    n.isFinite = true ∧ 2 ^ (-n.scale).toNat ∣ n.significand * 2 ^ n.scale.toNat := by
  simp [isIntegral, Nat.shiftLeft_eq, Nat.dvd_iff_mod_eq_zero]

theorem hiddenBit_eq : hiddenBit = 2 ^ 52 := rfl

theorem divideToEven_one (n : Nat) : divideToEven n 1 = n := by
  simp [divideToEven, Nat.mod_one]

/-- The bits of a positive number that needs no rounding. -/
theorem nearestBits_one (hpos : 0 < i) (hlog : i.log2 ≤ 52) :
    nearestBits i 1 = min ((i.log2 + 1022) * hiddenBit + i * 2 ^ (52 - i.log2)) infiniteBits := by
  have hfloor : floorLog2 i 1 = i.log2 := by
    have hle : 2 ^ i.log2 ≤ i := Nat.log2_self_le (Nat.ne_of_gt hpos)
    simp [floorLog2, Nat.shiftLeft_eq, show Nat.log2 1 = 0 by decide, hle]
  have hscale : max ((i.log2 : Int) - 52) (-1074) = (i.log2 : Int) - 52 := by omega
  unfold nearestBits
  rw [if_neg (Nat.ne_of_gt hpos), hfloor]
  simp only [hscale]
  rw [show ((i.log2 : Int) - 52).toNat = 0 by omega,
    show (-((i.log2 : Int) - 52)).toNat = 52 - i.log2 by omega,
    show ((i.log2 : Int) - 52 + 1074).toNat = i.log2 + 1022 by omega, Nat.shiftLeft_eq,
    Nat.shiftLeft_zero, divideToEven_one]

theorem magnitudeBits_ofMagnitudeBits {bits : Nat} (h : bits < signBit) :
    (ofMagnitudeBits false bits).magnitudeBits = bits ∧ (ofMagnitudeBits false bits).isNegative = false := by
  have hsign : signBit = 2 ^ 63 := rfl
  rw [hsign] at h
  have hbits : (bits.toUInt64).toNat = bits := by
    rw [Nat.toUInt64, UInt64.toNat_ofNat']
    omega
  constructor
  · simp only [magnitudeBits, ofMagnitudeBits, Bool.false_eq_true, if_false]
    rw [UInt64.toNat_mod, hbits]
    exact Nat.mod_eq_of_lt h
  · simp only [isNegative, ofMagnitudeBits, Bool.false_eq_true, if_false, decide_eq_false_iff_not,
      UInt64.le_iff_toNat_le, hbits]
    exact Nat.not_le.2 h

/-- An index is the index of the number nearest to it. -/
theorem indexOfNumber?_ofNat (hi : i ≤ Key.maxIndex) :
    Key.indexOfNumber? (ofNat i) = some i := by
  rcases Nat.eq_zero_or_pos i with rfl | hpos
  · decide
  · have hlog : i.log2 < 31 := (Nat.log2_lt (Nat.ne_of_gt hpos)).2 (Nat.lt_of_le_of_lt hi (by decide))
    -- The significand is the index, shifted until its highest bit is the hidden one.
    have hlow : 2 ^ 52 ≤ i * 2 ^ (52 - i.log2) := by
      calc 2 ^ 52 = 2 ^ i.log2 * 2 ^ (52 - i.log2) := by rw [← Nat.pow_add]; congr 1; omega
        _ ≤ i * 2 ^ (52 - i.log2) := Nat.mul_le_mul_right _ (Nat.log2_self_le (Nat.ne_of_gt hpos))
    have hhigh : i * 2 ^ (52 - i.log2) < 2 ^ 53 := by
      calc i * 2 ^ (52 - i.log2) < 2 ^ (i.log2 + 1) * 2 ^ (52 - i.log2) :=
            Nat.mul_lt_mul_of_pos_right (Nat.lt_log2_self) (Nat.two_pow_pos _)
        _ = 2 ^ 53 := by rw [← Nat.pow_add]; congr 1; omega
    have hbits : nearestBits i 1 = (i.log2 + 1022) * 2 ^ 52 + i * 2 ^ (52 - i.log2) := by
      rw [nearestBits_one hpos (by omega), infiniteBits, hiddenBit_eq, Nat.min_eq_left (by omega)]
    obtain ⟨hmagnitude, hsign⟩ := @magnitudeBits_ofMagnitudeBits (nearestBits i 1)
      (by rw [hbits, show signBit = 2 ^ 63 from rfl]; omega)
    change (ofNat i).magnitudeBits = _ at hmagnitude
    change (ofNat i).isNegative = _ at hsign
    rw [hbits] at hmagnitude
    have hfield : (ofNat i).exponentField = i.log2 + 1023 := by
      rw [exponentField, hmagnitude, hiddenBit_eq]
      omega
    have hsignificand : (ofNat i).significand = i * 2 ^ (52 - i.log2) := by
      rw [significand, hfield, if_neg (by omega), fraction, hmagnitude, hiddenBit_eq]
      omega
    have hscale : (ofNat i).scale = (i.log2 : Int) - 52 := by
      rw [scale, hfield, if_neg (by omega)]
      omega
    have hdown : (-(ofNat i).scale).toNat = 52 - i.log2 := by omega
    have hup : (ofNat i).scale.toNat = 0 := by omega
    have htruncated : (ofNat i).truncatedMagnitude = i := by
      rw [truncatedMagnitude_eq, hsignificand, hdown, hup, Nat.pow_zero, Nat.mul_one,
        Nat.mul_div_cancel _ (Nat.two_pow_pos _)]
    have hintegral : (ofNat i).isIntegral = true := by
      rw [isIntegral_iff, hsignificand, hdown, hup, Nat.pow_zero, Nat.mul_one]
      refine ⟨?_, Nat.dvd_mul_left _ _⟩
      rw [isFinite, hmagnitude, decide_eq_true_eq, infiniteBits, hiddenBit_eq]
      omega
    rw [Key.indexOfNumber?, hintegral, hsign, htruncated, if_pos (by simpa using hi)]

end Number

/-! ## The text of a key -/

/-- The text that a key is known by: that of a string, or what a number is shown as. -/
def Datum.label? : Datum → Option Text
  | number n => some n.format
  | string t => some t
  | _ => none

/-- A key in its one form: a text that spells an index in nine digits is that index, and the key as it
was given has the text of the key. -/
structure Key.Canonical (k : Key) : Prop where
  label : k.datum.label? = some k.text
  index : ∀ i, Key.indexOfText? k.text = some i → k = .index i

end Inkwell
