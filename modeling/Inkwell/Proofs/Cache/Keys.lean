import Inkwell.Engine.Basic
import Inkwell.Proofs.Cbor.ReadBack

/-!
# What keys tell apart

The text whose digest is the key of a program names the functions of the host, the file and the source
one behind the other. Names are not quoted, so two lists of names may look the same. But on one engine
functions are only added, so of two lists of names one is the beginning of the other, and where the
shorter one ends the texts differ. A file name ends at the first zero byte if it has none itself. So on
one engine the text tells apart the names, the file and the source (`Engine.preimage_eq`), and so does
the key as long as no two of the texts have the same digest.
-/

namespace Inkwell

open List

variable {file file' source source' : Text}

/-! ## Hexadecimal digits -/

namespace Text

theorem hexValue?_hexDigit : ∀ n < 16, hexValue? (hexDigit n) = some n := by
  decide

theorem ofHexBytes?_hexByte (found bs : List UInt8) :
    ofHexBytes? found (bs.flatMap hexByte) = some (found.reverse ++ bs) := by
  induction bs generalizing found with
  | nil => simp [ofHexBytes?]
  | cons b rest ih =>
    have hbyte : (16 * (b.toNat / 16) + b.toNat % 16).toUInt8 = b := by
      rw [Nat.div_add_mod]
      exact UInt8.ofNat_toNat
    have hlt := b.toNat_lt
    rw [flatMap_cons, hexByte, cons_append, singleton_append, ofHexBytes?,
      hexValue?_hexDigit _ (by omega), hexValue?_hexDigit _ (by omega)]
    simp only [hbyte]
    rw [ih, reverse_cons, append_assoc, singleton_append]

/-- Hexadecimal digits spell one text only. -/
theorem hex_injective {s t : Text} (h : s.hex = t.hex) : s = t := by
  have hbytes := congrArg (fun u : Text => ofHexBytes? [] u.bytes) h
  simp only [hex, bytes_ofBytes, ofHexBytes?_hexByte, reverse_nil, nil_append,
    Option.some.injEq] at hbytes
  exact ext_bytes hbytes

/-! ## Lists of names -/

theorem bytes_join_cons (separator first : Text) (rest : List Text) :
    (join separator (first :: rest)).bytes =
      first.bytes ++ rest.flatMap fun part => separator.bytes ++ part.bytes := by
  show (rest.foldl (fun acc part => acc ++ separator ++ part) first).bytes = _
  induction rest generalizing first with
  | nil => rw [foldl_nil, flatMap_nil, append_nil]
  | cons part rest ih =>
    rw [foldl_cons, ih, bytes_append, bytes_append, flatMap_cons, append_assoc,
      append_assoc, append_assoc]

end Text

/-- What stands in front of the first occurrence of an element, and behind it. -/
theorem append_cons_cancel {α : Type} {a : α} {xs xs' ys ys' : List α} (hxs : a ∉ xs) (hxs' : a ∉ xs')
    (h : xs ++ a :: ys = xs' ++ a :: ys') : xs = xs' ∧ ys = ys' := by
  induction xs generalizing xs' with
  | nil =>
    cases xs' with
    | nil => exact ⟨rfl, (List.cons.inj h).2⟩
    | cons x' rest' => exact absurd (List.cons.inj h).1 fun heq => hxs' (heq ▸ mem_cons_self)
  | cons x rest ih =>
    cases xs' with
    | nil => exact absurd (List.cons.inj h).1.symm fun heq => hxs (heq ▸ mem_cons_self)
    | cons x' rest' =>
      obtain ⟨rfl, hrest⟩ := List.cons.inj h
      obtain ⟨rfl, hys⟩ := ih (fun hmem => hxs (mem_cons_of_mem _ hmem))
        (fun hmem => hxs' (mem_cons_of_mem _ hmem)) hrest
      exact ⟨rfl, hys⟩

namespace Cache

/-- What stands behind the options in the text of a key, in bytes. -/
def particulars (names : List Text) (file source : Text) : List UInt8 :=
  (Text.join "," names).bytes ++ (Text.bytes ";file=" ++ (file.bytes ++ 0 :: source.bytes))

/-- A list of names, a file and a source are told apart from those with a longer list. -/
theorem particulars_inj {first : Text} {names more : List Text} (hfile : 0 ∉ file.bytes)
    (hfile' : 0 ∉ file'.bytes)
    (h : particulars (first :: names) file source = particulars (first :: (names ++ more)) file'
      source') :
    more = [] ∧ file = file' ∧ source = source' := by
  unfold particulars at h
  rw [Text.bytes_join_cons, Text.bytes_join_cons, flatMap_append, append_assoc,
    append_assoc, append_assoc, append_cancel_left_eq, append_cancel_left_eq] at h
  cases more with
  | cons name rest =>
    -- where the shorter list ends, a semicolon stands instead of a comma
    have hhead : some (59 : UInt8) = some 44 := congrArg List.head? h
    cases hhead
  | nil =>
    rw [flatMap_nil, nil_append, append_cancel_left_eq] at h
    obtain ⟨hfiles, hsources⟩ := append_cons_cancel hfile hfile' h
    exact ⟨rfl, Text.ext_bytes hfiles, Text.ext_bytes hsources⟩

end Cache

namespace Engine

/-- The text whose digest is the key of a program. -/
def preimage (e : Engine) (file source : Text) : Text := Cache.preimage source (e.fingerprint file)

theorem bytes_preimage (e : Engine) (file source : Text) :
    (e.preimage file source).bytes =
      Text.bytes (release ++ Text.ofBytes [0, Image.version, 0] ++
        (e.options.fingerprint ++ (";natives=" : Text))) ++
        Cache.particulars e.machine.natives.names file source := by
  unfold preimage Cache.preimage fingerprint Cache.particulars
  simp only [Text.bytes_append, Text.bytes_ofBytes, append_assoc, singleton_append]

/-- On engines with the same options, of which the second has more host functions, the same text is
that of the same program for the same host. -/
theorem preimage_eq {e e' : Engine} (hoptions : e'.options = e.options)
    (hsome : e.machine.natives.names ≠ [])
    (hnames : e.machine.natives.names <+: e'.machine.natives.names) (hfile : 0 ∉ file.bytes)
    (hfile' : 0 ∉ file'.bytes) (h : e.preimage file source = e'.preimage file' source') :
    e'.machine.natives.names = e.machine.natives.names ∧ file' = file ∧ source' = source := by
  have hbytes := congrArg Text.bytes h
  rw [bytes_preimage, bytes_preimage, hoptions, append_cancel_left_eq] at hbytes
  obtain ⟨more, hmore⟩ := hnames
  obtain ⟨first, names, hcons⟩ := exists_cons_of_ne_nil hsome
  rw [← hmore, hcons, cons_append] at hbytes
  obtain ⟨rfl, rfl, rfl⟩ := Cache.particulars_inj hfile hfile' hbytes
  exact ⟨by rw [← hmore, append_nil], rfl, rfl⟩

theorem preimage_of_key_eq {e e' : Engine} (h : e.key file source = e'.key file' source') :
    (e.preimage file source).digest = (e'.preimage file' source').digest :=
  Text.hex_injective h

end Engine

end Inkwell
