import Mathlib
import Inkwell.Image.Record
import Inkwell.Proofs.Cbor.ReadBack

/-!
# Records read back

The item of a record means that record again. A field that is left out is null, and null means zero,
false, nothing or the empty list, which is what the field was left out for.

The items of an image stand at fixed depths: the table of blocks is a map that holds an array of maps,
and so on down to the arguments of a call, which are inside six others.
-/

namespace Inkwell

open List Option

variable {limit n : Nat} {t : Text}

/-- An integer of sixty-four bits. -/
def IsWord (n : Int) : Prop := -2 ^ 63 ≤ n ∧ n < 2 ^ 63

instance (n : Int) : Decidable (IsWord n) :=
  inferInstanceAs (Decidable (-2 ^ 63 ≤ n ∧ n < 2 ^ 63))

/-- The operands of an instruction, and its position. -/
def Instruction.numbers (ins : Instruction) : List Int :=
  ins.dest :: ins.a :: ins.b :: ins.c :: ins.k :: ins.target :: ins.position.line ::
    ins.position.column :: ins.args

namespace Cbor

/-! ## Fields -/

/-- The key and the content of a field, unless it is left out. -/
def entry : Nat × Option Item → List Item
  | (key, some item) => [.unsigned key, item]
  | (_, none) => []

/-- The fields of a record that are not left out, with their numbers. -/
def present (fields : List (Nat × Option Item)) : List (Int × Item) :=
  fields.filterMap fun f => f.2.map fun item => ((f.1 : Int), item)

/-- The numbers of the fields are different and not too large. -/
def Keyed (fields : List (Nat × Option Item)) : Prop :=
  (fields.map Prod.fst).Nodup ∧ ∀ key ∈ fields.map Prod.fst, key < 2 ^ 63

/-- The fields of a record are numbered from one. -/
theorem Keyed.of_range {fields : List (Nat × Option Item)} (n : Nat)
    (h : fields.map Prod.fst = range' 1 n) (hn : n ≤ 16 := by decide) : Keyed fields := by
  refine ⟨h ▸ nodup_range', fun key hkey => ?_⟩
  rw [h, mem_range'_1] at hkey
  omega

theorem Item.key?_unsigned (last : Nat) (h : n < 2 ^ 63) :
    (Item.unsigned n).key? last = some (some (n : Int)) := by
  show some (some (Int64.ofNat n).toInt) = _
  rw [Int64.toInt_ofNat_of_lt h]

theorem fields?_record (last : Nat) {fields : List (Nat × Option Item)} (h : Keyed fields) :
    (Item.record fields).fields? last = some (present fields) := by
  show Item.fieldsOf last (fields.flatMap entry) = _
  obtain ⟨-, hkeys⟩ := h
  induction fields with
  | nil => rfl
  | cons f rest ih =>
    have hrest := ih fun key hkey => hkeys key (mem_cons_of_mem _ hkey)
    obtain ⟨key, _ | item⟩ := f
    · exact hrest
    · have hkey := Item.key?_unsigned last (hkeys _ mem_cons_self)
      show Item.fieldsOf last (.unsigned key :: item :: rest.flatMap entry) = _
      rw [Item.fieldsOf, hkey, hrest]
      rfl

theorem lookup_present_of_notMem {fields : List (Nat × Option Item)} {key : Nat}
    (h : key ∉ fields.map Prod.fst) : (present fields).lookup (key : Int) = none := by
  rw [lookup_eq_none_iff]
  rintro ⟨number, item⟩ hmem
  obtain ⟨f, hf, hitem⟩ := mem_filterMap.1 hmem
  obtain ⟨_, -, heq⟩ := map_eq_some_iff.1 hitem
  cases heq
  simp only [bne_iff_ne, ne_eq, Int.natCast_inj]
  rintro rfl
  exact h (mem_map_of_mem hf)

/-- A field of a record is the one with its number, or null if that is left out. -/
theorem field_present {fields : List (Nat × Option Item)} (hkeyed : Keyed fields) {number : Int}
    (hnumber : 0 ≤ number) {found : Option Item} (h : fields.lookup number.toNat = some found) :
    field (present fields) number = found.getD (.simple 22) := by
  unfold field
  congr 1
  obtain ⟨hnodup, -⟩ := hkeyed
  obtain ⟨key, rfl⟩ := Int.eq_ofNat_of_zero_le hnumber
  rw [Int.toNat_natCast] at h
  induction fields with
  | nil => cases h
  | cons f rest ih =>
    obtain ⟨number, content⟩ := f
    rw [map_cons, nodup_cons] at hnodup
    by_cases hkey : key = number
    · subst hkey
      rw [lookup_cons_self] at h
      cases h
      cases found with
      | none =>
        show (present rest).lookup (key : Int) = none
        exact lookup_present_of_notMem hnodup.1
      | some item => simp [present]
    · rw [List.lookup, beq_eq_false_iff_ne.2 hkey] at h
      have hrest := ih hnodup.2 h
      cases content with
      | none => exact hrest
      | some item =>
        have hother : ((key : Int) == (number : Int)) = false :=
          beq_eq_false_iff_ne.2 fun heq => hkey (Int.natCast_inj.1 heq)
        show List.lookup (key : Int) (((number : Int), item) :: present rest) = _
        rw [List.lookup, hother]
        exact hrest

theorem read_field {fields : List (Nat × Option Item)} (hkeyed : Keyed fields) {α : Type} {a : α}
    {found : Option Item} (read : Item → Option α) (number : Int)
    (h : fields.lookup number.toNat = some found) (hread : read (found.getD (.simple 22)) = some a)
    (hnumber : 0 ≤ number := by decide) : read (field (present fields) number) = some a :=
  (congrArg read (field_present hkeyed hnumber h)).trans hread

theorem length_flatMap_entry (fields : List (Nat × Option Item)) :
    ∃ n ≤ fields.length, (fields.flatMap entry).length = 2 * n := by
  induction fields with
  | nil => exact ⟨0, Nat.le_refl _, rfl⟩
  | cons f rest ih =>
    obtain ⟨n, hn, heq⟩ := ih
    obtain ⟨key, _ | item⟩ := f
    · exact ⟨n, Nat.le_succ_of_le hn, heq⟩
    · refine ⟨n + 1, Nat.succ_le_succ hn, ?_⟩
      rw [flatMap_cons, length_append, heq]
      show 2 + 2 * n = _
      omega

theorem Item.Fits.record {depth : Nat} (hlevel : depth < maxDepth)
    {fields : List (Nat × Option Item)} (hkeyed : Keyed fields) (hfew : fields.length ≤ limit)
    (hitems : ∀ f ∈ fields, ∀ item, f.2 = some item → item.Fits limit (depth + 1)) :
    (Item.record fields).Fits limit depth := by
  obtain ⟨n, hn, heq⟩ := length_flatMap_entry fields
  refine .map hlevel ⟨n, heq⟩ ?_ fun item hitem => ?_
  · show (fields.flatMap entry).length / 2 ≤ _
    rw [heq, Nat.mul_div_cancel_left n (by omega)]
    exact Nat.le_trans hn hfew
  · obtain ⟨⟨key, _ | found⟩, hf, hmem⟩ := mem_flatMap.1 hitem
    · cases hmem
    · rcases mem_cons.1 hmem with rfl | hmem
      · have hkey := hkeyed.2 _ (mem_map_of_mem hf)
        exact .unsigned (by rw [Nat.one_shiftLeft]; omega)
      · rcases mem_cons.1 hmem with rfl | hmem
        · exact hitems _ hf item rfl
        · cases hmem

/-- The content of a field fits if the record does. -/
theorem Item.Fits.field {limit depth : Nat} {fields : List (Nat × Option Item)}
    (h : (Item.record fields).Fits limit depth) {key : Nat} {item : Item}
    (hf : (key, some item) ∈ fields) : item.Fits limit (depth + 1) := by
  cases h with
  | map _ _ _ inner =>
    exact inner item (mem_flatMap.2 ⟨_, hf, mem_cons_of_mem _ mem_cons_self⟩)

/-! ## Contents of fields -/

theorem Item.Fits.int {depth : Nat} {n : Int} (h : IsWord n) :
    (Item.int n).Fits limit depth := by
  obtain ⟨hlow, hhigh⟩ := h
  unfold Item.int
  split
  · exact .negative (by rw [Nat.one_shiftLeft]; omega)
  · exact .unsigned (by rw [Nat.one_shiftLeft]; omega)

theorem int?_int {n : Int} (h : IsWord n) : (Item.int n).int? = some n := by
  obtain ⟨hlow, hhigh⟩ := h
  unfold Item.int
  split
  · have hback : -1 - ((-1 - n).toNat : Int) = n := by omega
    have hleast : -((1 <<< 63 : Nat) : Int) ≤ n := by
      rw [Nat.one_shiftLeft]
      exact hlow
    show (if -((1 <<< 63 : Nat) : Int) ≤ -1 - ((-1 - n).toNat : Int) then
      some (-1 - ((-1 - n).toNat : Int)) else none) = _
    rw [hback, if_pos hleast]
  · have hback : (n.toNat : Int) = n := by omega
    have hsmall : n.toNat < 1 <<< 63 := by
      rw [Nat.one_shiftLeft]
      omega
    show (if n.toNat < 1 <<< 63 then some (n.toNat : Int) else none) = _
    rw [if_pos hsmall, hback]

end Cbor

namespace Image

open Cbor (Item)

theorem int?_unlessZero {n : Int} (h : IsWord n) :
    ((unlessZero n).getD (.simple 22)).int? = some n := by
  unfold unlessZero
  split
  · rename_i hzero
    rw [hzero]
    rfl
  · exact Cbor.int?_int h

theorem nat?_unsigned (h : n ≤ limit) : (Item.unsigned n).nat? limit = some n := by
  show (if n ≤ limit then some n else none) = _
  rw [if_pos h]

theorem nat?_unlessZero (h : n ≤ limit) :
    ((unlessZero n).getD (.simple 22)).nat? limit = some n := by
  unfold unlessZero
  split
  · rename_i hzero
    rw [show n = 0 by omega]
    rfl
  · exact nat?_unsigned h

theorem text?_text (h : t.isWellFormed = true) : (Item.text [t]).text? = some t := by
  show (if [t].all (·.isWellFormed) then some (Text.concat [t]) else none) = _
  rw [if_pos (by simpa using h), Text.concat_singleton]

theorem eq_empty_of_isEmpty (h : t.isEmpty = true) : t = "" := by
  have hsize : t.size = 0 := by simpa [Text.isEmpty] using h
  have hbytes : t.bytes = [] := eq_nil_of_length_eq_zero (by rw [Text.length_bytes, hsize])
  exact Text.ext_bytes (hbytes.trans rfl)

theorem text?_unlessEmpty (h : t.isWellFormed = true) :
    ((unlessEmpty t).getD (.simple 22)).text? = some t := by
  unfold unlessEmpty
  split
  · rename_i hempty
    rw [eq_empty_of_isEmpty hempty]
    rfl
  · exact text?_text h

/-- Only a text of characters is read. -/
theorem isWellFormed_of_text?_unlessEmpty {found : Text}
    (h : ((unlessEmpty t).getD (.simple 22)).text? = some found) : t.isWellFormed = true := by
  unfold unlessEmpty at h
  split at h
  · rename_i hempty
    rw [eq_empty_of_isEmpty hempty]
    rfl
  · change (if [t].all (·.isWellFormed) then some (Text.concat [t]) else none) = some found at h
    split at h
    · rename_i hall
      simpa using hall
    · cases h

theorem bytes?_unlessEmpty (t : Text) :
    ((if t.isEmpty then none else some (Item.bytes [t])).getD (.simple 22)).bytes? = some t := by
  split
  · rename_i hempty
    rw [eq_empty_of_isEmpty hempty]
    rfl
  · show some (Text.concat [t]) = _
    rw [Text.concat_singleton]

theorem bool?_unlessFalse (b : Bool) :
    ((if b then some (Item.bool true) else none).getD (.simple 22)).bool? = some b := by
  cases b <;> rfl

theorem list?_array {α β : Type} {f : α → Item} {g : Item → Option β} {back : α → β} {xs : List α}
    (h : ∀ x ∈ xs, g (f x) = some (back x)) : (Item.array (xs.map f)).list? g = some (xs.map back) := by
  have hall : (xs.map f).mapM g = some (xs.map back) := by
    induction xs with
    | nil => rfl
    | cons x rest ih =>
      rw [map_cons, mapM_cons, h x mem_cons_self,
        ih fun y hy => h y (mem_cons_of_mem _ hy)]
      rfl
  exact hall

theorem list?_unlessNil {α β : Type} {f : α → Item} {g : Item → Option β} {back : α → β}
    {xs : List α} (h : ∀ x ∈ xs, g (f x) = some (back x)) :
    ((unlessNil f xs).getD (.simple 22)).list? g = some (xs.map back) := by
  unfold unlessNil
  split
  · rename_i hempty
    rw [isEmpty_iff.1 hempty]
    rfl
  · exact list?_array h

/-- All elements of a list that is read are read. -/
theorem isSome_of_list?_array {α β : Type} {f : α → Item} {g : Item → Option β} {xs : List α}
    {found : List β} (h : (Item.array (xs.map f)).list? g = some found) :
    ∀ x ∈ xs, (g (f x)).isSome := by
  have hall : (xs.map f).mapM g = some found := h
  clear h
  induction xs generalizing found with
  | nil => exact nofun
  | cons x rest ih =>
    rw [map_cons, mapM_cons] at hall
    obtain ⟨first, hfirst, hall⟩ := bind_eq_some_iff.1 hall
    obtain ⟨others, hothers, -⟩ := bind_eq_some_iff.1 hall
    exact forall_mem_cons.2 ⟨isSome_iff_exists.2 ⟨first, hfirst⟩, ih hothers⟩

theorem isSome_of_list?_unlessNil {α β : Type} {f : α → Item} {g : Item → Option β} {xs : List α}
    {found : List β} (h : ((unlessNil f xs).getD (.simple 22)).list? g = some found) :
    ∀ x ∈ xs, (g (f x)).isSome := by
  unfold unlessNil at h
  split at h
  · rename_i hempty
    rw [isEmpty_iff.1 hempty]
    exact nofun
  · exact isSome_of_list?_array h

theorem list?_unlessNil_self {α : Type} {f : α → Item} {g : Item → Option α} {xs : List α}
    (h : ∀ x ∈ xs, g (f x) = some x) : ((unlessNil f xs).getD (.simple 22)).list? g = some xs :=
  (list?_unlessNil h).trans (congrArg some (map_id xs))

section Fits

variable {limit depth : Nat} {item : Item}

theorem eq_of_unless {p : Prop} [Decidable p] {content : Item}
    (h : (if p then none else some content) = some item) : item = content := by
  split at h <;> cases h
  rfl

theorem fits_unlessZero {n : Int} (h : IsWord n) (hitem : unlessZero n = some item) :
    item.Fits limit depth := by
  obtain rfl := eq_of_unless hitem
  exact .int h

theorem fits_unlessZero_nat (h : n < 2 ^ 64) (hitem : unlessZero n = some item) :
    item.Fits limit depth := by
  obtain rfl := eq_of_unless hitem
  exact .unsigned (by rwa [Nat.one_shiftLeft])

theorem fits_unlessEmpty (h : t.size < 2 ^ 63) (hitem : unlessEmpty t = some item) :
    item.Fits limit depth := by
  obtain rfl := eq_of_unless hitem
  exact .text (by rw [Nat.one_shiftLeft]; omega)

theorem fits_unlessFalse {b : Bool} (hitem : (if b then some (.bool true) else none) = some item) :
    item.Fits limit depth := by
  cases b with
  | false => cases hitem
  | true =>
    cases hitem
    exact .simple (by decide)

theorem fits_unlessNil (hlevel : depth < Cbor.maxDepth) {α : Type} {f : α → Item} {xs : List α}
    (hfew : xs.length ≤ limit) (h : ∀ x ∈ xs, (f x).Fits limit (depth + 1))
    (hitem : unlessNil f xs = some item) : item.Fits limit depth := by
  obtain rfl := eq_of_unless hitem
  refine .array hlevel (by rwa [length_map]) fun inner hinner => ?_
  obtain ⟨x, hx, rfl⟩ := mem_map.1 hinner
  exact h x hx

/-- A list that fits is short enough. -/
theorem length_le_of_fits_unlessNil {α : Type} {f : α → Item} {xs : List α}
    (h : ∀ item, unlessNil f xs = some item → item.Fits limit depth) : xs.length ≤ limit := by
  unfold unlessNil at h
  split at h
  · rename_i hempty
    rw [isEmpty_iff.1 hempty]
    exact Nat.zero_le limit
  · cases h _ rfl with
    | array _ few _ => rwa [length_map] at few

theorem fits_of_mem_unlessNil {α : Type} {f : α → Item} {xs : List α} {x : α} (hx : x ∈ xs)
    (h : ∀ item, unlessNil f xs = some item → item.Fits limit depth) :
    (f x).Fits limit (depth + 1) := by
  unfold unlessNil at h
  rw [if_neg (by simpa using ne_nil_of_mem hx)] at h
  cases h _ rfl with
  | array _ _ inner => exact inner _ (mem_map_of_mem hx)

end Fits

/-! ## Constants -/

namespace ConstantRecord

/-- A stored constant whose numbers and texts have sizes that can be written. -/
structure Sized (c : ConstantRecord) : Prop where
  kind : c.kind ≤ 255
  bits : c.bits < 2 ^ 64
  bytes : c.bytes.size < 2 ^ 63
  native : c.native.size < 2 ^ 63
  block : IsWord c.block

/-- A stored constant that can be read back. -/
structure Fits (c : ConstantRecord) : Prop extends c.Sized where
  wellFormed : c.native.isWellFormed = true

/-- The fields of a constant. -/
def fields (c : ConstantRecord) : List (Nat × Option Item) :=
  [(1, some (.unsigned c.kind)), (2, unlessZero c.bits),
    (3, if c.bytes.isEmpty then none else some (.bytes [c.bytes])), (4, unlessEmpty c.native),
    (5, unlessZero c.block)]

theorem keyed_fields (c : ConstantRecord) : Cbor.Keyed c.fields := .of_range 5 rfl

variable {c : ConstantRecord}

theorem ofItem?_toItem (h : c.Fits) : ofItem? c.toItem = some c := by
  have hfields : c.toItem.fields? 5 = some (Cbor.present c.fields) :=
    Cbor.fields?_record 5 c.keyed_fields
  have hfield := @Cbor.read_field c.fields c.keyed_fields
  have hkind := hfield (Item.nat? 255) 1 rfl (nat?_unsigned h.kind)
  have hbits := hfield (Item.nat? (1 <<< 64 - 1)) 2 rfl
    (nat?_unlessZero (by have := h.bits; rw [Nat.one_shiftLeft]; omega))
  have hbytes := hfield Item.bytes? 3 rfl (bytes?_unlessEmpty c.bytes)
  have hnative := hfield Item.text? 4 rfl (text?_unlessEmpty h.wellFormed)
  have hblock := hfield Item.int? 5 rfl (int?_unlessZero h.block)
  simp only [ofItem?, hfields, hkind, hbits, hbytes, hnative, hblock, bind_eq_bind,
    bind_some]
  rfl

/-- A constant that is read has the name of a host function that is a text of characters. -/
theorem wellFormed_of_ofItem? (h : (ofItem? c.toItem).isSome) : c.native.isWellFormed = true := by
  have hfields : c.toItem.fields? 5 = some (Cbor.present c.fields) :=
    Cbor.fields?_record 5 c.keyed_fields
  have hnative := @Cbor.field_present c.fields c.keyed_fields 4 (by decide) _ rfl
  obtain ⟨found, hfound⟩ := isSome_iff_exists.1 h
  simp only [ofItem?, hfields, hnative, bind_eq_bind, bind_some,
    bind_eq_some_iff] at hfound
  obtain ⟨-, -, -, -, -, -, native, htext, -⟩ := hfound
  exact isWellFormed_of_text?_unlessEmpty htext

theorem fits_toItem (h : c.Sized) (hlimit : 16 ≤ limit) : c.toItem.Fits limit 4 := by
  have hfields : ∀ f ∈ c.fields, ∀ item, f.2 = some item → item.Fits limit 5 := by
    unfold fields
    simp only [forall_mem_cons]
    refine ⟨fun item hitem => ?_, fun item => fits_unlessZero_nat h.bits, fun item hitem => ?_,
      fun item => fits_unlessEmpty h.native, fun item => fits_unlessZero h.block,
      nofun⟩
    · cases hitem
      have hkind := h.kind
      exact .unsigned (by rw [Nat.one_shiftLeft]; omega)
    · obtain rfl := eq_of_unless hitem
      have hbytes := h.bytes
      exact .bytes (by rw [Nat.one_shiftLeft]; omega)
  exact .record (by decide) c.keyed_fields (show 5 ≤ _ by omega) hfields

end ConstantRecord

/-! ## Captured cells -/

/-- The fields of a captured cell. -/
def bindFields (b : Bind) : List (Nat × Option Item) :=
  [(1, if b.isLocal then some (.bool true) else none), (2, some (.int b.index))]

theorem keyed_bindFields (b : Bind) : Cbor.Keyed (bindFields b) := .of_range 2 rfl

theorem bindOfItem?_bindItem {b : Bind} (h : IsWord b.index) : bindOfItem? (bindItem b) = some b := by
  have hfields : (bindItem b).fields? 2 = some (Cbor.present (bindFields b)) :=
    Cbor.fields?_record 2 (keyed_bindFields b)
  have hfield := @Cbor.read_field (bindFields b) (keyed_bindFields b)
  have hlocal := hfield Item.bool? 1 rfl (bool?_unlessFalse b.isLocal)
  have hindex := hfield Item.int? 2 rfl (Cbor.int?_int h)
  simp only [bindOfItem?, hfields, hlocal, hindex, bind_eq_bind, bind_some]
  rfl

theorem fits_bindItem {b : Bind} (h : IsWord b.index) (hlimit : 16 ≤ limit) :
    (bindItem b).Fits limit 4 := by
  have hfields : ∀ f ∈ bindFields b, ∀ item, f.2 = some item → item.Fits limit 5 := by
    unfold bindFields
    simp only [forall_mem_cons]
    refine ⟨fun item => fits_unlessFalse, fun item hitem => ?_, nofun⟩
    cases hitem
    exact .int h
  exact .record (by decide) (keyed_bindFields b) (show 2 ≤ _ by omega) hfields

/-! ## Instructions -/

/-- All operands of an instruction have sixty-four bits, and there are not too many arguments. -/
@[mk_iff]
structure Operands (ins : Instruction) : Prop where
  dest : IsWord ins.dest
  a : IsWord ins.a
  b : IsWord ins.b
  c : IsWord ins.c
  k : IsWord ins.k
  args : ∀ r ∈ ins.args, IsWord r
  few : ins.args.length ≤ Cbor.maxItems
  target : IsWord ins.target
  line : IsWord ins.position.line
  column : IsWord ins.position.column

instance : DecidablePred Operands := fun ins => decidable_of_iff' _ (operands_iff ins)

theorem operands_iff_numbers (ins : Instruction) :
    Operands ins ↔ (∀ n ∈ ins.numbers, IsWord n) ∧ ins.args.length ≤ Cbor.maxItems := by
  simp only [operands_iff, Instruction.numbers, forall_mem_cons]
  tauto

namespace InstructionRecord

/-- A stored instruction whose operands have sixty-four bits, with up to `limit` arguments. -/
structure Sized (limit : Nat) (r : InstructionRecord) : Prop where
  name : r.name.size < 2 ^ 63
  numbers : ∀ n ∈ r.operands.numbers, IsWord n
  few : r.operands.args.length ≤ limit

/-- A stored instruction that can be read back. -/
structure Fits (r : InstructionRecord) : Prop where
  name : r.name.size < 2 ^ 63
  wellFormed : r.name.isWellFormed = true
  operands : Operands r.operands

/-- The fields of an instruction. -/
def fields (r : InstructionRecord) : List (Nat × Option Item) :=
  let ins := r.operands
  [(1, some (.text [r.name])), (2, unlessZero ins.dest), (3, unlessZero ins.a),
    (4, unlessZero ins.b), (5, unlessZero ins.c), (6, unlessZero ins.k),
    (7, unlessNil .int ins.args), (8, unlessZero ins.target),
    (9, if ins.tail then some (.bool true) else none), (10, unlessZero ins.position.line),
    (11, unlessZero ins.position.column)]

theorem keyed_fields (r : InstructionRecord) : Cbor.Keyed r.fields := .of_range 11 rfl

variable {r : InstructionRecord}

/-- The operation code is not among the operands. -/
theorem ofItem?_toItem (h : r.Fits) :
    ofItem? r.toItem = some { r with operands.op := .nop } := by
  have hfields : r.toItem.fields? 11 = some (Cbor.present r.fields) :=
    Cbor.fields?_record 11 r.keyed_fields
  have hfield := @Cbor.read_field r.fields r.keyed_fields
  have hname := hfield Item.text? 1 rfl (text?_text h.wellFormed)
  have hargs := hfield (Item.list? Item.int?) 7 rfl
    (list?_unlessNil_self fun r hr => Cbor.int?_int (h.operands.args r hr))
  have htail := hfield Item.bool? 9 rfl (bool?_unlessFalse r.operands.tail)
  have hdest := hfield Item.int? 2 rfl (int?_unlessZero h.operands.dest)
  have ha := hfield Item.int? 3 rfl (int?_unlessZero h.operands.a)
  have hb := hfield Item.int? 4 rfl (int?_unlessZero h.operands.b)
  have hc := hfield Item.int? 5 rfl (int?_unlessZero h.operands.c)
  have hk := hfield Item.int? 6 rfl (int?_unlessZero h.operands.k)
  have htarget := hfield Item.int? 8 rfl (int?_unlessZero h.operands.target)
  have hline := hfield Item.int? 10 rfl (int?_unlessZero h.operands.line)
  have hcolumn := hfield Item.int? 11 rfl (int?_unlessZero h.operands.column)
  simp only [ofItem?, hfields, hname, hdest, ha, hb, hc, hk, hargs, htarget, htail, hline, hcolumn,
    bind_eq_bind, bind_some]
  rfl

theorem Fits.sized (h : r.Fits) : r.Sized Cbor.maxItems :=
  ⟨h.name, ((operands_iff_numbers _).1 h.operands).1, h.operands.few⟩

theorem fits_toItem (h : r.Sized limit) (hlimit : 16 ≤ limit) :
    r.toItem.Fits limit 4 := by
  have hnumbers := h.numbers
  simp only [Instruction.numbers, forall_mem_cons] at hnumbers
  obtain ⟨hdest, ha, hb, hc, hk, htarget, hline, hcolumn, hargs⟩ := hnumbers
  have hfields : ∀ f ∈ r.fields, ∀ item, f.2 = some item → item.Fits limit 5 := by
    unfold fields
    simp only [forall_mem_cons]
    refine ⟨fun item hitem => ?_, fun item => fits_unlessZero hdest, fun item => fits_unlessZero ha,
      fun item => fits_unlessZero hb, fun item => fits_unlessZero hc, fun item => fits_unlessZero hk,
      fun item => fits_unlessNil (by decide) h.few fun r hr => .int (hargs r hr),
      fun item => fits_unlessZero htarget, fun item => fits_unlessFalse,
      fun item => fits_unlessZero hline, fun item => fits_unlessZero hcolumn,
      nofun⟩
    cases hitem
    have hname := h.name
    exact .text (by rw [Nat.one_shiftLeft]; omega)
  exact .record (by decide) r.keyed_fields (show 11 ≤ _ by omega) hfields

/-- An instruction that fits has not too many arguments. -/
theorem few_of_fits_toItem (h : r.toItem.Fits limit 4) :
    r.operands.args.length ≤ limit := by
  have hargs : ∀ item, unlessNil Item.int r.operands.args = some item → item.Fits limit 5 :=
    fun item hitem => @Cbor.Item.Fits.field _ _ r.fields h 7 item (by simp [fields, hitem])
  exact length_le_of_fits_unlessNil hargs

end InstructionRecord

/-! ## Blocks -/

namespace BlockRecord

/-- A stored block whose numbers and texts have sizes that can be written, with lists of up to `limit`
elements. -/
structure Sized (limit : Nat) (r : BlockRecord) : Prop where
  id : IsWord r.id
  name : r.name.size < 2 ^ 63
  slots : IsWord r.slots
  params : IsWord r.params
  ret : IsWord r.ret
  constants : ∀ c ∈ r.constants, c.Sized
  binds : ∀ b ∈ r.binds, IsWord b.index
  code : ∀ ins ∈ r.code, ins.Sized limit
  fewConstants : r.constants.length ≤ limit
  fewBinds : r.binds.length ≤ limit
  fewInstructions : r.code.length ≤ limit

/-- A stored block that can be read back. -/
structure Fits (r : BlockRecord) : Prop where
  id : IsWord r.id
  name : r.name.size < 2 ^ 63
  wellFormed : r.name.isWellFormed = true
  slots : IsWord r.slots
  params : IsWord r.params
  ret : IsWord r.ret
  constants : ∀ c ∈ r.constants, c.Fits
  binds : ∀ b ∈ r.binds, IsWord b.index
  code : ∀ ins ∈ r.code, ins.Fits
  fewConstants : r.constants.length ≤ Cbor.maxItems
  fewBinds : r.binds.length ≤ Cbor.maxItems
  fewInstructions : r.code.length ≤ Cbor.maxItems

/-- The fields of a block. -/
def fields (r : BlockRecord) : List (Nat × Option Item) :=
  [(1, some (.int r.id)), (2, unlessEmpty r.name), (3, some (.int r.slots)),
    (4, unlessZero r.params), (5, some (.int r.ret)),
    (6, unlessNil ConstantRecord.toItem r.constants), (7, unlessNil bindItem r.binds),
    (8, unlessNil InstructionRecord.toItem r.code)]

theorem keyed_fields (r : BlockRecord) : Cbor.Keyed r.fields := .of_range 8 rfl

/-- What is left of a stored block when it is read back: its operation codes only have names. -/
def plain (r : BlockRecord) : BlockRecord :=
  { r with code := r.code.map fun ins => { ins with operands.op := .nop } }

variable {r : BlockRecord}

theorem ofItem?_toItem (h : r.Fits) : ofItem? r.toItem = some r.plain := by
  have hfields : r.toItem.fields? 8 = some (Cbor.present r.fields) :=
    Cbor.fields?_record 8 r.keyed_fields
  have hfield := @Cbor.read_field r.fields r.keyed_fields
  have hid := hfield Item.int? 1 rfl (Cbor.int?_int h.id)
  have hname := hfield Item.text? 2 rfl (text?_unlessEmpty h.wellFormed)
  have hslots := hfield Item.int? 3 rfl (Cbor.int?_int h.slots)
  have hparams := hfield Item.int? 4 rfl (int?_unlessZero h.params)
  have hret := hfield Item.int? 5 rfl (Cbor.int?_int h.ret)
  have hconstants := hfield (Item.list? ConstantRecord.ofItem?) 6 rfl
    (list?_unlessNil_self fun c hc => ConstantRecord.ofItem?_toItem (h.constants c hc))
  have hbinds := hfield (Item.list? bindOfItem?) 7 rfl
    (list?_unlessNil_self fun b hb => bindOfItem?_bindItem (h.binds b hb))
  have hcode := hfield (Item.list? InstructionRecord.ofItem?) 8 rfl
    (list?_unlessNil fun ins hins => InstructionRecord.ofItem?_toItem (h.code ins hins))
  simp only [ofItem?, hfields, hid, hname, hslots, hparams, hret, hconstants, hbinds, hcode,
    bind_eq_bind, bind_some]
  rfl

/-- The texts of a block that is read are texts of characters. -/
theorem wellFormed_of_ofItem? (h : (ofItem? r.toItem).isSome) : r.name.isWellFormed = true ∧
    ∀ c ∈ r.constants, c.native.isWellFormed = true := by
  have hfields : r.toItem.fields? 8 = some (Cbor.present r.fields) :=
    Cbor.fields?_record 8 r.keyed_fields
  have hname := @Cbor.field_present r.fields r.keyed_fields 2 (by decide) _ rfl
  have hconstants := @Cbor.field_present r.fields r.keyed_fields 6 (by decide) _ rfl
  obtain ⟨found, hfound⟩ := isSome_iff_exists.1 h
  simp only [ofItem?, hfields, hname, hconstants, bind_eq_bind, bind_some,
    bind_eq_some_iff] at hfound
  obtain ⟨-, -, name, htext, -, -, -, -, -, -, constants, hlist, -⟩ := hfound
  exact ⟨isWellFormed_of_text?_unlessEmpty htext, fun c hc =>
    ConstantRecord.wellFormed_of_ofItem? (isSome_of_list?_unlessNil hlist c hc)⟩

theorem Fits.sized (h : r.Fits) : r.Sized Cbor.maxItems :=
  { h with
    constants := fun c hc => (h.constants c hc).toSized
    code := fun ins hins => (h.code ins hins).sized }

theorem fits_toItem (h : r.Sized limit) (hlimit : 16 ≤ limit) :
    r.toItem.Fits limit 2 := by
  have hfields : ∀ f ∈ r.fields, ∀ item, f.2 = some item → item.Fits limit 3 := by
    unfold fields
    simp only [forall_mem_cons]
    refine ⟨fun item hitem => ?_, fun item => fits_unlessEmpty h.name, fun item hitem => ?_,
      fun item => fits_unlessZero h.params, fun item hitem => ?_,
      fun item => fits_unlessNil (by decide) h.fewConstants fun c hc =>
        ConstantRecord.fits_toItem (h.constants c hc) hlimit,
      fun item => fits_unlessNil (by decide) h.fewBinds fun b hb =>
        fits_bindItem (h.binds b hb) hlimit,
      fun item => fits_unlessNil (by decide) h.fewInstructions fun ins hins =>
        InstructionRecord.fits_toItem (h.code ins hins) hlimit,
      nofun⟩
    · cases hitem
      exact .int h.id
    · cases hitem
      exact .int h.slots
    · cases hitem
      exact .int h.ret
  exact .record (by decide) r.keyed_fields (show 8 ≤ _ by omega) hfields

/-- The lists of a block that fits are not too long. -/
theorem sized_of_fits_toItem {most : Nat} (h : r.Sized most) (hfits : r.toItem.Fits limit 2) :
    r.Sized limit := by
  have hfield : ∀ key item, (key, some item) ∈ r.fields → item.Fits limit 3 := fun key item hf =>
    @Cbor.Item.Fits.field _ _ r.fields hfits key item hf
  have hconstants : ∀ item, unlessNil ConstantRecord.toItem r.constants = some item →
      item.Fits limit 3 := fun item hitem => hfield 6 item (by simp [fields, hitem])
  have hbinds : ∀ item, unlessNil bindItem r.binds = some item → item.Fits limit 3 :=
    fun item hitem => hfield 7 item (by simp [fields, hitem])
  have hcode : ∀ item, unlessNil InstructionRecord.toItem r.code = some item → item.Fits limit 3 :=
    fun item hitem => hfield 8 item (by simp [fields, hitem])
  exact {
    h with
    code := fun ins hins => ⟨(h.code ins hins).name, (h.code ins hins).numbers,
      InstructionRecord.few_of_fits_toItem (fits_of_mem_unlessNil hins hcode)⟩
    fewConstants := length_le_of_fits_unlessNil hconstants
    fewBinds := length_le_of_fits_unlessNil hbinds
    fewInstructions := length_le_of_fits_unlessNil hcode }

end BlockRecord

/-! ## Tables of blocks -/

section Tables

variable {blocks : List BlockRecord}

theorem keyed_table (item : Item) : Cbor.Keyed [(1, some item)] := .of_range 1 rfl

theorem recordsOfItem?_recordsItem (h : ∀ r ∈ blocks, r.Fits) :
    recordsOfItem? (recordsItem blocks) = some (blocks.map BlockRecord.plain) := by
  have hkeyed := keyed_table (.array (blocks.map BlockRecord.toItem))
  have hfields : (recordsItem blocks).fields? 1 = _ := Cbor.fields?_record 1 hkeyed
  have hblocks := Cbor.read_field hkeyed (Item.list? BlockRecord.ofItem?) 1 rfl
    (list?_array fun r hr => BlockRecord.ofItem?_toItem (h r hr))
  simp only [recordsOfItem?, hfields, hblocks, bind_eq_bind, bind_some]

theorem fits_recordsItem (hlimit : 16 ≤ limit) (h : ∀ r ∈ blocks, r.Sized limit)
    (hfew : blocks.length ≤ limit) : (recordsItem blocks).Fits limit 0 := by
  refine .record (by decide) (keyed_table _) (show 1 ≤ _ by omega) ?_
  simp only [forall_mem_cons]
  refine ⟨fun item hitem => ?_, nofun⟩
  cases hitem
  refine .array (by decide) (by rwa [length_map]) fun item hitem => ?_
  obtain ⟨r, hr, rfl⟩ := mem_map.1 hitem
  exact BlockRecord.fits_toItem (h r hr) hlimit

/-- The texts of a table that is read are texts of characters. -/
theorem wellFormed_of_recordsOfItem? {found : List BlockRecord}
    (h : recordsOfItem? (recordsItem blocks) = some found) :
    ∀ r ∈ blocks, r.name.isWellFormed = true ∧ ∀ c ∈ r.constants, c.native.isWellFormed = true := by
  have hkeyed := keyed_table (.array (blocks.map BlockRecord.toItem))
  have hfields : (recordsItem blocks).fields? 1 = _ := Cbor.fields?_record 1 hkeyed
  have hblocks := @Cbor.field_present _ hkeyed 1 (by decide) _ rfl
  simp only [recordsOfItem?, hfields, hblocks, bind_eq_bind, bind_some] at h
  exact fun r hr => BlockRecord.wellFormed_of_ofItem? (isSome_of_list?_array h r hr)

/-- A table that fits is not too long, and neither is a list of its blocks. -/
theorem sized_of_fits_recordsItem {most : Nat} (h : ∀ r ∈ blocks, r.Sized most)
    (hfits : (recordsItem blocks).Fits limit 0) :
    (∀ r ∈ blocks, r.Sized limit) ∧ blocks.length ≤ limit := by
  have hblocks := Cbor.Item.Fits.field hfits mem_cons_self
  cases hblocks with
  | array _ few inner =>
    refine ⟨fun r hr => ?_, by rwa [length_map] at few⟩
    exact BlockRecord.sized_of_fits_toItem (h r hr) (inner _ (mem_map_of_mem hr))

end Tables

end Image

end Inkwell
