import Mathlib
import Inkwell.Proofs.Cbor.Limits
import Inkwell.Proofs.Image.RoundTrip

/-!
# Images are read exactly

A program whose blocks stand in the order of a walk keeps the numbers of its blocks in its image. So
what is read of the image is the program itself, or nothing: the reader gives up where a list is too
long or a name is no text of characters (`decode_of_encode`). This needs no more than that the numbers
of the program and the lengths of its texts and lists have sixty-four bits (`Program.InWords`).
-/

namespace Inkwell

open List Program

variable {p : Program} {b : Block}

/-! ## Numbers and sizes -/

/-- The text of a string. -/
def Datum.text? : Datum → Option Text
  | .string t => some t
  | _ => none

/-- The numbers in a block. -/
def Block.numbers (b : Block) : List Int :=
  b.id :: b.slots :: b.params :: b.ret ::
    (b.binds.toList.map (·.index) ++ b.code.toList.flatMap Instruction.numbers)

/-- The lengths of the texts and lists in a block. -/
def Block.sizes (b : Block) : List Nat :=
  b.name.size :: b.constants.size :: b.binds.size :: b.code.size ::
    ((b.constants.toList.filterMap Datum.text?).map (·.size) ++ b.code.toList.map (·.args.length))

/-- The numbers in a block have sixty-four bits, and so have the lengths of its texts and lists. -/
@[mk_iff]
structure Block.InWords (b : Block) : Prop where
  numbers : ∀ n ∈ b.numbers, IsWord n
  sizes : ∀ n ∈ b.sizes, n < 2 ^ 63

instance : DecidablePred Block.InWords := fun b => decidable_of_iff' _ (Block.inWords_iff b)

/-- The numbers in the blocks of a program have sixty-four bits, and so has the number of blocks. -/
@[mk_iff]
structure Program.InWords (p : Program) : Prop where
  size : p.blocks.size < 2 ^ 63
  blocks : ∀ b ∈ p.blocks, b.InWords

instance : DecidablePred Program.InWords := fun p => decidable_of_iff' _ (inWords_iff p)

theorem Program.InWords.block (h : p.InWords) (place : Nat) : (p.block place).InWords := by
  unfold Program.block
  cases hb : p.blocks[place]? with
  | none => exact ⟨by decide, by decide⟩
  | some b => exact h.blocks b (Array.mem_of_getElem? hb)

namespace Image

variable {natives : List Text} {places : Nat → Nat}

/-! ## What has been stored -/

/-- A constant that has a record: it is no object, and the host has the function that it may be. -/
def HasRecord (natives : List Text) : Datum → Prop
  | .native id => 0 ≤ id ∧ ∃ name, natives[id.toNat]? = some name
  | .composite _ | .function _ | .cell _ => False
  | _ => True

theorem constantRecord_eq_ok {block : Text} {k : Nat} {d : Datum} {c : ConstantRecord}
    (h : constantRecord natives places block k d = .ok c) :
    c = constantStored natives places d ∧ HasRecord natives d := by
  cases d with
  | native id =>
    simp only [constantRecord] at h
    split at h
    · rename_i name hname
      cases h
      split at hname
      · cases hname
      · rename_i hid
        exact ⟨(constantStored_native hname).symm, Int.not_lt.1 hid, name, hname⟩
    · cases h
  | composite _ => cases h
  | function _ => cases h
  | cell _ => cases h
  | empty | number _ | boolean _ | string _ | block _ =>
    cases h
    exact ⟨rfl, trivial⟩

/-- What an operation gives for the elements of a list, if it gives something for all of them. -/
theorem eq_map_of_mapM_ok {α β ε : Type} {f : α → Except ε β} {g : α → β} {P : α → Prop}
    (hf : ∀ x y, f x = .ok y → y = g x ∧ P x) {xs : List α} {ys : List β} (h : xs.mapM f = .ok ys) :
    ys = xs.map g ∧ ∀ x ∈ xs, P x := by
  induction xs generalizing ys with
  | nil =>
    rw [mapM_nil] at h
    cases h
    exact ⟨rfl, nofun⟩
  | cons x rest ih =>
    rw [mapM_cons] at h
    obtain ⟨y, hfirst, h⟩ := except_bind_ok h
    obtain ⟨others, hrest, h⟩ := except_bind_ok h
    cases h
    obtain ⟨rfl, hx⟩ := hf x y hfirst
    obtain ⟨rfl, hothers⟩ := ih hrest
    exact ⟨rfl, forall_mem_cons.2 ⟨hx, hothers⟩⟩

theorem blockRecord_eq_ok {r : BlockRecord} (h : blockRecord natives places b = .ok r) :
    r = blockStored natives places b ∧ ∀ d ∈ b.constants.toList, HasRecord natives d := by
  obtain ⟨constants, hconstants, heq⟩ := except_bind_ok h
  cases heq
  obtain ⟨rfl, hhas⟩ := @eq_map_of_mapM_ok _ _ _ _ (fun x => constantStored natives places x.1)
    (fun x => HasRecord natives x.1) (fun x _ hx => constantRecord_eq_ok hx) _ _ hconstants
  refine ⟨?_, fun d hd => ?_⟩
  · rw [← Function.comp_def (constantStored natives places) Prod.fst, ← map_map,
      zipIdx_map_fst]
    rfl
  · obtain ⟨k, hk⟩ := getElem?_of_mem hd
    exact hhas (d, k) (mem_zipIdx_iff_getElem?.2 hk)

theorem encode_eq_ok {image : Text} (hnodup : p.places.Nodup) (h : encode natives p = .ok image) :
    image = Cbor.write (mark.push version) (recordsItem (p.places.map fun place =>
        blockStored natives (number p) (p.block place))) ∧
      ∀ place ∈ p.places, ∀ d ∈ (p.block place).constants.toList, HasRecord natives d := by
  obtain ⟨records, hrecords, heq⟩ := except_bind_ok h
  cases heq
  rw [(order_lists hnodup).reverse] at hrecords
  obtain ⟨rfl, hhas⟩ := eq_map_of_mapM_ok (fun _ _ => blockRecord_eq_ok) hrecords
  exact ⟨rfl, hhas⟩

/-! ## What can be written -/

/-- The longest lists that can be written. -/
def longest : Nat := 2 ^ 63 - 1

section Sized

variable {natives : List Text} {places : Nat → Nat}

theorem constantStored_sized (hnames : ∀ name ∈ natives, name.size < 2 ^ 63) {d : Datum}
    (htext : ∀ t ∈ d.text?, t.size < 2 ^ 63)
    (hplace : ∀ child, d = .block child → places child < 2 ^ 63) :
    (constantStored natives places d).Sized := by
  have hkind : ∀ kind ∈ List.range 6, kind ≤ 255 := by decide
  have hempty : ("" : Text).size < 2 ^ 63 := by decide
  have hbits : 0 < 2 ^ 64 := by decide
  have hzero : IsWord 0 := by decide
  cases d with
  | number n => exact ⟨hkind 1 (by decide), n.bits.toNat_lt, hempty, hempty, hzero⟩
  | boolean b =>
    refine ⟨hkind 2 (by decide), ?_, hempty, hempty, hzero⟩
    show (if b then 1 else 0) < 2 ^ 64
    split <;> decide
  | string t => exact ⟨hkind 3 (by decide), hbits, htext t rfl, hempty, hzero⟩
  | native id =>
    refine ⟨hkind 4 (by decide), hbits, hempty, ?_, hzero⟩
    show (natives[id.toNat]?.getD "").size < 2 ^ 63
    cases hname : natives[id.toNat]? with
    | none => exact hempty
    | some name => exact hnames name (mem_of_getElem? hname)
  | block child =>
    have hlt := hplace child rfl
    refine ⟨hkind 5 (by decide), hbits, hempty, hempty, ?_, ?_⟩
    · show (-2 ^ 63 : Int) ≤ (places child : Int)
      omega
    · show (places child : Int) < 2 ^ 63
      exact_mod_cast hlt
  | empty | composite _ | function _ | cell _ =>
    exact ⟨hkind 0 (by decide), hbits, hempty, hempty, hzero⟩

theorem blockStored_sized (hnames : ∀ name ∈ natives, name.size < 2 ^ 63) (h : b.InWords)
    (hknown : ∀ ins ∈ b.code.toList, ∀ number, ins.op ≠ .unknown number)
    (hplace : ∀ child ∈ b.children, places child < 2 ^ 63) :
    (blockStored natives places b).Sized longest := by
  obtain ⟨hnumbers, hsizes⟩ := h
  simp only [Block.numbers, forall_mem_cons, forall_mem_append] at hnumbers
  obtain ⟨hid, hslots, hparams, hret, hbinds, hcode⟩ := hnumbers
  simp only [Block.sizes, forall_mem_cons, forall_mem_append] at hsizes
  obtain ⟨hname, hconstants, hfewbinds, hfewcode, htexts, hargs⟩ := hsizes
  refine ⟨hid, hname, hslots, hparams, hret, ?_, ?_, ?_, ?_, ?_, ?_⟩
  · intro c hc
    obtain ⟨d, hd, rfl⟩ := mem_map.1 hc
    refine constantStored_sized hnames (fun t ht => ?_) fun child hchild => hplace child ?_
    · exact htexts _ (mem_map_of_mem (mem_filterMap.2 ⟨d, hd, ht⟩))
    · exact mem_filterMap.2 ⟨d, hd, by rw [hchild]⟩
  · exact fun bind hbind => hbinds _ (mem_map_of_mem hbind)
  · intro r hr
    obtain ⟨ins, hins, rfl⟩ := mem_map.1 hr
    refine ⟨(Opcode.name_all _ (Opcode.mem_all (hknown ins hins))).2.2, fun n hn => ?_, ?_⟩
    · exact hcode n (mem_flatMap.2 ⟨ins, hins, hn⟩)
    · exact Nat.le_pred_of_lt (hargs _ (mem_map_of_mem hins))
  · show (b.constants.toList.map _).length ≤ _
    rw [length_map]
    exact Nat.le_pred_of_lt hconstants
  · exact Nat.le_pred_of_lt hfewbinds
  · show (b.code.toList.map _).length ≤ _
    rw [length_map]
    exact Nat.le_pred_of_lt hfewcode

end Sized

/-! ## What is read -/

/-- If the records of an image can be read, they are those it was written for. -/
theorem fits_of_records_ok {stored found : List BlockRecord} (hsized : ∀ r ∈ stored, r.Sized longest)
    (hlength : stored.length ≤ longest)
    (h : records (Cbor.write (mark.push version) (recordsItem stored)) = .ok found) :
    stored.length ≤ Cbor.maxItems ∧ ∀ r ∈ stored, r.Sized Cbor.maxItems ∧
      r.name.isWellFormed = true ∧ ∀ c ∈ r.constants, c.native.isWellFormed = true := by
  obtain ⟨t, ht, hrecords⟩ := exists_records_write (recordsItem stored)
  rw [hrecords] at h
  have hread : ∃ found, (Cbor.read? t).bind recordsOfItem? = some found := by
    split at h
    · cases h
    · cases h
    · exact ⟨_, ‹_›⟩
  obtain ⟨rs, hrs⟩ := hread
  obtain ⟨item, hitem, hmeant⟩ := Option.bind_eq_some_iff.1 hrs
  obtain ⟨rfl, hfits⟩ := Cbor.read?_spell_some (by decide)
    (fits_recordsItem (by decide) hsized hlength) ht hitem
  obtain ⟨hshort, hfew⟩ := sized_of_fits_recordsItem hsized hfits
  exact ⟨hfew, fun r hr => ⟨hshort r hr, wellFormed_of_recordsOfItem? hmeant r hr⟩⟩

/-- A block whose record can be read back can be stored. -/
theorem storable_of_sized (hnames : ∀ name ∈ natives, name.size < 2 ^ 63)
    (hhas : ∀ d ∈ b.constants.toList, HasRecord natives d)
    (h : (blockStored natives places b).Sized Cbor.maxItems) (hname : b.name.isWellFormed = true)
    (hconstants : ∀ c ∈ (blockStored natives places b).constants, c.native.isWellFormed = true) :
    b.Storable natives where
  id := h.id
  name := h.name
  wellFormed := hname
  slots := h.slots
  params := h.params
  ret := h.ret
  constants d hd := by
    have hmem : constantStored natives places d ∈ (blockStored natives places b).constants :=
      mem_map_of_mem hd
    have hrecord := hhas d hd
    cases d with
    | native id =>
      obtain ⟨hnonneg, name, hfound⟩ := hrecord
      have hformed := hconstants _ hmem
      rw [constantStored_native hfound] at hformed
      exact ⟨hnonneg, name, hfound, hformed, hnames name (mem_of_getElem? hfound)⟩
    | string t => exact (h.constants _ hmem).bytes
    | composite _ | function _ | cell _ => cases hrecord
    | empty | number _ | boolean _ | block _ => trivial
  binds := h.binds
  code ins hins := by
    have hsized := h.code _ (mem_map_of_mem hins)
    exact (operands_iff_numbers ins).2 ⟨hsized.numbers, hsized.few⟩
  fewConstants := by
    have hfew := h.fewConstants
    rwa [show (blockStored natives places b).constants = b.constants.toList.map _ from rfl,
      length_map] at hfew
  fewBinds := h.fewBinds
  fewInstructions := by
    have hfew := h.fewInstructions
    rwa [show (blockStored natives places b).code = b.code.toList.map _ from rfl,
      length_map] at hfew

end Image

/-- A block keeps its constants if the blocks nested in it keep their numbers. -/
theorem Block.renumber_eq_self {f : Nat → Nat} (h : ∀ child ∈ b.children, f child = child) :
    b.renumber f = b := by
  have hconstants : b.constants.map (Datum.renumber f) = b.constants := by
    refine Array.map_congr_left (fun d hd => ?_) |>.trans b.constants.map_id
    cases d with
    | block child =>
      exact congrArg Datum.block (h child (mem_filterMap.2
        ⟨_, Array.mem_toList_iff.2 hd, rfl⟩))
    | _ => rfl
  unfold renumber
  rw [hconstants]

/-- A program with the numbers it had is the same program. -/
theorem Program.Renumbers.eq_of_places {q : Program} {f : Nat → Nat} (h : p.Renumbers q f)
    (hordered : p.Ordered) (hplaces : p.places = List.range p.blocks.size)
    (hf : ∀ place ∈ p.places, f place = place) : q = p := by
  have hsize : q.blocks.size = p.blocks.size := by
    rw [h.size, hplaces, length_range]
  have hblock : ∀ place < p.blocks.size, q.block place = p.block place := by
    intro place hlt
    have hmem : place ∈ p.places := hplaces ▸ mem_range.2 hlt
    have hsame := h.block place hmem
    rw [hf place hmem] at hsame
    rw [hsame]
    exact Block.renumber_eq_self fun child hchild =>
      hf child (child_mem_places hordered hmem hchild)
  have hblocks : q.blocks = p.blocks := by
    refine Array.ext hsize fun i hi hi' => ?_
    have hsame := hblock i hi'
    rwa [Program.block, Program.block, Array.getElem?_eq_getElem hi, Array.getElem?_eq_getElem hi',
      Option.getD_some, Option.getD_some] at hsame
  cases p
  cases q
  exact congrArg Program.mk hblocks

namespace Image

/-- What is read of the image of a program whose blocks stand in the order of a walk is the program. -/
theorem decode_of_encode {ns : Natives} (hregistered : ns.Registered)
    (hnames : ∀ name ∈ ns.names, name.size < 2 ^ 63) {q : Program} (hordered : p.Ordered)
    (hplaces : p.places = List.range p.blocks.size) (hvalid : p.validate = .ok ())
    (hwords : p.InWords) {image : Text} (hencode : encode ns.names p = .ok image)
    (hdecode : decode ns.names image = .ok q) : q = p := by
  have hnodup : p.places.Nodup := hplaces ▸ nodup_range
  obtain ⟨himage, hhas⟩ := encode_eq_ok hnodup hencode
  have hlength : p.places.length < 2 ^ 63 := by
    rw [hplaces, length_range]
    exact hwords.size
  have hsized : ∀ r ∈ p.places.map fun place => blockStored ns.names (number p) (p.block place),
      r.Sized longest := by
    intro r hr
    obtain ⟨place, hplace, rfl⟩ := mem_map.1 hr
    refine blockStored_sized hnames (hwords.block place)
      (known_of_mem_places hordered hvalid hplace) fun child hchild => ?_
    exact Nat.lt_trans
      (number_lt hnodup (child_mem_places hordered hplace hchild)) hlength
  obtain ⟨rs, hrecords, -⟩ := except_bind_ok hdecode
  rw [himage] at hrecords
  obtain ⟨hfew, hread⟩ := fits_of_records_ok hsized
    (by rw [length_map]; exact Nat.le_pred_of_lt hlength) hrecords
  have hstorable : ∀ place ∈ p.places, (p.block place).Storable ns.names := by
    intro place hplace
    obtain ⟨hshort, hname, hconstants⟩ := hread _ (mem_map_of_mem hplace)
    exact storable_of_sized hnames (hhas place hplace) hshort hname hconstants
  obtain ⟨image', q', hencode', hdecode', hrenumbers⟩ := decode_encode_renumbers hregistered hordered
    hnodup hvalid hstorable (by rwa [length_map] at hfew)
  obtain rfl : image' = image := Except.ok.inj (hencode'.symm.trans hencode)
  obtain rfl : q' = q := Except.ok.inj (hdecode'.symm.trans hdecode)
  refine hrenumbers.eq_of_places hordered hplaces fun place hplace => ?_
  have hlt := mem_range.1 (hplaces ▸ hplace)
  exact number_of_getElem? hnodup (by rw [hplaces, getElem?_range hlt])

end Image

end Inkwell
