import Mathlib
import Inkwell.Machine.Basic
import Inkwell.Proofs.Code.Tree
import Inkwell.Proofs.Image.Records

/-!
# Programs read back from their images

An image lists the blocks of a program in the order a walk of its tree finds them, under the numbers
of that order. Where no block is shared the numbers are the places in the walk, and a nested block has
a larger number than the block around it. So every record of a block is read back as the block with
these numbers (`blockOf_record`), and the program that is read stands for the tree that was stored.
-/

namespace Inkwell

open List Program

variable {count place : Nat}

/-- The host functions that can be registered one after the other. -/
inductive Natives.Registered : Natives → Prop
  | empty : Registered #[]
  | register {ns : Natives} (n : Native) : ns.Registered → (ns.register n).Registered

/-- A host function that is registered takes the place of the one with its name, or comes last. -/
theorem Natives.names_register (ns : Natives) (n : Native) :
    (ns.register n).names = if n.name ∈ ns.names then ns.names else ns.names ++ [n.name] := by
  unfold Natives.register Natives.number?
  cases hfind : ns.findIdx? (·.name == n.name) with
  | some id =>
    -- the replaced function has the name of the new one
    obtain ⟨hlt, hname, -⟩ := Array.findIdx?_eq_some_iff_getElem.1 hfind
    have hmem : n.name ∈ ns.names :=
      mem_map.2 ⟨ns[id], Array.getElem_mem_toList hlt, eq_of_beq hname⟩
    rw [if_pos hmem]
    show (ns.setIfInBounds id n).toList.map (·.name) = ns.toList.map (·.name)
    rw [Array.toList_setIfInBounds, map_set]
    refine ext_getElem? fun i => ?_
    rw [getElem?_set]
    split
    · rename_i hi
      subst hi
      simp [hlt, eq_of_beq hname]
    · rfl
  | none =>
    have hfresh := Array.findIdx?_eq_none_iff.1 hfind
    have hmem : n.name ∉ ns.names := fun hmem => by
      obtain ⟨other, hother, heq⟩ := mem_map.1 hmem
      have hne := hfresh other (Array.mem_toList_iff.1 hother)
      simp [heq] at hne
    rw [if_neg hmem]
    show (ns.push n).toList.map (·.name) = _
    rw [Array.toList_push, map_append]
    rfl

/-- No two registered host functions have the same name. -/
theorem Natives.Registered.nodup_names {ns : Natives} (h : ns.Registered) : ns.names.Nodup := by
  induction h with
  | empty => exact nodup_nil
  | @register ns n _ ih =>
    rw [Natives.names_register]
    split
    · exact ih
    · rename_i hnew
      refine nodup_append.2 ⟨ih, nodup_singleton _, fun name hname other hother heq => ?_⟩
      exact hnew (mem_singleton.1 hother ▸ heq ▸ hname)

/-! ## What can be stored -/

/-- Every code but the unknown ones is listed. -/
theorem Opcode.mem_all {op : Opcode} (h : ∀ number, op ≠ .unknown number) : op ∈ Opcode.all := by
  cases op with
  | unknown number => exact absurd rfl (h number)
  | operate o => cases o <;> decide
  | _ => decide

/-- The listed codes have names of their own, which are texts of characters. -/
theorem Opcode.name_all : ∀ op ∈ Opcode.all,
    Opcode.ofName? op.name = some op ∧ op.name.isWellFormed = true ∧ op.name.size < 2 ^ 63 := by
  decide +kernel

/-- A constant that can be stored for a host with the given functions. Texts are shorter than the
memory of the host. -/
def Datum.Storable (natives : List Text) : Datum → Prop
  | .empty | .number _ | .boolean _ | .block _ => True
  | .string t => t.size < 2 ^ 63
  | .native id => 0 ≤ id ∧ ∃ name ∈ natives[id.toNat]?, name.isWellFormed = true ∧
      name.size < 2 ^ 63
  | .composite _ | .function _ | .cell _ => False

instance (natives : List Text) : DecidablePred (Datum.Storable natives) := fun d => by
  cases d <;> unfold Datum.Storable <;> infer_instance

/-- A block that can be stored for a host with the given functions: its constants can be, its name
is a text of characters, its integers have sixty-four bits, and no list is longer than a reader
takes. -/
@[mk_iff]
structure Block.Storable (natives : List Text) (b : Block) : Prop where
  id : IsWord b.id
  name : b.name.size < 2 ^ 63
  wellFormed : b.name.isWellFormed = true
  slots : IsWord b.slots
  params : IsWord b.params
  ret : IsWord b.ret
  constants : ∀ d ∈ b.constants.toList, d.Storable natives
  binds : ∀ bind ∈ b.binds.toList, IsWord bind.index
  code : ∀ ins ∈ b.code.toList, Image.Operands ins
  fewConstants : b.constants.size ≤ Cbor.maxItems
  fewBinds : b.binds.size ≤ Cbor.maxItems
  fewInstructions : b.code.size ≤ Cbor.maxItems

instance (natives : List Text) : DecidablePred (Block.Storable natives) := fun b =>
  decidable_of_iff' _ (Block.storable_iff natives b)

namespace Image

/-! ## The order of the blocks -/

/-- The blocks of a list have been found in this order, and are numbered by it. -/
structure Order.Lists (found : Order) (places : List Nat) : Prop where
  reverse : found.places.reverse = places
  size : found.numbers.size = places.length
  number : ∀ (i place : Nat), places[i]? = some place → found.numbers[place]? = some i
  other : ∀ place, place ∉ places → found.numbers[place]? = none

namespace Order.Lists

variable {p : Program} {found : Order} {places : List Nat}

theorem empty : Order.Lists {} [] where
  reverse := rfl
  size := Std.HashMap.size_empty
  number := fun i place h => by simp at h
  other := fun place _ => Std.HashMap.getElem?_empty

theorem insert (h : found.Lists places) (hnew : place ∉ places) :
    Order.Lists ⟨place :: found.places, found.numbers.insert place found.numbers.size⟩
      (places ++ [place]) where
  reverse := by rw [List.reverse_cons, h.reverse]
  size := by
    have hfresh : place ∉ found.numbers := by
      rw [← Std.HashMap.isSome_getElem?_iff_mem, h.other place hnew]
      exact Bool.false_ne_true
    rw [Std.HashMap.size_insert, if_neg hfresh, h.size, List.length_append, List.length_singleton]
  number := by
    intro i other hother
    rw [Std.HashMap.getElem?_insert]
    rcases Nat.lt_or_ge i places.length with hlt | hge
    · rw [List.getElem?_append_left hlt] at hother
      have hne : place ≠ other := fun heq => hnew (heq ▸ List.mem_of_getElem? hother)
      rw [if_neg (by simpa using hne)]
      exact h.number i other hother
    · rw [List.getElem?_append_right hge] at hother
      have hi : i - places.length = 0 := by
        have hlt := (List.getElem?_eq_some_iff.1 hother).1
        rw [List.length_singleton] at hlt
        omega
      rw [hi, List.getElem?_cons_zero, Option.some.injEq] at hother
      rw [if_pos (by simpa using hother), h.size]
      exact congrArg some (by omega)
  other := by
    intro other hother
    rw [List.mem_append, List.mem_singleton, not_or] at hother
    rw [Std.HashMap.getElem?_insert, if_neg (by simpa using fun heq => hother.2 heq.symm)]
    exact h.other other hother.1

/-- A walk of a tree without shared blocks finds its blocks one after the other. -/
theorem orderFrom (levels : Nat) : ∀ {found : Order} {places : List Nat} {place : Nat},
    found.Lists places → (places ++ p.placesFrom levels place).Nodup →
      (orderFrom p levels found place).Lists (places ++ p.placesFrom levels place) := by
  induction levels with
  | zero =>
    intro found places place h _
    show found.Lists (places ++ [])
    rwa [append_nil]
  | succ levels ih =>
    intro found places place h hnodup
    rw [placesFrom_succ] at hnodup ⊢
    have hnew : place ∉ places := fun hmem =>
      (nodup_append.1 hnodup).2.2 place hmem place mem_cons_self rfl
    have hfresh : found.numbers.contains place = false := by
      rw [Std.HashMap.contains_eq_isSome_getElem?, h.other place hnew]
      rfl
    have hinsert := h.insert hnew
    rw [append_cons] at hnodup ⊢
    rw [Image.orderFrom, hfresh]
    -- the walks of the nested blocks follow each other
    have hchildren : ∀ (children : List Nat) (found : Order) (places : List Nat),
        found.Lists places → (places ++ children.flatMap (p.placesFrom levels)).Nodup →
          (children.foldl (Image.orderFrom p levels) found).Lists
            (places ++ children.flatMap (p.placesFrom levels)) := by
      intro children
      induction children with
      | nil =>
        intro found places h _
        show found.Lists (places ++ [])
        rwa [append_nil]
      | cons child rest ihrest =>
        intro found places h hnodup
        rw [flatMap_cons, ← append_assoc] at hnodup ⊢
        exact ihrest _ _ (ih h (nodup_append.1 hnodup).1) hnodup
    exact hchildren _ _ _ hinsert hnodup

end Order.Lists

/-- The number a block of a program is stored under. -/
def number (p : Program) (place : Nat) : Nat := (order p).numbers[place]?.getD 0

section Numbers

variable {p : Program}

variable (hnodup : p.places.Nodup)

include hnodup

theorem order_lists : (order p).Lists p.places := by
  have hlists := @Order.Lists.orderFrom p p.blocks.size _ _ 0 Order.Lists.empty
    (by rwa [nil_append])
  rwa [nil_append] at hlists

theorem number_of_getElem? {i : Nat} (h : p.places[i]? = some place) : number p place = i := by
  rw [number, (order_lists hnodup).number _ _ h, Option.getD_some]

theorem number_eq_idxOf (h : place ∈ p.places) : number p place = p.places.idxOf place := by
  have hlt := idxOf_lt_length_iff.2 h
  refine number_of_getElem? hnodup ?_
  rw [getElem?_eq_getElem hlt, getElem_idxOf hlt]

theorem number_lt (h : place ∈ p.places) : number p place < p.places.length := by
  rw [number_eq_idxOf hnodup h]
  exact idxOf_lt_length_iff.2 h

theorem getElem?_number (h : place ∈ p.places) : p.places[number p place]? = some place := by
  have hlt := idxOf_lt_length_iff.2 h
  rw [number_eq_idxOf hnodup h, getElem?_eq_getElem hlt, getElem_idxOf hlt]

end Numbers

/-! ## Records -/

theorem mapM_eq_ok {α β ε : Type} {f : α → Except ε β} {g : α → β} {xs : List α}
    (h : ∀ x ∈ xs, f x = .ok (g x)) : xs.mapM f = .ok (xs.map g) := by
  induction xs with
  | nil => rfl
  | cons x rest ih =>
    have hrest := ih fun y hy => h y (mem_cons_of_mem _ hy)
    rw [mapM_cons, h x mem_cons_self, hrest]
    rfl

/-- Reading the elements of a list one after the other, each with its place. -/
theorem mapM_zipIdx_ok {α β γ ε : Type} {f : β × Nat → Except ε γ} {store : α → β} {back : α → γ}
    {xs : List α} (h : ∀ (i : Nat) (x : α), xs[i]? = some x → f (store x, i) = .ok (back x)) :
    (xs.map store).zipIdx.mapM f = .ok (xs.map back) := by
  have hall := @mapM_eq_ok _ _ _ (fun x : α × Nat => f (store x.1, x.2)) (fun x => back x.1) xs.zipIdx
    fun x hx => h x.2 x.1 (mem_zipIdx_iff_getElem?.1 hx)
  have hback : xs.zipIdx.map (fun x => back x.1) = xs.map back := by
    rw [← Function.comp_def back Prod.fst, ← map_map, zipIdx_map_fst]
  rw [zipIdx_map, mapM_map, ← hback, ← hall]
  rfl

/-- The record of a constant that can be stored. -/
def constantStored (natives : List Text) (places : Nat → Nat) : Datum → ConstantRecord
  | .number n => { kind := 1, bits := n.bits.toNat }
  | .boolean b => { kind := 2, bits := if b then 1 else 0 }
  | .string t => { kind := 3, bytes := t }
  | .native id => { kind := 4, native := natives[id.toNat]?.getD "" }
  | .block place => { kind := 5, block := places place }
  | _ => { kind := 0 }

/-- The record of a block that can be stored. -/
def blockStored (natives : List Text) (places : Nat → Nat) (b : Block) : BlockRecord where
  id := b.id
  name := b.name
  slots := b.slots
  params := b.params
  ret := b.ret
  constants := b.constants.toList.map (constantStored natives places)
  binds := b.binds.toList
  code := b.code.toList.map fun ins => { name := ins.op.name, operands := ins }

section Constants

variable {natives : List Text} {places : Nat → Nat} {d : Datum}

theorem constantStored_native {id : Int} {name : Text} (h : natives[id.toNat]? = some name) :
    constantStored natives places (.native id) = { kind := 4, native := name } := by
  rw [constantStored, h]
  rfl

theorem constantRecord_ok (h : d.Storable natives) (block : Text) (k : Nat) :
    constantRecord natives places block k d = .ok (constantStored natives places d) := by
  cases d with
  | native id =>
    obtain ⟨hnonneg, name, hname, -⟩ := h
    rw [constantStored_native hname, constantRecord, if_neg (Int.not_lt.2 hnonneg), hname]
  | composite _ => cases h
  | function _ => cases h
  | cell _ => cases h
  | _ => rfl

theorem constantStored_fits (h : d.Storable natives)
    (hplace : ∀ child, d = .block child → places child < 2 ^ 63) :
    (constantStored natives places d).Fits := by
  have hkind : ∀ kind ∈ List.range 6, kind ≤ 255 := by decide
  have hempty : ("" : Text).size < 2 ^ 63 := by decide
  have hwell : Text.isWellFormed "" = true := by decide
  have hbits : 0 < 2 ^ 64 := by decide
  have hzero : IsWord 0 := by decide
  cases d with
  | number n => exact ⟨⟨hkind 1 (by decide), n.bits.toNat_lt, hempty, hempty, hzero⟩, hwell⟩
  | boolean b =>
    refine ⟨⟨hkind 2 (by decide), ?_, hempty, hempty, hzero⟩, hwell⟩
    show (if b then 1 else 0) < 2 ^ 64
    split <;> decide
  | string t => exact ⟨⟨hkind 3 (by decide), hbits, h, hempty, hzero⟩, hwell⟩
  | native id =>
    obtain ⟨-, name, hname, hformed, hsize⟩ := h
    rw [constantStored_native hname]
    exact ⟨⟨hkind 4 (by decide), hbits, hempty, hsize, hzero⟩, hformed⟩
  | block child =>
    have hlt := hplace child rfl
    refine ⟨⟨hkind 5 (by decide), hbits, hempty, hempty, ?_, ?_⟩, hwell⟩
    · show (-2 ^ 63 : Int) ≤ (places child : Int)
      omega
    · show (places child : Int) < 2 ^ 63
      exact_mod_cast hlt
  | composite _ => cases h
  | function _ => cases h
  | cell _ => cases h
  | empty => exact ⟨⟨hkind 0 (by decide), hbits, hempty, hempty, hzero⟩, hwell⟩

/-- A constant is read back as it was, with the new number of a nested block. -/
theorem constantOf_stored (hnodup : natives.Nodup) (h : d.Storable natives)
    (hplace : ∀ child, d = .block child → place < places child ∧ places child < count)
    (block : Text) (k : Nat) :
    constantOf natives count place block k (constantStored natives places d) =
      .ok (d.renumber places) := by
  cases d with
  | number n =>
    show Except.ok (Datum.number ⟨n.bits.toNat.toUInt64⟩) = _
    rw [Nat.toUInt64, UInt64.ofNat_toNat]
    rfl
  | boolean b => cases b <;> rfl
  | native id =>
    obtain ⟨hnonneg, name, hname, -⟩ := h
    obtain ⟨hlt, rfl⟩ := List.getElem?_eq_some_iff.1 hname
    have hfound : natives.idxOf? natives[id.toNat] = some id.toNat := by
      refine List.idxOf?_eq_some_iff.2 ⟨hlt, rfl, fun i hi heq => ?_⟩
      have hsame := (hnodup.getElem_inj_iff).1 heq
      omega
    rw [constantStored_native hname]
    simp only [constantOf]
    rw [hfound]
    exact congrArg (Except.ok ∘ Datum.native) (Int.toNat_of_nonneg hnonneg)
  | block child =>
    have hbehind := hplace child rfl
    have hin : ((places child : Int) ≤ place || (count : Int) ≤ places child) = false := by
      rw [Bool.or_eq_false_iff, decide_eq_false_iff_not, decide_eq_false_iff_not]
      omega
    show (if ((places child : Int) ≤ place || (count : Int) ≤ places child) = true then _
      else Except.ok (Datum.block (places child : Int).toNat)) = _
    rw [hin, if_neg Bool.false_ne_true, Int.toNat_natCast]
    rfl
  | composite _ => cases h
  | function _ => cases h
  | cell _ => cases h
  | _ => rfl

end Constants

section Blocks

variable {natives : List Text} {places : Nat → Nat} {b : Block}

theorem blockRecord_ok (h : b.Storable natives) :
    blockRecord natives places b = .ok (blockStored natives places b) := by
  have hconstants : (b.constants.toList.zipIdx.mapM fun x : Datum × Nat =>
      constantRecord natives places b.name x.2 x.1) =
        .ok (b.constants.toList.map (constantStored natives places)) := by
    have hmap := @mapM_zipIdx_ok _ _ _ _
      (fun (x : Datum × Nat) => constantRecord natives places b.name x.2 x.1) id
      (constantStored natives places) b.constants.toList fun k d hd =>
        constantRecord_ok (h.constants d (mem_of_getElem? hd)) b.name k
    rwa [map_id] at hmap
  unfold blockRecord
  rw [hconstants]
  rfl

theorem blockStored_fits (h : b.Storable natives)
    (hknown : ∀ ins ∈ b.code.toList, ∀ number, ins.op ≠ .unknown number)
    (hplace : ∀ child ∈ b.children, places child < 2 ^ 63) :
    (blockStored natives places b).Fits where
  id := h.id
  name := h.name
  wellFormed := h.wellFormed
  slots := h.slots
  params := h.params
  ret := h.ret
  constants := by
    intro c hc
    obtain ⟨d, hd, rfl⟩ := mem_map.1 hc
    refine constantStored_fits (h.constants d hd) fun child hchild => hplace child ?_
    exact mem_filterMap.2 ⟨d, hd, by rw [hchild]⟩
  binds := h.binds
  code := by
    intro r hr
    obtain ⟨ins, hins, rfl⟩ := mem_map.1 hr
    have hname := Opcode.name_all _ (Opcode.mem_all (hknown ins hins))
    exact ⟨hname.2.2, hname.2.1, h.code ins hins⟩
  fewConstants := by
    show (b.constants.toList.map _).length ≤ _
    rw [length_map]
    exact h.fewConstants
  fewBinds := h.fewBinds
  fewInstructions := by
    show (b.code.toList.map _).length ≤ _
    rw [length_map]
    exact h.fewInstructions

theorem blockOf_ok {r : BlockRecord} {constants : List Datum} {code : List Instruction}
    (hconstants : (r.constants.zipIdx.mapM fun (c, k) => constantOf natives count place r.name k c)
      = .ok constants)
    (hcode : (r.code.zipIdx.mapM fun (ins, offset) => instructionOf r.name offset ins) = .ok code) :
    blockOf natives count place r = .ok {
      id := r.id, name := r.name, slots := r.slots, params := r.params, ret := r.ret
      constants := constants.toArray, binds := r.binds.toArray, code := code.toArray } := by
  simp only [blockOf, hconstants, hcode, bind, Except.bind]
  rfl

/-- What is read of an instruction: its code only has its name. -/
def instructionNamed (ins : Instruction) : InstructionRecord :=
  { name := ins.op.name, operands := { ins with op := .nop } }

theorem instructionOf_named {ins : Instruction} (hknown : ∀ number, ins.op ≠ .unknown number)
    (block : Text) (offset : Nat) : instructionOf block offset (instructionNamed ins) = .ok ins := by
  have hname := (Opcode.name_all _ (Opcode.mem_all hknown)).1
  rw [instructionOf, instructionNamed, hname]

/-- A block is read back as it was, with new numbers of the nested blocks. -/
theorem blockOf_stored (hnodup : natives.Nodup) (h : b.Storable natives)
    (hknown : ∀ ins ∈ b.code.toList, ∀ number, ins.op ≠ .unknown number)
    (hplace : ∀ child ∈ b.children, place < places child ∧ places child < count) :
    blockOf natives count place (blockStored natives places b).plain = .ok (b.renumber places) := by
  have hconstants : ((b.constants.toList.map (constantStored natives places)).zipIdx.mapM
      fun (c, k) => constantOf natives count place b.name k c) =
        .ok (b.constants.toList.map (Datum.renumber places)) := by
    refine mapM_zipIdx_ok fun k d hd => ?_
    have hmem := mem_of_getElem? hd
    refine constantOf_stored hnodup (h.constants d hmem) (fun child hchild => hplace child ?_) _ _
    exact mem_filterMap.2 ⟨d, hmem, by rw [hchild]⟩
  have hcode : ((b.code.toList.map instructionNamed).zipIdx.mapM
      fun (ins, offset) => instructionOf b.name offset ins) = .ok (b.code.toList.map id) :=
    mapM_zipIdx_ok fun offset ins hins =>
      instructionOf_named (hknown ins (mem_of_getElem? hins)) b.name offset
  have hplain : (blockStored natives places b).plain.code = b.code.toList.map instructionNamed :=
    map_map
  rw [← hplain] at hcode
  rw [blockOf_ok hconstants hcode, map_id, ← Array.toList_map]
  rfl

end Blocks

/-! ## Images -/

/-- Behind its mark and its version an image is what is written for an item. -/
theorem exists_records_write (item : Cbor.Item) :
    ∃ t : Text, t.bytes = Cbor.spell item ∧
      records (Cbor.write (mark.push version) item) =
        match (Cbor.read? t).bind recordsOfItem? with
        | none => .error .unreadable
        | some [] => .error .noBlocks
        | some records => .ok records := by
  have hbytes := Cbor.bytes_write (mark.push version) item
  generalize Cbor.write (mark.push version) item = data at hbytes
  have hhead : Text.bytes (mark.push version) = mark.bytes ++ [version] := rfl
  have hmark : mark.bytes.length = mark.size := Text.length_bytes mark
  rw [hhead, append_assoc, singleton_append] at hbytes
  have hsize : ¬ data.size ≤ mark.size := by
    rw [← Text.length_bytes data, hbytes, length_append, length_cons, hmark]
    omega
  have hstart : data.startsWith mark = true := by
    have htake : data.take mark.size = mark := by
      apply Text.ext_bytes
      rw [Text.bytes_take, hbytes, ← hmark, take_left]
    rw [Text.startsWith, htake, beq_self_eq_true]
  have hversion : data.data[mark.size]? = some version := by
    have hat : data.bytes[mark.size]? = some version := by
      rw [hbytes, ← hmark, getElem?_append_right (Nat.le_refl _), Nat.sub_self]
      rfl
    rwa [Text.bytes, Array.getElem?_toList] at hat
  refine ⟨data.drop (mark.size + 1), ?_, ?_⟩
  · rw [Text.bytes_drop, hbytes, ← drop_drop, ← hmark, drop_left]
    rfl
  · have hmarked : ¬ (data.size ≤ mark.size || !data.startsWith mark) = true := by
      simp [hsize, hstart]
    unfold records
    rw [if_neg hmarked, hversion]
    exact if_neg fun hother => hother rfl

/-- The records of an image are those it was written for. -/
theorem records_write {rs : List BlockRecord} (hne : rs ≠ []) (hfits : ∀ r ∈ rs, r.Fits)
    (hfew : rs.length ≤ Cbor.maxItems) :
    records (Cbor.write (mark.push version) (recordsItem rs)) = .ok (rs.map BlockRecord.plain) := by
  obtain ⟨t, ht, hrecords⟩ := exists_records_write (recordsItem rs)
  have hitem := fits_recordsItem (by decide) (fun r hr => (hfits r hr).sized) hfew
  have hplain : rs.map BlockRecord.plain ≠ [] := fun hnil => hne (map_eq_nil_iff.1 hnil)
  simp only [hrecords, Cbor.read?_spell hitem ht, Option.bind_some, recordsOfItem?_recordsItem hfits]

/-- A valid program has no unknown codes. -/
theorem known_of_mem_places {p : Program} (hordered : p.Ordered) (hvalid : p.validate = .ok ())
    (hplace : place ∈ p.places) :
    ∀ ins ∈ (p.block place).code.toList, ∀ code, ins.op ≠ .unknown code := by
  intro ins hins
  obtain ⟨offset, hoffset⟩ := getElem?_of_mem hins
  rw [Array.getElem?_toList] at hoffset
  exact ((sound_of_mem_places hordered hvalid hplace).inBounds.instructions offset ins
    hoffset).known

/-- A tree without shared blocks is stored, and what is read is the tree under the numbers of the
blocks. -/
theorem decode_encode_renumbers {ns : Natives} (hregistered : ns.Registered) {p : Program}
    (hordered : p.Ordered) (hnodup : p.places.Nodup) (hvalid : p.validate = .ok ())
    (hstorable : ∀ place ∈ p.places, (p.block place).Storable ns.names)
    (hfew : p.places.length ≤ Cbor.maxItems) :
    ∃ image q, encode ns.names p = .ok image ∧ decode ns.names image = .ok q ∧
      p.Renumbers q (number p) := by
  have hknown : ∀ place ∈ p.places, ∀ ins ∈ (p.block place).code.toList,
      ∀ code, ins.op ≠ .unknown code := fun _ => known_of_mem_places hordered hvalid
  let stored := p.places.map fun place => blockStored ns.names (number p) (p.block place)
  have hencode : encode ns.names p = .ok (Cbor.write (mark.push version) (recordsItem stored)) := by
    have hrecords : ((order p).places.reverse.mapM fun place =>
        blockRecord ns.names (number p) (p.block place)) = .ok stored := by
      rw [(order_lists hnodup).reverse]
      exact mapM_eq_ok fun place hplace => blockRecord_ok (hstorable place hplace)
    show ((order p).places.reverse.mapM fun place =>
      blockRecord ns.names (number p) (p.block place)) >>= _ = _
    rw [hrecords]
    rfl
  have hfits : ∀ r ∈ stored, r.Fits := by
    intro r hr
    obtain ⟨place, hplace, rfl⟩ := mem_map.1 hr
    refine blockStored_fits (hstorable place hplace) (hknown place hplace) fun child hchild => ?_
    have hlt := number_lt hnodup (child_mem_places hordered hplace hchild)
    have hmax : Cbor.maxItems < 2 ^ 63 := by decide
    omega
  have hne : stored ≠ [] := fun hnil => by
    have hroot := zero_mem_places hordered
    rw [map_eq_nil_iff.1 hnil] at hroot
    cases hroot
  have hlength : stored.length = p.places.length := length_map _
  have hrecords := records_write hne hfits (by rwa [hlength])
  -- the number of a block is its place in the list, so a nested block stands behind
  have hblocks : ((stored.map BlockRecord.plain).zipIdx.mapM fun x : BlockRecord × Nat =>
      blockOf ns.names (stored.map BlockRecord.plain).length x.2 x.1) =
        .ok (p.places.map fun place => (p.block place).renumber (number p)) := by
    rw [length_map, hlength, map_map]
    refine mapM_zipIdx_ok fun i place hi => ?_
    have hplace := mem_of_getElem? hi
    refine blockOf_stored hregistered.nodup_names (hstorable place hplace) (hknown place hplace)
      fun child hchild => ?_
    have hmem := child_mem_places hordered hplace hchild
    have hbehind := idxOf_lt_idxOf hordered hnodup hplace hchild
    rw [← number_eq_idxOf hnodup hplace, ← number_eq_idxOf hnodup hmem, number_of_getElem? hnodup hi]
      at hbehind
    exact ⟨hbehind, number_lt hnodup hmem⟩
  let q : Program := ⟨(p.places.map fun place => (p.block place).renumber (number p)).toArray⟩
  have hrenumbers : p.Renumbers q (number p) := by
    refine ⟨?_, fun place hplace => ?_, ?_⟩
    · have hhead : p.places[0]? = some 0 := by
        unfold Program.places
        cases hsize : p.blocks.size with
        | zero => exact absurd hordered.hasRoot (by omega)
        | succ n => rfl
      exact number_of_getElem? hnodup hhead
    · simp [q, Program.block, getElem?_number hnodup hplace]
    · simp [q]
  have hdecode : decode ns.names (Cbor.write (mark.push version) (recordsItem stored)) = .ok q := by
    simp only [decode, hrecords, hblocks, bind, Except.bind]
    have hok := hrenumbers.validate_ok hordered hnodup hvalid
    rw [hok]
    rfl
  exact ⟨_, q, hencode, hdecode, hrenumbers⟩

/-- A valid tree without shared blocks whose blocks can be stored has an image, and the image is read
as a tree that is equal in every part of every block. -/
theorem decode_encode_tree {ns : Natives} (hregistered : ns.Registered) {p : Program}
    (hordered : p.Ordered) (hnodup : p.places.Nodup) (hvalid : p.validate = .ok ())
    (hstorable : ∀ place ∈ p.places, (p.block place).Storable ns.names)
    (hfew : p.places.length ≤ Cbor.maxItems) :
    ∃ image q, encode ns.names p = .ok image ∧ decode ns.names image = .ok q ∧ q.tree = p.tree := by
  obtain ⟨image, q, hencode, hdecode, hrenumbers⟩ :=
    decode_encode_renumbers hregistered hordered hnodup hvalid hstorable hfew
  exact ⟨image, q, hencode, hdecode, hrenumbers.tree_eq hordered (decode_ok hdecode).1⟩

/-- A host with one function, for a program that passes on what it is given. -/
def hostOfOne : Natives := Natives.register #[] ⟨"echo", fun _ => return .answer .empty⟩

/-- A program that calls a function of its own, which calls the host: its blocks hold constants of
every kind, a text that is no text of characters and a negative operand among them. -/
def callThrough : Program where
  blocks := #[
    { id := 7, name := "through", slots := 3, params := 0, ret := 0,
      constants := #[.block 1, .string ⟨#[255, 0]⟩, .boolean true, .number ⟨13826050856027422720⟩, .empty],
      binds := #[], code := #[
        { op := .closure, dest := 0, k := 0, position := ⟨1, 4⟩ },
        { op := .loadConstant, dest := 1, k := 1, c := -1 },
        { op := .call, dest := 0, a := 0, args := [1, 1], tail := true, position := ⟨2, 1⟩ }] },
    { id := -1, name := "inner", slots := 3, params := 2, ret := 2, constants := #[.native 0],
      binds := #[⟨true, 2⟩], code := #[
        { op := .loadConstant, dest := 2, k := 0 },
        { op := .call, dest := 2, a := 2, args := [0], target := -5 }] }]

theorem decode_encode_tree_callThrough :
    ∃ image q, encode hostOfOne.names callThrough = .ok image ∧
      decode hostOfOne.names image = .ok q ∧ q.tree = callThrough.tree := by
  refine decode_encode_tree (.register _ .empty) ⟨by decide, by decide⟩ (by decide)
    (by decide +kernel) ?_ (by decide)
  decide +kernel

end Image

end Inkwell
