import Mathlib
import Inkwell.Proofs.Code.InOrder
import Inkwell.Proofs.Code.LaidOut

/-!
# The code of a program is valid

Everything that an instruction of a unit in order names is there, so the check of the unit's block
finds nothing wrong, and neither does that of the blocks nested in it (`InOrder.checkFrom_ok`).

A unit takes its cells from the unit around it. That holds the binding of the cell, or takes a cell for
it in turn; the whole program takes none, so the way outward ends at the unit that holds the binding
(`Program.Leads`).
-/

namespace Inkwell

open List Program Compile

variable {ins : Instruction}

theorem Block.constant?_natCast (b : Block) (k : Nat) : b.constant? k = b.constants[k]? := by
  unfold Block.constant?
  rw [if_neg (by omega), Int.toNat_natCast]

namespace Program

/-! ## Checks that find nothing wrong -/

section Checks

variable {p : Program} {b : Block} {offset : Nat}

theorem checkReads_of_inRange {op : Opcode} {rs : List Int}
    (h : ∀ r ∈ rs, inRange r b.slots = true) : checkReads b offset op rs = .ok () := by
  induction rs with
  | nil => rfl
  | cons r rest ih =>
    rw [checkReads, if_pos (h r mem_cons_self)]
    exact ih fun r' hr' => h r' (mem_cons_of_mem _ hr')

theorem checkInstruction_of_parts (hknown : ∀ number, ins.op ≠ .unknown number)
    (hwrites : ∀ r, ins.writes? = some r → inRange r b.slots = true)
    (hreads : ∀ r ∈ p.reads b ins, inRange r b.slots = true)
    (hoperand : checkOperand b offset ins = .ok ())
    (htarget : ins.op.isBranch → (offset : Int) < ins.target ∧ ins.target ≤ b.code.size) :
    checkInstruction p b offset ins = .ok () := by
  have hbranch : ¬ (ins.op.isBranch && (ins.target ≤ offset || (b.code.size : Int) < ins.target)) =
      true := by
    intro h
    simp only [Bool.and_eq_true, Bool.or_eq_true, decide_eq_true_eq] at h
    have hin := htarget h.1
    omega
  have hrest : (do
      checkReads b offset ins.op (p.reads b ins)
      checkOperand b offset ins
      if ins.op.isBranch && (ins.target ≤ offset || (b.code.size : Int) < ins.target) then
        throw (.badTarget offset ins.op ins.target) : Except Invalidity Unit) = .ok () := by
    rw [checkReads_of_inRange hreads, hoperand, if_neg hbranch]
    rfl
  unfold checkInstruction
  dsimp only
  split
  · rename_i number hop
    exact absurd hop (hknown number)
  · split
    · rename_i r hr
      rw [if_pos (hwrites r hr)]
      exact hrest
    · exact hrest

theorem checkCode_of_ok {code : List Instruction} {start : Nat}
    (h : ∀ (i : Nat) (ins : Instruction), code[i]? = some ins →
      checkInstruction p b (start + i) ins = .ok ()) : checkCode p b start code = .ok () := by
  induction code generalizing start with
  | nil => rfl
  | cons ins rest ih =>
    rw [checkCode, show checkInstruction p b start ins = .ok () from h 0 ins rfl]
    refine ih fun i ins' hins' => ?_
    rw [Nat.add_assoc, Nat.add_comm 1 i]
    exact h (i + 1) ins' hins'

theorem checkBind_of_within {parent : Block} {bind : Bind} (h : bind.Within parent) :
    checkBind (some parent) bind = .ok () := by
  unfold Bind.Within at h
  unfold checkBind
  dsimp only
  split
  · rename_i hlocal
    rw [if_pos hlocal] at h
    rw [if_pos (inRange_iff.2 h)]
    rfl
  · rename_i hlocal
    rw [if_neg hlocal] at h
    rw [if_pos (inRange_iff.2 h)]
    rfl

theorem checkBlock_of_parts {parent : Option Block} (hslots : b.slots ≤ maxRegisters)
    (hparams : b.params ≤ b.slots) (hret : inRange b.ret b.slots = true)
    (hbinds : ∀ bind ∈ b.binds.toList, checkBind parent bind = .ok ())
    (hcode : ∀ (i : Nat) (ins : Instruction), b.code[i]? = some ins →
      checkInstruction p b i ins = .ok ()) : checkBlock p parent b = .ok () := by
  have hresult : ¬ (b.slots < b.params || !inRange b.ret b.slots) = true := by
    simp only [hret, Bool.not_true, Bool.or_false, decide_eq_true_eq]
    omega
  unfold checkBlock
  dsimp only
  rw [if_neg (by omega), if_neg hresult, forM_of_ok hbinds]
  refine checkCode_of_ok fun i ins hins => ?_
  rw [Nat.zero_add]
  exact hcode i ins (by simpa using hins)

/-- The registers that an instruction reads: its operands, and those that it takes cells from. -/
theorem mem_reads {r : Int} (h : r ∈ p.reads b ins) :
    r ∈ ins.operands ∨ ((ins.op = .loadCell ∨ ins.op = .storeCell ∨ ins.op = .makeCell) ∧ r = ins.a) ∨
      ∃ place, b.nested? ins.k = some place ∧
        ∃ bind ∈ (p.block place).binds.toList, bind.isLocal = true ∧ bind.index = r := by
  have hlocal : r ∈ p.localBinds b ins.k → ∃ place, b.nested? ins.k = some place ∧
      ∃ bind ∈ (p.block place).binds.toList, bind.isLocal = true ∧ bind.index = r := by
    intro hr
    unfold localBinds at hr
    split at hr
    · cases hr
    · rename_i place hplace
      obtain ⟨bind, hbind, hindex⟩ := mem_filterMap.1 hr
      split at hindex
      · rename_i hlocal
        cases hindex
        exact ⟨place, hplace, bind, hbind, hlocal, rfl⟩
      · cases hindex
  unfold reads at h
  unfold Instruction.operands
  cases hop : ins.op <;> simp only [hop] at h ⊢ <;> grind

end Checks

end Program

/-! ## Blocks of units in order -/

namespace Compile

variable {L : Layout}
variable {setting : Setting} {p : Program} {units : Nat → Draft} {place : Nat}

theorem Layout.Holds.inRange {r : Int} (h : L.Holds L.finish r) :
    Program.inRange r L.unit.registers = true := by
  obtain ⟨n, rfl, hlt, -⟩ := h
  exact inRange_iff.2 ⟨Int.natCast_nonneg n, Int.ofNat_lt.2 hlt⟩

/-- The cells that a nested unit takes are there. -/
theorem Draft.Links.within {r : Resolution} {child parent : Draft} (h : child.Links r parent)
    (hslots : ∀ binding slot : Nat, parent.slots[binding]? = some slot → slot < parent.registers)
    (hcaptured : ∀ binding i : Nat, parent.captured[binding]? = some i → i < parent.block.binds.size)
    {bind : Bind} (hbind : bind ∈ child.block.binds.toList) (ret : Nat) :
    bind.Within (parent.sealed ret) := by
  obtain ⟨i, hi⟩ := getElem?_of_mem hbind
  rw [Array.getElem?_toList] at hi
  obtain ⟨binding, hbinding⟩ := h.taken i (Array.getElem?_eq_some_iff.1 hi).1
  obtain ⟨-, ⟨slot, hslot, hat⟩ | ⟨-, outer, houter, hat⟩⟩ := h.takes binding i hbinding
  · rw [hi] at hat
    cases hat
    exact ⟨Int.natCast_nonneg _, Int.ofNat_lt.2 (hslots binding slot hslot)⟩
  · rw [hi] at hat
    cases hat
    exact ⟨Int.natCast_nonneg _, Int.ofNat_lt.2 (hcaptured binding outer houter)⟩

theorem Draft.Links.captured_lt {r : Resolution} {child parent : Draft} (h : child.Links r parent)
    {binding i : Nat} (hi : child.captured[binding]? = some i) : i < child.block.binds.size := by
  obtain ⟨-, ⟨_, -, hat⟩ | ⟨-, _, -, hat⟩⟩ := h.takes binding i hi <;>
    exact (Array.getElem?_eq_some_iff.1 hat).1

theorem InOrder.block_eq (h : InOrder setting p.blocks units place) :
    ∃ ret, p.block place = (units place).sealed ret := by
  cases h with
  | @intro _ _ _ _ ret isUnit => exact ⟨ret, by rw [Program.block, isUnit.block]; rfl⟩

/-- What an instruction names besides registers passes the check. -/
theorem Layout.Names.checkOperand_ok (h : L.Names ins)
    (hcaptured : ∀ binding i : Nat, L.unit.captured[binding]? = some i → i <
      L.unit.block.binds.size) (ret offset : Nat) :
    Program.checkOperand (L.unit.sealed ret) offset ins = .ok () := by
  unfold Layout.Names at h
  unfold Program.checkOperand
  have hconstant : ∀ {k : Nat} {value : Datum}, ins.k = k → L.HasConstant value k → L.Plain value →
      (Program.inRange ins.k (L.unit.sealed ret).constants.size &&
        ((L.unit.sealed ret).nested? ins.k).isNone) = true := by
    intro k value hk hvalue hplain
    have hget : (L.unit.sealed ret).constants[k]? = some value := hvalue
    rw [hk, Bool.and_eq_true]
    refine ⟨inRange_iff.2 ⟨Int.natCast_nonneg _, Int.ofNat_lt.2
      (Array.getElem?_eq_some_iff.1 hget).1⟩, ?_⟩
    rw [Block.nested?, Block.constant?_natCast, hget]
    have hplace := hplain.1
    cases value with
    | block place => exact absurd rfl (hplace place)
    | _ => rfl
  have hnested : ∀ {k child : Nat}, ins.k = k → L.HasConstant (.block child) k →
      ((L.unit.sealed ret).nested? ins.k).isSome = true := by
    intro k child hk hchild
    have hget : (L.unit.sealed ret).constants[k]? = some (.block child) := hchild
    rw [hk, Block.nested?, Block.constant?_natCast, hget]
    rfl
  have hbind : ∀ {binding i : Nat}, ins.a = i → L.unit.captured[binding]? = some i →
      Program.inRange ins.a (L.unit.sealed ret).binds.size = true := by
    intro binding i ha hi
    rw [ha]
    exact inRange_iff.2 ⟨Int.natCast_nonneg _, Int.ofNat_lt.2 (hcaptured binding i hi)⟩
  cases hop : ins.op with
  | loadConstant | constantIfEqual =>
    simp only [hop] at h ⊢
    obtain ⟨k, value, hk, hvalue, hplain⟩ := h
    rw [if_pos (hconstant hk hvalue hplain)]
    rfl
  | closure | callArm | callIfEqual =>
    simp only [hop] at h ⊢
    obtain ⟨k, child, hk, hchild⟩ := h
    rw [if_pos (hnested hk hchild)]
    rfl
  | loadEscaped | storeEscaped =>
    simp only [hop] at h ⊢
    obtain ⟨binding, i, ha, hi⟩ := h
    rw [if_pos (hbind ha hi)]
    rfl
  | _ => rfl

/-- An instruction behind those that make the cells passes the check. -/
theorem Layout.Admits.checkInstruction_ok {offset ret : Nat} (h : L.Admits L.finish offset ins)
    (hslots : ∀ binding slot : Nat, L.unit.slots[binding]? = some slot → slot < L.unit.registers)
    (hcaptured : ∀ binding i : Nat, L.unit.captured[binding]? = some i → i <
      L.unit.block.binds.size)
    (hchild : ∀ child ∈ L.unit.block.children, ∀ bind ∈ (p.block child).binds.toList, bind.Within
      (L.unit.sealed ret)) :
    Program.checkInstruction p (L.unit.sealed ret) offset ins = .ok () := by
  have hnames := h.names
  unfold Layout.Names at hnames
  refine checkInstruction_of_parts (fun number hop => ?_) (fun r hr => ?_) (fun r hr => ?_)
    (h.names.checkOperand_ok hcaptured ret offset) fun hbranch => ?_
  · rw [hop] at hnames
    exact hnames
  · exact (h.values r (mem_append_left _ (Instruction.mem_results_of_writes? hr))).inRange
  · rcases mem_reads hr with hr | ⟨hop, rfl⟩ | ⟨child, hnested, bind, hbind, hlocal, rfl⟩
    · exact (h.values r (mem_append_right _ hr)).inRange
    · rcases hop with hop | hop | hop
      all_goals rw [hop] at hnames
      case inr.inr => exact hnames.elim
      all_goals
        obtain ⟨binding, slot, ha, hslot, -⟩ := hnames
        exact inRange_iff.2 ⟨ha ▸ Int.natCast_nonneg _,
          ha ▸ Int.ofNat_lt.2 (hslots binding slot hslot)⟩
    · have hwithin := hchild child (Block.mem_children_of_nested? hnested) bind hbind
      rw [Bind.Within, if_pos hlocal] at hwithin
      exact inRange_iff.2 hwithin
  · obtain ⟨n, hn, hlt, hle⟩ := h.target hbranch
    rw [hn]
    exact ⟨Int.ofNat_lt.2 hlt, Int.ofNat_le.2 hle⟩

/-- An instruction that makes a cell passes the check. -/
theorem checkInstruction_makeCell {b : Block} {offset slot : Nat} (hop : ins.op = .makeCell)
    (hdest : ins.dest = slot) (ha : ins.a = slot ∨ ins.a = -1) (hslot : (slot : Int) < b.slots) :
    Program.checkInstruction p b offset ins = .ok () := by
  have hin : Program.inRange slot b.slots = true :=
    inRange_iff.2 ⟨Int.natCast_nonneg _, hslot⟩
  refine checkInstruction_of_parts (fun number h => ?_) (fun r hr => ?_) (fun r hr => ?_) ?_
    fun hbranch => ?_
  · rw [hop] at h
    cases h
  · simp only [Instruction.writes?, hop, hdest, Option.some.injEq] at hr
    exact hr ▸ hin
  · simp only [Program.reads, hop] at hr
    rcases ha with ha | ha
    · rw [ha, if_pos (Int.natCast_nonneg _), mem_singleton] at hr
      exact hr ▸ hin
    · rw [ha, if_neg (by decide)] at hr
      cases hr
  · simp only [Program.checkOperand, hop]
    rfl
  · simp [Opcode.isBranch, hop] at hbranch

/-- The instructions that make the cells of a unit. -/
theorem mem_cells {unit : CodeUnit} {parameters i : Nat}
    (h : (setting.cells unit parameters)[i]? = some ins) :
    ∃ binding : Nat, (setting.resolution.bindings[binding]?.getD default).escapes = true ∧
      ∃ slot : Nat,
        (assignSlots setting.resolution parameters (setting.held unit)).1[binding]? = some slot ∧
          ins.op = .makeCell ∧ ins.dest = slot ∧ (ins.a = slot ∨ ins.a = -1) := by
  obtain ⟨binding, hheld, hcell⟩ := mem_filterMap.1 (mem_of_getElem? h)
  unfold Setting.cell? at hcell
  dsimp only at hcell
  split at hcell
  · rename_i hescapes
    obtain ⟨slot, hslot⟩ := Option.isSome_iff_exists.1
      ((assignSlots_isSome setting.resolution parameters (setting.held unit) binding).2 hheld)
    cases hcell
    refine ⟨binding, hescapes, slot, hslot, rfl, ?_, ?_⟩
    · rw [hslot]
      rfl
    · rw [hslot]
      dsimp only [Option.getD_some]
      split
      · exact .inl rfl
      · exact .inr rfl
  · cases hcell

/-- The check finds nothing wrong with a unit in order, nor with the units nested in it. -/
theorem InOrder.checkFrom_ok (h : InOrder setting p.blocks units place) (levels : Nat) :
    ∀ parent : Option Block,
      (∀ binding i : Nat, (units place).captured[binding]? = some i →
        i < (units place).block.binds.size) →
      (∀ bind ∈ (units place).block.binds.toList, Program.checkBind parent bind = .ok ()) →
        p.checkFrom levels parent place = .ok () := by
  induction levels generalizing place with
  | zero => exact fun _ _ _ => rfl
  | succ levels ih =>
    intro parent hcaptured hbinds
    cases h with
    | @intro unit parameters token _ ret isUnit roomy le admits result links nested =>
      have hblock : p.block place = (units place).sealed ret := by
        rw [Program.block, isUnit.block]
        rfl
      have hslots : ∀ binding slot : Nat, (units place).slots[binding]? = some slot →
          slot < (units place).registers := fun binding slot hslot =>
        Nat.lt_of_lt_of_le (roomy.slot_lt binding slot hslot) le
      have hchild : ∀ child ∈ (units place).block.children,
          ∀ bind ∈ (p.block child).binds.toList, bind.Within ((units place).sealed ret) := by
        intro child hmem bind hbind
        obtain ⟨ret', hchild⟩ := (nested child hmem).block_eq
        rw [hchild] at hbind
        exact (links child hmem).within hslots hcaptured hbind ret
      have hchecked : Program.checkBlock p parent ((units place).sealed ret) = .ok () := by
        refine checkBlock_of_parts (Int.ofNat_le.2 isUnit.registers) ?_ result.inRange
          hbinds fun i ins hins => ?_
        · show (units place).block.params ≤ _
          rw [isUnit.params]
          have hle := (assigned_assignSlots setting.resolution parameters
            (setting.held unit)).le
          exact Int.ofNat_le.2 (Nat.le_trans hle le)
        · by_cases hi : i < (setting.cells unit parameters).length
          · obtain ⟨made, hmade⟩ : ∃ made, (setting.cells unit parameters)[i]? = some made :=
              ⟨_, getElem?_eq_getElem hi⟩
            obtain ⟨binding, -, slot, hslot, hop, hdest, ha⟩ := mem_cells hmade
            have hat : (units place).block.code[i]? = some ins := hins
            rw [isUnit.cells i made hmade] at hat
            cases hat
            refine checkInstruction_makeCell hop hdest ha (Int.ofNat_lt.2 ?_)
            exact hslots binding slot (isUnit.slots ▸ hslot)
          · exact (admits i ins (Nat.not_lt.1 hi) hins).checkInstruction_ok hslots hcaptured hchild
      rw [Program.checkFrom, hblock, hchecked]
      refine forM_of_ok fun child hmem => ?_
      refine ih (nested child hmem) _ (fun _ _ => (links child hmem).captured_lt) ?_
      intro bind hbind
      exact checkBind_of_within ((links child hmem).within hslots hcaptured hbind ret)

end Compile

/-! ## Where cells come from -/

/-- The cell at a place among those that a block takes is the one in a register of a block around it:
of the next one, or of one further out from which all blocks in between take it. -/
inductive Program.Leads (p : Program) : Nat → Nat → Nat → Nat → Prop
  | held {place parent i register : Nat} (nested : place ∈ (p.block parent).children)
      (bind : (p.block place).binds[i]? = some ⟨true, register⟩) : Leads p place i parent register
  | passed {place parent i outer owner register : Nat} (nested : place ∈ (p.block parent).children)
      (bind : (p.block place).binds[i]? = some ⟨false, outer⟩)
      (leads : Leads p parent outer owner register) : Leads p place i owner register

namespace Compile

variable {setting : Setting} {p : Program} {units : Nat → Draft} {place : Nat}

/-- The cell that a unit takes at a place leads to the register of a binding, in the block of the unit
that owns the binding. -/
def Reaches (setting : Setting) (units : Nat → Draft) (p : Program) (place i binding : Nat) : Prop :=
  ∃ (b : Binding) (owner register parameters ret : Nat) (token : Token),
    setting.resolution.bindings[binding]? = some b ∧
      (Layout.mk setting p.blocks units (units owner)).IsUnit b.owner parameters token owner
        (units owner) ret ∧
        (units owner).slots[binding]? = some register ∧ p.Leads place i owner register

variable (hframes : setting.frames = setting.resolution.frames)

include hframes

/-- A unit in order holds only bindings of its own. -/
theorem InOrder.owner (h : InOrder setting p.blocks units place) {binding register : Nat}
    (hslot : (units place).slots[binding]? = some register) :
    ∃ (b : Binding) (parameters ret : Nat) (token : Token),
      setting.resolution.bindings[binding]? = some b ∧
        (Layout.mk setting p.blocks units (units place)).IsUnit b.owner parameters token place
          (units place) ret := by
  cases h with
  | @intro unit parameters token _ ret isUnit =>
    have hsome := assignSlots_isSome setting.resolution parameters (setting.held unit) binding
    have hslots : (units place).slots =
      (assignSlots setting.resolution parameters (setting.held unit)).1 := isUnit.slots
    rw [← hslots, hslot, Setting.held, hframes, mem_getD_frames] at hsome
    obtain ⟨b, hb, rfl⟩ := hsome.1 rfl
    exact ⟨b, parameters, ret, token, hb, isUnit⟩

/-- A unit in order whose cells each belong to one binding and lead to its register. -/
structure Anchored (setting : Setting) (units : Nat → Draft) (p : Program) (place : Nat) : Prop where
  inOrder : InOrder setting p.blocks units place
  taken : ∀ i < (p.block place).binds.size, ∃ binding : Nat,
    (units place).captured[binding]? = some i
  reaches : ∀ binding i : Nat, (units place).captured[binding]? = some i →
    Reaches setting units p place i binding

/-- The cells of a nested unit lead where those of the unit around it do. -/
theorem Anchored.nested {child : Nat}
    (h : Anchored setting units p place) (hmem : child ∈ (p.block place).children) :
    Anchored setting units p child := by
  obtain ⟨ret, hblock⟩ := h.inOrder.block_eq
  have hmem' : child ∈ (units place).block.children := by rwa [hblock] at hmem
  have hparts : InOrder setting p.blocks units child ∧
      (units child).Links setting.resolution (units place) := by
    cases h.inOrder with
    | intro _ _ _ _ _ links nested => exact ⟨nested child hmem', links child hmem'⟩
  obtain ⟨hchild, hlinks⟩ := hparts
  obtain ⟨ret', hblock'⟩ := hchild.block_eq
  have hbinds : (p.block child).binds = (units child).block.binds := by rw [hblock']; rfl
  refine ⟨hchild, hbinds ▸ hlinks.taken, fun binding i hi => ?_⟩
  obtain ⟨-, ⟨slot, hslot, hbind⟩ | ⟨-, outer, houter, hbind⟩⟩ := hlinks.takes binding i hi
  · obtain ⟨b, parameters, ret, token, hb, hunit⟩ := h.inOrder.owner hframes hslot
    exact ⟨b, place, slot, parameters, ret, token, hb, hunit, hslot, .held hmem (hbinds ▸ hbind)⟩
  · obtain ⟨b, owner, register, parameters, ret, token, hb, hunit, hslot, hleads⟩ :=
      h.reaches binding outer houter
    exact ⟨b, owner, register, parameters, ret, token, hb, hunit, hslot,
      .passed hmem (hbinds ▸ hbind) hleads⟩

theorem Anchored.of_mem_placesFrom (levels : Nat) : ∀ start, Anchored setting units p start →
      ∀ place ∈ p.placesFrom levels start, Anchored setting units p place := by
  induction levels with
  | zero => exact nofun
  | succ levels ih =>
    intro start hstart place hplace
    rcases mem_cons.1 hplace with rfl | hplace
    · exact hstart
    · obtain ⟨child, hmem, hplace⟩ := mem_flatMap.1 hplace
      exact ih child (hstart.nested hframes hmem) place hplace

end Compile

namespace Script

variable {units : Nat → Compile.Draft}
variable {natives : Text → Option Nat} {name : Text} {r : Resolution} {script : Script} {p : Program}

section

variable (hseparate : (r.markEscapes script).Separate)
  (h : script.LaidOut (script.setting natives name r) units p)

include hseparate h

/-- The units of a program that is laid out are in order. -/
theorem LaidOut.inOrder : Compile.InOrder (script.setting natives name r) p.blocks units 0 := by
  obtain ⟨ret, hunit, -, -, hexpr⟩ := h
  have hroomy := Compile.Layout.roomy_start ⟨rfl, hseparate⟩ hunit
  have hgives := Compile.Layout.gives_of_hasExpr script.body ⟨rfl, hseparate⟩ hexpr hroomy
  have hchild : ∀ child ∈ (units 0).block.children, _ := fun child hmem =>
    (hgives.children child hmem).resolve_left not_mem_nil
  exact .intro hunit hroomy hgives.registers_le
    (fun i ins hle hins =>
      hgives.admits i ins hle (Array.getElem?_eq_some_iff.1 hins).1 hins)
    (hroomy.holds hgives.le hgives.lt) (fun child hmem => (hchild child hmem).1)
    fun child hmem => (hchild child hmem).2

theorem LaidOut.anchored {place : Nat} (hplace : place ∈ p.places) :
    Compile.Anchored (script.setting natives name r) units p place := by
  have horder := h.inOrder hseparate
  obtain ⟨ret, -, hnone, hbinds, -⟩ := h
  obtain ⟨ret', hblock⟩ := horder.block_eq
  refine Compile.Anchored.of_mem_placesFrom rfl _ 0 ⟨horder, fun i hi => ?_, fun binding i hi => ?_⟩
    place hplace
  · rw [hblock, show ((units 0).sealed ret').binds = #[] from hbinds] at hi
    exact absurd hi (Nat.not_lt_zero i)
  · cases (hnone binding).symm.trans hi

theorem LaidOut.root_binds : p.root.binds = #[] := by
  obtain ⟨ret, hblock⟩ := (h.inOrder hseparate).block_eq
  obtain ⟨-, -, -, hbinds, -⟩ := h
  rw [Program.root, hblock]
  exact hbinds

/-- The check finds nothing wrong with a program that is laid out. -/
theorem LaidOut.validate_ok : p.validate = .ok () := by
  have horder := h.inOrder hseparate
  obtain ⟨-, -, hnone, hbinds, -⟩ := h
  refine horder.checkFrom_ok _ none (fun binding i hi => ?_) fun bind hbind => ?_
  · cases (hnone binding).symm.trans hi
  · rw [hbinds] at hbind
    cases hbind

end

/-- The code of a parsed program is valid, and its blocks form a tree. Every cell that a block takes is
that of one binding, and leads through the blocks around it to the register of the binding, in the
block of the unit that owns the binding; the root takes none. -/
theorem validate_compile_parse {file : Text} {tokens : List Token} {globals : Text → Bool}
    (hscript : script = (Script.parse file tokens).1)
    (h : script.compile natives name (script.resolve globals).1 = .ok p) :
    p.Ordered ∧ p.validate = .ok () ∧ p.root.binds = #[] ∧
      ∃ units, script.LaidOut (script.setting natives name (script.resolve globals).1) units p ∧
        ∀ place ∈ p.places,
          (∀ i < (p.block place).binds.size, ∃ binding : Nat,
            (units place).captured[binding]? = some i) ∧
          ∀ binding i : Nat, (units place).captured[binding]? = some i →
            Compile.Reaches (script.setting natives name (script.resolve globals).1) units p place i
              binding := by
  subst hscript
  have hdistinct := Script.distinct_parse file tokens
  have hseparate := Script.separate_resolve globals _ hdistinct
  obtain ⟨units, hlaid⟩ := laidOut_of_compile (Script.serves_resolve globals _ hdistinct) h
  refine ⟨.of_compile h, hlaid.validate_ok hseparate, hlaid.root_binds hseparate, units, hlaid,
    fun place hplace => ?_⟩
  have hanchored := hlaid.anchored hseparate hplace
  exact ⟨hanchored.taken, hanchored.reaches⟩

end Script

/-! ## A cell that is passed on -/

/-- The tokens of `x := y => z => x`. -/
def passedOnTokens : List Token :=
  [{ kind := .name, lexeme := "x" }, { kind := .define, lexeme := ":=" },
    { kind := .name, lexeme := "y" }, { kind := .functionArrow, lexeme := "=>" },
    { kind := .name, lexeme := "z" }, { kind := .functionArrow, lexeme := "=>" },
    { kind := .name, lexeme := "x" }, { kind := .finish }]

/-- A program whose inner function takes the cell of `x` from the outer one. -/
def passedOn : Script :=
  ⟨{ kind := .name, lexeme := "x" }, "",
    [.define { kind := .define, lexeme := ":=", index := 1 } (.name { kind := .name, lexeme := "x" })
      (.function { kind := .functionArrow, lexeme := "=>", index := 3 } "x"
        [⟨{ kind := .name, lexeme := "y", index := 2 }, "y"⟩]
        (.function { kind := .functionArrow, lexeme := "=>", index := 5 } ""
          [⟨{ kind := .name, lexeme := "z", index := 4 }, "z"⟩]
          (.name { kind := .name, lexeme := "x", index := 6 })))]⟩

/-- Its code. -/
def passedOnCode : Program :=
  ⟨#[{ name := "<program>", slots := 2, ret := 1, constants := #[.block 1]
       code := #[{ op := .makeCell, a := -1 }, { op := .closure, dest := 1 },
        { op := .storeCell, a := 0, b := 1 }] },
     { id := 1, name := "x", slots := 2, params := 1, ret := 1, constants := #[.block 2]
       binds := #[⟨true, 0⟩], code := #[{ op := .closure, dest := 1 }] },
     { id := 2, name := "<anonymous>", slots := 2, params := 1, ret := 1, binds := #[⟨false, 0⟩]
       code := #[{ op := .loadEscaped, dest := 1, a := 0 }] }]⟩

theorem parse_passedOn : passedOn = (Script.parse "" passedOnTokens).1 := by
  cbv

/-- What its names refer to. -/
theorem resolution_passedOn (r : Resolution)
    (hr : r = (passedOn.resolve fun _ => false).1.markEscapes passedOn) :
    r.bindings = #[{ name := "x", owner := .program, definitions := 1, function := some ("x", 1)
                     escapes := true },
        { name := "y", owner := .function 3, parameter := some 0 },
        { name := "z", owner := .function 5, parameter := some 0 }] ∧
      r.references[0]? = some (.binding 0) ∧ r.references[6]? = some (.binding 0) := by
  subst hr
  refine ⟨?_, ?_, ?_⟩
  · cbv
  · cbv
  · cbv

theorem compile_passedOn :
    passedOn.compile (fun _ => none) "" (passedOn.resolve fun _ => false).1 = .ok passedOnCode := by
  obtain ⟨hbindings, hname, huse⟩ := resolution_passedOn (passedOn.setting (fun _ => none) ""
    (passedOn.resolve fun _ => false).1).resolution rfl
  have hheld : ∀ unit, (passedOn.setting (fun _ => none) ""
      (passedOn.resolve fun _ => false).1).held unit = _ := getD_frames _
  rw [Script.compile_eq]
  unfold Script.written Script.writing
  generalize passedOn.setting (fun _ => none) "" (passedOn.resolve fun _ => false).1 = setting at *
  obtain ⟨natives, file, ⟨bindings, references⟩, frames⟩ := setting
  dsimp only at hbindings hname huse
  subst hbindings
  simp only [Script.body, passedOn, Compile.expr, Compile.sequence, Compile.target, Compile.name,
    Compile.loadBinding, Compile.storeBinding, result_bind, result_openUnit,
    Compile.State.opened, result_closeUnit_some, result_pure, result_emit,
    result_read, Compile.Setting.draft, Compile.Setting.cells, hheld, Resolution.reference?,
    hname, huse]
  cbv

/-- The inner function takes the cell of `x` from the outer one, which takes it from the program. -/
theorem Script.validate_compile_parse_passedOn :
    (passedOn = (Script.parse "" passedOnTokens).1 ∧
      passedOn.compile (fun _ => none) "" (passedOn.resolve fun _ => false).1 = .ok passedOnCode) ∧
    passedOnCode.Ordered ∧ passedOnCode.validate = .ok () ∧ passedOnCode.root.binds = #[] ∧
      ∃ units, passedOn.LaidOut
          (passedOn.setting (fun _ => none) "" (passedOn.resolve fun _ => false).1) units passedOnCode ∧
        ∀ place ∈ passedOnCode.places,
          (∀ i < (passedOnCode.block place).binds.size, ∃ binding : Nat,
            (units place).captured[binding]? = some i) ∧
          ∀ binding i : Nat, (units place).captured[binding]? = some i →
            Compile.Reaches (passedOn.setting (fun _ => none) "" (passedOn.resolve fun _ => false).1)
              units passedOnCode place i binding :=
  ⟨⟨parse_passedOn, compile_passedOn⟩, validate_compile_parse parse_passedOn compile_passedOn⟩

end Inkwell
