import Mathlib
import Inkwell.Proofs.Code.Drafts

/-!
# Units in order

What the layout of its code says about the single instructions of a unit. The registers of a unit are
of two kinds: those of the bindings that escape hold cells, all others hold values. Every instruction
behind those that make the cells keeps to that. It reads values and writes a value, and takes a cell
only from the register of a binding that escapes, or from the cells that the unit takes from the unit
around it (`Layout.Admits`). Branches go forward, and constants are where the instructions expect them.

The units nested in a unit take their cells from it, and are in order themselves (`InOrder`).
-/

namespace Inkwell

variable {ins : Instruction} {r : Int} {binding place : Nat} {token : Token}

namespace Instruction

/-- The registers whose values an instruction reads. Where it takes cells from is not among them. -/
def operands (ins : Instruction) : List Int :=
  match ins.op with
  | .move | .negate | .matchFail => [ins.a]
  | .storeEscaped | .storeCell => [ins.b]
  | .getElement | .constantIfEqual | .callIfEqual | .operate _ => [ins.a, ins.b]
  | .setElement => [ins.a, ins.b, ins.c]
  | .call | .tailCall => ins.a :: ins.args
  | _ => []

/-- The register that an instruction may give a result to, also one in tail position. -/
def results (ins : Instruction) : List Int :=
  match ins.op with
  | .tailCall => [ins.dest]
  | _ => ins.writes?.toList

theorem mem_results_of_writes? (h : ins.writes? = some r) :
    r ∈ ins.results := by
  unfold results
  split
  · rename_i hop
    simp [writes?, hop] at h
  · simp [h]

end Instruction

namespace Compile

/-- The frames are those of the resolution, and no two parameters of a unit share a register. -/
structure Setting.Proper (setting : Setting) : Prop where
  frames : setting.frames = setting.resolution.frames
  separate : setting.resolution.Separate

namespace Layout

variable (L : Layout)

/-- A register in use that holds a value, not a cell. -/
def Holds (t : Mark) (r : Int) : Prop :=
  ∃ n : Nat, r = n ∧ n < t.registers ∧
    ∀ binding : Nat, L.unit.slots[binding]? = some n → L.escapes binding = false

/-- A constant that can be loaded: no block, and no function of the host that is not known. -/
def Plain (value : Datum) : Prop :=
  (∀ place, value ≠ .block place) ∧
    ∀ id, value = .native id → ∃ (name : Text) (number : Nat), id = number ∧
      L.setting.natives name = some number

/-- What an instruction names besides registers that hold values is there. -/
def Names (ins : Instruction) : Prop :=
  match ins.op with
  | .loadConstant | .constantIfEqual =>
    ∃ (k : Nat) (value : Datum), ins.k = k ∧ L.HasConstant value k ∧ L.Plain value
  | .closure | .callArm | .callIfEqual =>
    ∃ (k place : Nat), ins.k = k ∧ L.HasConstant (.block place) k
  | .loadCell | .storeCell =>
    ∃ binding slot : Nat, ins.a = slot ∧ L.unit.slots[binding]? = some slot ∧
      L.escapes binding = true
  | .loadEscaped | .storeEscaped =>
    ∃ binding place : Nat, ins.a = place ∧ L.unit.captured[binding]? = some place
  | .makeCell | .unknown _ => False
  | _ => True

/-- An instruction of the unit, behind those that make its cells, as far as the mark `t`. -/
structure Admits (t : Mark) (offset : Nat) (ins : Instruction) : Prop where
  values : ∀ r ∈ ins.results ++ ins.operands, L.Holds t r
  names : L.Names ins
  target : ins.op.isBranch → ∃ n : Nat, ins.target = n ∧ offset < n ∧ n ≤ t.offset

/-- The bindings of the unit have registers of their own, none of them free at a mark. -/
structure Roomy (L : Layout) (s : Mark) : Prop where
  slot_lt : ∀ binding slot : Nat, L.unit.slots[binding]? = some slot → slot < s.registers
  apart : ∀ binding other slot : Nat, L.unit.slots[binding]? = some slot →
    L.unit.slots[other]? = some slot → binding = other

end Layout

/-- A unit that keeps to its registers, with all units nested in it. -/
inductive InOrder (setting : Setting) (blocks : Array Block) (units : Nat → Draft) : Nat → Prop
  | intro {unit : CodeUnit} {parameters : Nat} {token : Token} {place ret : Nat}
      (isUnit : (Layout.mk setting blocks units (units place)).IsUnit unit parameters token place
        (units place) ret)
      (roomy : (Layout.mk setting blocks units (units place)).Roomy
        ((Layout.mk setting blocks units (units place)).start unit parameters))
      (le : ((Layout.mk setting blocks units (units place)).start unit parameters).registers ≤
        (units place).registers)
      (admits : ∀ (i : Nat) (ins : Instruction), (setting.cells unit parameters).length ≤ i →
        (units place).block.code[i]? = some ins →
          (Layout.mk setting blocks units (units place)).Admits
            (Layout.mk setting blocks units (units place)).finish i ins)
      (result : (Layout.mk setting blocks units (units place)).Holds
        (Layout.mk setting blocks units (units place)).finish ret)
      (links : ∀ child ∈ (units place).block.children,
        (units child).Links setting.resolution (units place))
      (nested : ∀ child ∈ (units place).block.children, InOrder setting blocks units child) :
      InOrder setting blocks units place

namespace Layout

variable {L : Layout} {s m t : Mark}

/-- The code between two marks keeps to the registers of the unit, and what is nested in it is in
order. -/
structure Sits (L : Layout) (s t : Mark) : Prop where
  offset_le : s.offset ≤ t.offset
  registers_le : s.registers ≤ t.registers
  admits : ∀ (i : Nat) (ins : Instruction), s.offset ≤ i → i < t.offset →
    L.unit.block.code[i]? = some ins → L.Admits t i ins
  children : ∀ place ∈ t.children, place ∈ s.children ∨
    ((L.units place).Links L.setting.resolution L.unit ∧
      InOrder L.setting L.blocks L.units place)

theorem Holds.of_le (h : L.Holds s r) (hle : s.registers ≤ t.registers) : L.Holds t r := by
  obtain ⟨n, hn, hlt, hnone⟩ := h
  exact ⟨n, hn, Nat.lt_of_lt_of_le hlt hle, hnone⟩

theorem Admits.of_le {offset : Nat} (h : L.Admits s offset ins)
    (hregisters : s.registers ≤ t.registers) (hoffset : s.offset ≤ t.offset) :
    L.Admits t offset ins where
  values r hr := (h.values r hr).of_le hregisters
  names := h.names
  target hbranch := by
    obtain ⟨n, hn, hlt, hle⟩ := h.target hbranch
    exact ⟨n, hn, hlt, Nat.le_trans hle hoffset⟩

namespace Sits

theorem refl (s : Mark) : L.Sits s s where
  offset_le := Nat.le_refl _
  registers_le := Nat.le_refl _
  admits _ _ hle hlt := absurd hle (Nat.not_le.2 hlt)
  children _ hplace := .inl hplace

theorem trans (h : L.Sits s m) (h' : L.Sits m t) : L.Sits s t where
  offset_le := Nat.le_trans h.offset_le h'.offset_le
  registers_le := Nat.le_trans h.registers_le h'.registers_le
  admits i ins hle hlt hins := by
    by_cases hmid : i < m.offset
    · exact (h.admits i ins hle hmid hins).of_le h'.registers_le h'.offset_le
    · exact h'.admits i ins (Nat.not_lt.1 hmid) hlt hins
  children place hplace := (h'.children place hplace).elim (h.children place) .inr

theorem fresh (s : Mark) : L.Sits s s.fresh where
  offset_le := Nat.le_refl _
  registers_le := Nat.le_succ _
  admits _ _ hle hlt := absurd hle (Nat.not_le.2 hlt)
  children _ hplace := .inl hplace

theorem nest (s : Mark) (hlinks : (L.units place).Links L.setting.resolution L.unit)
    (horder : InOrder L.setting L.blocks L.units place) : L.Sits s (s.nest place) where
  offset_le := Nat.le_refl _
  registers_le := Nat.le_refl _
  admits _ _ hle hlt := absurd hle (Nat.not_le.2 hlt)
  children other hother := by
    rcases List.mem_append.1 hother with hother | hother
    · exact .inl hother
    · obtain rfl := List.mem_singleton.1 hother
      exact .inr ⟨hlinks, horder⟩

/-- An instruction in front of code, to the end of which it may go. -/
theorem cons {token : Token} {ins : Instruction} (h : L.HasCode token ins s m) (hrest : L.Sits m t)
    (hins : L.Admits t s.offset ins) : L.Sits s t := by
  obtain ⟨hcode, rfl⟩ := h
  refine ⟨Nat.le_of_succ_le hrest.offset_le, hrest.registers_le, fun i found hle hlt hfound => ?_,
    hrest.children⟩
  rcases Nat.eq_or_lt_of_le hle with rfl | hlt'
  · rw [hcode] at hfound
    cases hfound
    exact ⟨hins.values, hins.names, hins.target⟩
  · exact hrest.admits i found hlt' hlt hfound

/-- One instruction. -/
theorem code (h : L.HasCode token ins s t) (hins : L.Admits s.next s.offset ins) : L.Sits s t :=
  .cons h (.refl t) (h.2 ▸ hins)

end Sits

namespace Roomy

theorem of_le (h : L.Roomy s) (hle : s.registers ≤ t.registers) : L.Roomy t :=
  ⟨fun binding slot hslot => Nat.lt_of_lt_of_le (h.slot_lt binding slot hslot) hle, h.apart⟩

/-- A register that is free at one mark and in use at another holds a value. -/
theorem holds (h : L.Roomy s) {n : Nat} (hle : s.registers ≤ n) (hlt : n < t.registers) :
    L.Holds t n := by
  refine ⟨n, rfl, hlt, fun binding hslot => ?_⟩
  exact absurd (h.slot_lt binding n hslot) (Nat.not_lt.2 hle)

theorem holds_slot (h : L.Roomy s) {slot : Nat} (hslot : L.unit.slots[binding]? = some slot)
    (hstays : L.escapes binding = false) : L.Holds s slot := by
  refine ⟨slot, rfl, h.slot_lt binding slot hslot, fun other hother => ?_⟩
  rw [← h.apart binding other slot hslot hother]
  exact hstays

end Roomy

/-- The bindings of a unit have their registers when its code starts. -/
theorem roomy_start {unit : CodeUnit} {parameters ret : Nat} {child : Draft}
    (hproper : L.setting.Proper) (h : L.IsUnit unit parameters token place child ret) :
    (L.of child).Roomy (L.start unit parameters) := by
  have hassigned := assigned_assignSlots L.setting.resolution parameters (L.setting.held unit)
  have hheld : ∀ binding slot : Nat, child.slots[binding]? = some slot →
      ∃ b, L.setting.resolution.bindings[binding]? = some b ∧ b.owner = unit := by
    intro binding slot hslot
    have hsome := assignSlots_isSome L.setting.resolution parameters (L.setting.held unit) binding
    rw [← h.slots, hslot, Setting.held, hproper.frames, mem_getD_frames] at hsome
    exact hsome.1 rfl
  have hslots : ∀ binding slot : Nat, child.slots[binding]? = some slot →
      ∃ b, L.setting.resolution.bindings[binding]? = some b ∧ b.owner = unit ∧
        (b.parameter = some slot ∧ slot < parameters ∨
          b.parameter = none ∧ parameters ≤ slot ∧ slot < (L.start unit parameters).registers) := by
    intro binding slot hslot
    obtain ⟨b, hb, howner⟩ := hheld binding slot hslot
    have hcase := hassigned.slot binding slot (h.slots ▸ hslot)
    rw [hb, Option.getD_some] at hcase
    refine ⟨b, hb, howner, hcase.imp_left fun hparameter => ⟨hparameter, ?_⟩⟩
    exact h.fits binding b hb howner slot hparameter
  refine ⟨fun binding slot hslot => ?_, fun binding other slot hslot hother => ?_⟩
  · obtain ⟨b, -, -, ⟨-, hlt⟩ | ⟨-, -, hlt⟩⟩ := hslots binding slot hslot
    · exact Nat.lt_of_lt_of_le hlt hassigned.le
    · exact hlt
  · obtain ⟨b, hb, howner, hcase⟩ := hslots binding slot hslot
    obtain ⟨c, hc, howner', hcase'⟩ := hslots other slot hother
    -- a parameter has a register in front of those of the other bindings
    rcases hcase with ⟨hparameter, hlt⟩ | ⟨hnone, hle, -⟩
    · rcases hcase' with ⟨hparameter', -⟩ | ⟨-, hle, -⟩
      · exact hproper.separate binding other b c hb hc (howner.trans howner'.symm)
          (by rw [hparameter]; rfl) (hparameter.trans hparameter'.symm)
      · omega
    · rcases hcase' with ⟨-, hlt⟩ | ⟨hnone', -, -⟩
      · omega
      · refine hassigned.apart binding other slot (h.slots ▸ hslot) (h.slots ▸ hother) ?_ ?_
        · rw [hb]
          exact hnone
        · rw [hc]
          exact hnone'

/-! ## The code of an expression -/

/-- The code between two marks, with a value in a register that is new in between. -/
structure Gives (L : Layout) (s t : Mark) (r : Nat) : Prop extends L.Sits s t where
  le : s.registers ≤ r
  lt : r < t.registers

namespace Gives

variable {r : Nat}

theorem holds (h : L.Gives s t r) (hroomy : L.Roomy s) : L.Holds t r := hroomy.holds h.le h.lt

/-- More code behind a value leaves it where it is. -/
theorem trans_sits (h : L.Gives s m r) (h' : L.Sits m t) : L.Gives s t r :=
  ⟨h.toSits.trans h', h.le, Nat.lt_of_lt_of_le h.lt h'.registers_le⟩

theorem of_sits (h : L.Sits s m) (h' : L.Gives m t r) : L.Gives s t r :=
  ⟨h.trans h'.toSits, Nat.le_trans h.registers_le h'.le, h'.lt⟩

/-- An instruction puts its result into a new register. -/
theorem code (h : L.HasCode token ins s.fresh t) (hins : L.Admits s.fresh.next s.offset ins) :
    L.Gives s t s.registers := by
  have hsits := (Sits.fresh s).trans (.code h hins)
  exact ⟨hsits, Nat.le_refl _, h.2 ▸ Nat.lt_succ_self _⟩

end Gives

theorem Roomy.holds_fresh (h : L.Roomy s) : L.Holds s.fresh.next s.registers :=
  h.holds (Nat.le_refl _) (Nat.lt_succ_self _)

theorem Holds.fresh (h : L.Holds s r) : L.Holds s.fresh.next r := h.of_le (Nat.le_succ _)

theorem Holds.next (h : L.Holds s r) : L.Holds s.next r := h

theorem Holds.nest (h : L.Holds s r) (place : Nat) : L.Holds (s.nest place) r := h

/-- The values of two expressions are there for the instruction behind them. -/
theorem Gives.operands {m : Mark} {a b : Nat} (hleft : L.Gives s m a) (hroomy : L.Roomy s)
    (hright : L.Gives m t b) :
    L.Holds t.fresh.next t.registers ∧ L.Holds t.fresh.next a ∧ L.Holds t.fresh.next b := by
  have hroomy' := hroomy.of_le hleft.registers_le
  exact ⟨(hroomy'.of_le hright.registers_le).holds_fresh,
    ((hleft.holds hroomy).of_le hright.registers_le).fresh, (hright.holds hroomy').fresh⟩

-- which registers a single instruction of the walk below reads and writes
attribute [local simp] Instruction.results Instruction.operands Instruction.writes?

section Parts

variable {token : Token} {r : Nat} (hroomy : L.Roomy s)

include hroomy

theorem HasLoad.gives {value : Datum} (hvalue : L.Plain value) (h : L.HasLoad value token s t r) :
    L.Gives s t r := by
  obtain ⟨rfl, k, hk, hcode⟩ := h
  refine .code hcode ⟨?_, ⟨k, value, rfl, hk, hvalue⟩, nofun⟩
  simpa using hroomy.holds_fresh

theorem HasRead.gives (h : L.HasRead binding token s t r) : L.Gives s t r := by
  obtain ⟨rfl, hcode⟩ := h
  have hdest := hroomy.holds_fresh
  cases hslot : L.unit.slots[binding]? with
  | none =>
    rw [hslot] at hcode
    obtain ⟨place, hplace, hcode⟩ := hcode
    refine .code hcode ⟨?_, ⟨binding, place, rfl, hplace⟩, nofun⟩
    simpa using hdest
  | some slot =>
    rw [hslot] at hcode
    unfold HasReadFrom at hcode
    cases hescapes : L.escapes binding with
    | true =>
      rw [hescapes, if_pos rfl] at hcode
      refine .code hcode ⟨?_, ⟨binding, slot, rfl, hslot, hescapes⟩, nofun⟩
      simpa using hdest
    | false =>
      rw [hescapes, if_neg Bool.false_ne_true] at hcode
      refine .code hcode ⟨?_, trivial, nofun⟩
      simpa using
        ⟨hdest, (hroomy.holds_slot hslot hescapes).fresh⟩

theorem HasWrite.sits {source : Nat} (hsource : L.Holds s source)
    (h : L.HasWrite binding source token s t) : L.Sits s t := by
  unfold HasWrite at h
  cases hslot : L.unit.slots[binding]? with
  | none =>
    rw [hslot] at h
    obtain ⟨place, hplace, hcode⟩ := h
    refine .code hcode ⟨?_, ⟨binding, place, rfl, hplace⟩, nofun⟩
    simpa using hsource.next
  | some slot =>
    rw [hslot] at h
    change L.HasCode token (if L.escapes binding then _ else _) s t at h
    cases hescapes : L.escapes binding with
    | true =>
      rw [hescapes, if_pos rfl] at h
      refine .code h ⟨?_, ⟨binding, slot, rfl, hslot, hescapes⟩, nofun⟩
      simpa using hsource.next
    | false =>
      rw [hescapes, if_neg Bool.false_ne_true] at h
      refine .code h ⟨?_, trivial, nofun⟩
      simpa using
        ⟨(hroomy.holds_slot hslot hescapes).next, hsource.next⟩

theorem HasName.gives (h : L.HasName token s t r) : L.Gives s t r := by
  unfold HasName at h
  split at h
  · exact HasRead.gives hroomy h
  · obtain ⟨id, hid, hload⟩ := h
    refine HasLoad.gives hroomy ⟨by simp, fun number hnumber => ?_⟩ hload
    cases hnumber
    exact ⟨_, id, rfl, hid⟩
  · exact h.elim

end Parts

theorem plain_of_literal? {e : Expr} {value : Datum} (h : e.literal? = some value) : L.Plain value := by
  cases e with
  | number | string | boolean | empty =>
    cases h
    exact ⟨by simp, by simp⟩
  | _ => cases h

/-- A unit that is laid out is in order if its code keeps to its registers. -/
theorem HasUnit.inOrder {unit : CodeUnit} {parameters : Nat}
    {body : Layout → Mark → Mark → Nat → Prop}
    (hproper : L.setting.Proper)
    (hbody : ∀ s t r, body (L.of (L.units place)) s t r → (L.of (L.units place)).Roomy s → (L.of
      (L.units place)).Gives s t r) (h : L.HasUnit unit parameters token place body) :
    (L.units place).Links L.setting.resolution L.unit ∧ InOrder L.setting L.blocks L.units place := by
  obtain ⟨ret, hunit, hlinks, hcode⟩ := h
  have hroomy := roomy_start hproper hunit
  have hgives := hbody _ _ _ hcode hroomy
  have hchild : ∀ child ∈ (L.units place).block.children, _ := fun child hmem =>
    (hgives.children child hmem).resolve_left List.not_mem_nil
  refine ⟨hlinks, .intro (hunit.of _) hroomy hgives.registers_le (fun i ins hle hins => ?_)
    (hroomy.holds hgives.le hgives.lt) (fun child hmem => (hchild child hmem).1)
      fun child hmem => (hchild child hmem).2⟩
  exact hgives.admits i ins hle (Array.getElem?_eq_some_iff.1 hins).1 hins

mutual

/-- The code of an expression keeps to the registers of its unit. -/
theorem gives_of_hasExpr (e : Expr) {L : Layout} (hproper : L.setting.Proper)
    {tail : Bool} {s t : Mark} {r : Nat}
    (h : L.HasExpr e tail s t r) (hroomy : L.Roomy s) : L.Gives s t r := by
  match e with
  | .number _ _ | .string _ _ | .boolean _ _ | .empty _ =>
    exact HasLoad.gives hroomy ⟨by simp, by simp⟩ h
  | .name _ =>
    exact HasName.gives hroomy h
  | .negate _ operand =>
    obtain ⟨m, a, ha, rfl, hcode⟩ := h
    have hoperand := gives_of_hasExpr operand hproper ha hroomy
    have hroomy' := hroomy.of_le hoperand.registers_le
    refine .of_sits hoperand.toSits (.code hcode ⟨?_, trivial, nofun⟩)
    simpa using
      ⟨hroomy'.holds_fresh, (hoperand.holds hroomy).fresh⟩
  | .binary _ left right =>
    obtain ⟨op, -, m, a, ha, m', b, hb, rfl, hcode⟩ := h
    have hleft := gives_of_hasExpr left hproper ha hroomy
    have hright := gives_of_hasExpr right hproper hb (hroomy.of_le hleft.registers_le)
    refine .of_sits (hleft.toSits.trans hright.toSits) (.code hcode ⟨?_, trivial, nofun⟩)
    simpa using hleft.operands hroomy hright
  | .define token goal value =>
    obtain ⟨m, hvalue, htarget⟩ := h
    have hgives := gives_of_hasExpr value hproper hvalue hroomy
    exact hgives.trans_sits (sits_of_hasTarget goal hproper htarget
      (hroomy.of_le hgives.registers_le) (hgives.holds hroomy))
  | .access _ container key =>
    obtain ⟨m, a, ha, m', b, hb, rfl, hcode⟩ := h
    have hleft := gives_of_hasExpr container hproper ha hroomy
    have hright := gives_of_hasExpr key hproper hb (hroomy.of_le hleft.registers_le)
    refine .of_sits (hleft.toSits.trans hright.toSits) (.code hcode ⟨?_, trivial, nofun⟩)
    simpa using hleft.operands hroomy hright
  | .call _ callee inner =>
    obtain ⟨m, a, ha, m', args, hargs, rfl, hcode⟩ := h
    have hcallee := gives_of_hasExpr callee hproper ha hroomy
    have hroomy' := hroomy.of_le hcallee.registers_le
    obtain ⟨hsits, hholds⟩ :=
      sits_of_hasArguments inner hproper hargs hroomy'
    have hroomy'' := hroomy'.of_le hsits.registers_le
    refine .of_sits (hcallee.toSits.trans hsits) (.code hcode ⟨?_, trivial, nofun⟩)
    have hargs' : ∀ r ∈ args.map Int.ofNat, L.Holds m'.fresh.next r := by
      intro r hr
      obtain ⟨n, hn, rfl⟩ := List.mem_map.1 hr
      exact (hholds n hn).fresh
    simpa using
      ⟨hroomy''.holds_fresh, ((hcallee.holds hroomy).of_le hsits.registers_le).fresh,
        by simpa using hargs'⟩
  | .choose choice subject cases =>
    obtain ⟨m, a, ha, rfl, harms⟩ := h
    have hsubject := gives_of_hasExpr subject hproper ha hroomy
    have hroomy' := hroomy.of_le hsubject.registers_le
    have hsits := sits_of_hasArms cases hproper harms (hroomy'.of_le (Nat.le_succ _))
      ((hsubject.holds hroomy).of_le (Nat.le_succ _))
        (hroomy'.holds (Nat.le_refl _) (Nat.lt_succ_self _)) rfl
    refine ⟨hsubject.toSits.trans ((Sits.fresh m).trans hsits), hsubject.registers_le, ?_⟩
    exact Nat.lt_of_lt_of_le (Nat.lt_succ_self _) hsits.registers_le
  | .group token inner =>
    obtain ⟨m, result, hinner, hresult⟩ := h
    have hsequence := sits_of_hasSequence inner hproper hinner hroomy
    cases result with
    | some last =>
      obtain ⟨rfl, rfl⟩ := hresult
      exact hsequence.2 _ rfl
    | none =>
      exact .of_sits hsequence.1
        (HasLoad.gives (hroomy.of_le hsequence.1.registers_le) ⟨by simp, by simp⟩ hresult)
  | .list _ inner =>
    obtain ⟨rfl, m, hcode, helements⟩ := h
    have hnew : L.Gives s m s.registers := .code hcode ⟨by
      simpa using
        hroomy.holds_fresh, trivial, nofun⟩
    exact hnew.trans_sits (sits_of_hasElements inner hproper helements
      (hroomy.of_le hnew.registers_le) (hnew.holds hroomy))
  | .object _ inner =>
    obtain ⟨rfl, m, hcode, hentries⟩ := h
    have hnew : L.Gives s m s.registers := .code hcode ⟨by
      simpa using
        hroomy.holds_fresh, trivial, nofun⟩
    exact hnew.trans_sits (sits_of_hasEntries inner hproper hentries
      (hroomy.of_le hnew.registers_le) (hnew.holds hroomy))
  | .function _ _ _ body =>
    obtain ⟨place, hunit, k, hk, rfl, hcode⟩ := h
    obtain ⟨hlinks, horder⟩ := HasUnit.inOrder hproper (fun _ _ _ =>
      gives_of_hasExpr (L := L.of (L.units place)) body hproper) hunit
    have hroomy' : L.Roomy (s.nest place) := hroomy.of_le (Nat.le_refl _)
    have hdest : L.Holds (s.nest place).fresh.next s.registers := hroomy'.holds_fresh
    refine .of_sits (.nest s hlinks horder) (.code hcode ⟨?_, ⟨k, place, rfl, hk⟩, nofun⟩)
    simpa using hdest

theorem sits_of_hasTarget (goal : Expr) {L : Layout} (hproper : L.setting.Proper)
    {token : Token} {source : Nat} {s t : Mark}
    (h : L.HasTarget token source goal s t) (hroomy : L.Roomy s) (hsource : L.Holds s source) :
    L.Sits s t := by
  match goal with
  | .name _ =>
    obtain ⟨binding, -, hwrite⟩ := h
    exact HasWrite.sits hroomy hsource hwrite
  | .empty _ =>
    exact h ▸ .refl _
  | .access _ container key =>
    obtain ⟨m, a, ha, m', b, hb, hcode⟩ := h
    have hleft := gives_of_hasExpr container hproper ha hroomy
    have hroomy' := hroomy.of_le hleft.registers_le
    have hright := gives_of_hasExpr key hproper hb hroomy'
    refine (hleft.toSits.trans hright.toSits).trans (.code hcode ⟨?_, trivial, nofun⟩)
    simpa using
      ⟨((hleft.holds hroomy).of_le hright.registers_le).next, (hright.holds hroomy').next,
        ((hsource.of_le hleft.registers_le).of_le hright.registers_le).next⟩
  | .number .. | .string .. | .boolean .. | .negate .. | .binary .. | .define .. | .call ..
  | .choose .. | .group .. | .list .. | .object .. | .function .. =>
    exact h.elim

theorem sits_of_hasSequence (items : List Expr) {L : Layout} (hproper : L.setting.Proper)
    {tail : Bool} {s t : Mark} {result : Option Nat}
    (h : L.HasSequence items tail s t result) (hroomy : L.Roomy s) :
    L.Sits s t ∧ ∀ r, result = some r → L.Gives s t r := by
  match items with
  | [] =>
    obtain ⟨rfl, rfl⟩ := h
    exact ⟨.refl _, nofun⟩
  | [e] =>
    obtain ⟨r, hr, rfl⟩ := h
    have hgives := gives_of_hasExpr e hproper hr hroomy
    refine ⟨hgives.toSits, fun _ hresult => ?_⟩
    cases hresult
    exact hgives
  | e :: next :: rest =>
    obtain ⟨m, r, hr, hrest⟩ := h
    have hgives := gives_of_hasExpr e hproper hr hroomy
    obtain ⟨hsits, hresult⟩ := sits_of_hasSequence (next :: rest) hproper hrest
      (hroomy.of_le hgives.registers_le)
    exact ⟨hgives.toSits.trans hsits, fun r hr => .of_sits hgives.toSits (hresult r hr)⟩

theorem sits_of_hasArguments (items : List Expr) {L : Layout} (hproper : L.setting.Proper)
    {s t : Mark} {args : List Nat}
    (h : L.HasArguments items s t args) (hroomy : L.Roomy s) :
    L.Sits s t ∧ ∀ r ∈ args, L.Holds t r := by
  match items with
  | [] =>
    obtain ⟨rfl, rfl⟩ := h
    exact ⟨.refl _, nofun⟩
  | e :: rest =>
    obtain ⟨m, r, hr, others, hothers, rfl⟩ := h
    have hgives := gives_of_hasExpr e hproper hr hroomy
    obtain ⟨hsits, hholds⟩ := sits_of_hasArguments rest hproper hothers
      (hroomy.of_le hgives.registers_le)
    refine ⟨hgives.toSits.trans hsits, fun r' hr' => ?_⟩
    rcases List.mem_cons.1 hr' with rfl | hr'
    · exact (hgives.holds hroomy).of_le hsits.registers_le
    · exact hholds r' hr'

theorem sits_of_hasElements (items : List Expr) {L : Layout} (hproper : L.setting.Proper)
    {dest index : Nat} {s t : Mark}
    (h : L.HasElements dest index items s t) (hroomy : L.Roomy s) (hdest : L.Holds s dest) :
    L.Sits s t := by
  match items with
  | [] =>
    exact h ▸ .refl _
  | e :: rest =>
    obtain ⟨m, c, hc, m', b, hb, m'', hcode, hrest⟩ := h
    have hvalue := gives_of_hasExpr e hproper hc hroomy
    have hroomy' := hroomy.of_le hvalue.registers_le
    have hkey := HasLoad.gives hroomy' ⟨by simp, by simp⟩ hb
    have hdest' := (hdest.of_le hvalue.registers_le).of_le hkey.registers_le
    have hset : L.Sits m' m'' := by
      refine .code hcode ⟨?_, trivial, nofun⟩
      simpa using
        ⟨hdest'.next, (hkey.holds hroomy').next,
          ((hvalue.holds hroomy).of_le hkey.registers_le).next⟩
    have hbefore := (hvalue.toSits.trans hkey.toSits).trans hset
    exact hbefore.trans (sits_of_hasElements rest hproper hrest
      (hroomy.of_le hbefore.registers_le) (hdest.of_le hbefore.registers_le))

theorem sits_of_hasEntries (items : List Entry) {L : Layout} (hproper : L.setting.Proper)
    {dest : Nat} {s t : Mark}
    (h : L.HasEntries dest items s t) (hroomy : L.Roomy s) (hdest : L.Holds s dest) :
    L.Sits s t := by
  match items with
  | [] =>
    exact h ▸ .refl _
  | .mk key value :: rest =>
    obtain ⟨m, b, hb, m', c, hc, m'', hcode, hrest⟩ := h
    have hkey := gives_of_hasExpr key hproper hb hroomy
    have hroomy' := hroomy.of_le hkey.registers_le
    have hvalue := gives_of_hasExpr value hproper hc hroomy'
    have hdest' := (hdest.of_le hkey.registers_le).of_le hvalue.registers_le
    have hset : L.Sits m' m'' := by
      refine .code hcode ⟨?_, trivial, nofun⟩
      simpa using
        ⟨hdest'.next, ((hkey.holds hroomy).of_le hvalue.registers_le).next,
          (hvalue.holds hroomy').next⟩
    have hbefore := (hkey.toSits.trans hvalue.toSits).trans hset
    exact hbefore.trans (sits_of_hasEntries rest hproper hrest
      (hroomy.of_le hbefore.registers_le) (hdest.of_le hbefore.registers_le))

theorem sits_of_hasArms (items : List Arm) {L : Layout} (hproper : L.setting.Proper)
    {subject dest : Nat} {tail : Bool} {choice : Token}
    {target : Nat} {s t : Mark} (h : L.HasArms subject dest tail choice target items s t)
    (hroomy : L.Roomy s) (hsubject : L.Holds s subject) (hdest : L.Holds s dest)
    (htarget : target = t.offset) : L.Sits s t := by
  match items with
  | [] =>
    refine .code h ⟨?_, trivial, nofun⟩
    simpa using hsubject.next
  | .otherwise _ body :: _ =>
    unfold HasArms at h
    cases hliteral : body.literal? with
    | some value =>
      rw [hliteral] at h
      obtain ⟨k, hk, m, hload, hjump⟩ := h
      have hlast : L.Sits m t := by
        refine .code hjump ⟨?_, trivial, fun _ => ⟨target, rfl, ?_⟩⟩
        · simp
        · rw [htarget, hjump.2]
          exact ⟨Nat.lt_succ_self _, Nat.le_refl _⟩
      refine .cons hload hlast ⟨?_, ⟨k, value, rfl, hk, plain_of_literal? hliteral⟩, nofun⟩
      simpa using
        hdest.next.of_le (hload.2 ▸ hlast.registers_le)
    | none =>
      rw [hliteral] at h
      obtain ⟨place, hunit, k, hk, hcode⟩ := h
      obtain ⟨hlinks, horder⟩ := HasUnit.inOrder hproper (fun _ _ _ =>
        gives_of_hasExpr (L := L.of (L.units place)) body hproper) hunit
      refine (Sits.nest s hlinks horder).trans
        (.code hcode ⟨?_, ⟨k, place, rfl, hk⟩, fun _ => ⟨target, rfl, ?_⟩⟩)
      · simpa using
          (hdest.nest place).next
      · rw [htarget, hcode.2]
        exact ⟨Nat.lt_succ_self _, Nat.le_refl _⟩
  | .case _ pattern body :: rest =>
    obtain ⟨m, b, hb, h⟩ := h
    have hpattern := gives_of_hasExpr pattern hproper hb hroomy
    have hle := hpattern.registers_le
    cases hliteral : body.literal? with
    | some value =>
      rw [hliteral] at h
      obtain ⟨k, hk, m', hcode, hrest⟩ := h
      have hnext : m'.registers = m.registers := by rw [hcode.2]; rfl
      have hsits := sits_of_hasArms rest hproper hrest (hroomy.of_le (hnext ▸ hle))
        (hsubject.of_le (hnext ▸ hle)) (hdest.of_le (hnext ▸ hle)) htarget
      have hle' : m.registers ≤ t.registers := hnext ▸ hsits.registers_le
      refine hpattern.toSits.trans (.cons hcode hsits
        ⟨?_, ⟨k, value, rfl, hk, plain_of_literal? hliteral⟩, fun _ => ⟨target, rfl, ?_⟩⟩)
      · simpa using
          ⟨(hdest.of_le hle).of_le hle', (hsubject.of_le hle).of_le hle',
            (hpattern.holds hroomy).of_le hle'⟩
      · rw [htarget]
        exact ⟨Nat.lt_of_lt_of_le (hcode.2 ▸ Nat.lt_succ_self _) hsits.offset_le, Nat.le_refl _⟩
    | none =>
      rw [hliteral] at h
      obtain ⟨place, hunit, k, hk, m', hcode, hrest⟩ := h
      obtain ⟨hlinks, horder⟩ := HasUnit.inOrder hproper (fun _ _ _ =>
        gives_of_hasExpr (L := L.of (L.units place)) body hproper) hunit
      have hnext : m'.registers = m.registers := by rw [hcode.2]; rfl
      have hsits := sits_of_hasArms rest hproper hrest (hroomy.of_le (hnext ▸ hle))
        (hsubject.of_le (hnext ▸ hle)) (hdest.of_le (hnext ▸ hle)) htarget
      have hle' : m.registers ≤ t.registers := hnext ▸ hsits.registers_le
      refine hpattern.toSits.trans ((Sits.nest m hlinks horder).trans (.cons hcode hsits
        ⟨?_, ⟨k, place, rfl, hk⟩, fun _ => ⟨target, rfl, ?_⟩⟩))
      · simpa using
          ⟨(hdest.of_le hle).of_le hle', (hsubject.of_le hle).of_le hle',
            (hpattern.holds hroomy).of_le hle'⟩
      · rw [htarget]
        exact ⟨Nat.lt_of_lt_of_le (hcode.2 ▸ Nat.lt_succ_self _) hsits.offset_le, Nat.le_refl _⟩

end

end Layout

end Compile

end Inkwell
