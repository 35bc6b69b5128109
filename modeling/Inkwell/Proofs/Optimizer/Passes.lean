import Mathlib
import Inkwell.Optimizer.Basic
import Inkwell.Proofs.Code.Checked
import Inkwell.Proofs.Code.Tidy
import Inkwell.Proofs.Optimizer.Flows

/-!
# What passes keep

A statement about blocks that a pass keeps, one block at a time, holds of every program that it
holds of before the pass. Two statements are kept by every pass: that a block is tidy, and that it
has calls in tail position only at its end.

Three of the passes exchange single instructions for others that are not in tail position, and add
constants; what they do to a block is described once, by `Block.Revises`.

No pass changes which cells a block takes or which blocks are nested in it (`IsPass.nesting`), so the
tree of a program keeps its shape.
-/

namespace Inkwell

open List Option Block

variable {b b' : Block} {d value : Datum} {ins : Instruction} {p : Program} {changed : Bool}
  {P : Block → Prop} {i : Nat} {s s' : Block × Bool}

/-- A statement that every step keeps holds behind a list of steps. -/
theorem foldlM_keeps_mem {σ α : Type} {P : σ → Prop} {step : σ → α → Option σ} {l : List α}
    (hstep : ∀ s a s', a ∈ l → P s → step s a = some s' → P s') (s s' : σ) (hs : P s)
    (h : l.foldlM step s = some s') : P s' := by
  induction l generalizing s with
  | nil =>
    cases h
    exact hs
  | cons a rest ih =>
    rw [foldlM_cons] at h
    obtain ⟨next, hnext, hrest⟩ := bind_eq_some_iff.1 h
    exact ih (fun s a s' ha => hstep s a s' (mem_cons_of_mem _ ha)) next
      (hstep s a next mem_cons_self hs hnext) hrest

theorem foldlM_keeps {σ α : Type} {P : σ → Prop} {step : σ → α → Option σ}
    (hstep : ∀ s a s', P s → step s a = some s' → P s') (l : List α) (s s' : σ) (hs : P s)
    (h : l.foldlM step s = some s') : P s' :=
  foldlM_keeps_mem (fun s a s' _ => hstep s a s') s s' hs h

/-- The results of an operation on the elements of a list stand where the elements do. -/
theorem getElem?_of_mapM {α β : Type} {f : α → Option β} :
    ∀ {l : List α} {l' : List β}, l.mapM f = some l' →
      l'.length = l.length ∧
        ∀ (j : Nat) (b : β), l'[j]? = some b → ∃ a, l[j]? = some a ∧ f a = some b
  | [], l', h => by
    cases h
    exact ⟨rfl, nofun⟩
  | a :: rest, l', h => by
    rw [mapM_cons] at h
    obtain ⟨first, hfirst, h⟩ := bind_eq_some_iff.1 h
    obtain ⟨others, hothers, h⟩ := bind_eq_some_iff.1 h
    cases h
    obtain ⟨hlength, hget⟩ := getElem?_of_mapM hothers
    refine ⟨congrArg Nat.succ hlength, fun j b hb => ?_⟩
    cases j with
    | zero =>
      cases hb
      exact ⟨a, rfl, hfirst⟩
    | succ j => exact hget j b hb

namespace Pass

/-- Whatever a pass makes of blocks that `P` holds of is such a block. -/
def Keeps (pass : Pass) (P : Block → Prop) : Prop :=
  ∀ (p : Program) (b b' : Block) (changed : Bool), (∀ b ∈ p.blocks, P b) → P b →
    pass.run p b = some (b', changed) → P b'

theorem holds_block (hdefault : P default) (hp : ∀ b ∈ p.blocks, P b) (place : Nat) :
    P (p.block place) := by
  unfold Program.block
  cases hb : p.blocks[place]? with
  | none => exact hdefault
  | some b => exact hp b (Array.mem_of_getElem? hb)

/-- What the improvement of every single block keeps holds after a pass. -/
theorem result?_keeps {pass : Pass} {P : Program → Prop}
    (hrun : ∀ (p : Program) (place : Nat) (b : Block) (changed : Bool), P p →
      pass.run p (p.block place) = some (b, changed) → P ⟨p.blocks.setIfInBounds place b⟩)
    {p q : Program} (hp : P p) (hq : pass.result? p = some q) : P q := by
  have himprove : ∀ (s : Program × Bool) (place : Nat) (s' : Program × Bool), P s.1 →
      pass.improve s place = some s' → P s'.1 := by
    intro s place s' hs hs'
    obtain ⟨⟨improved, differs⟩, himproved, heq⟩ := bind_eq_some_iff.1 hs'
    cases heq
    exact hrun s.1 place improved differs hs himproved
  unfold Pass.result? at hq
  split at hq
  · rename_i hfold
    split at hq
    · cases hq
      exact foldlM_keeps himprove p.places (p, false) _ hp hfold
    · cases hq
  · cases hq

theorem Keeps.set {pass : Pass} (h : pass.Keeps P) (hdefault : P default) {place : Nat}
    {improved : Block} (hp : ∀ b ∈ p.blocks, P b)
    (hrun : pass.run p (p.block place) = some (improved, changed)) :
    ∀ b ∈ p.blocks.setIfInBounds place improved, P b := by
  intro b hb
  rcases Array.mem_or_eq_of_mem_setIfInBounds hb with hb | rfl
  · exact hp b hb
  · exact h p _ _ _ hp (holds_block hdefault hp place) hrun

theorem Keeps.result? {pass : Pass} (h : pass.Keeps P) (hdefault : P default) {q : Program}
    (hp : ∀ b ∈ p.blocks, P b) (hq : pass.result? p = some q) :
    ∀ b ∈ q.blocks, P b :=
  @result?_keeps pass (fun p => ∀ b ∈ p.blocks, P b) (fun _ _ _ _ hp hrun => h.set hdefault hp hrun)
    p q hp hq

end Pass

/-! ## Nesting -/

/-- A block takes the same cells as another, and the same blocks are nested in it. -/
structure Block.SameNesting (b' b : Block) : Prop where
  binds : b'.binds = b.binds
  children : b'.children = b.children

theorem Block.SameNesting.refl (b : Block) : b.SameNesting b := ⟨rfl, rfl⟩

theorem Block.SameNesting.trans {b'' : Block} (h : b''.SameNesting b') (h' : b'.SameNesting b) :
    b''.SameNesting b :=
  ⟨h.binds.trans h'.binds, h.children.trans h'.children⟩

theorem Block.SameNesting.addConstant (b : Block) (hd : ∀ place, d ≠ .block place) :
    (b.addConstant d).2.SameNesting b := by
  unfold Block.addConstant
  split
  · exact refl b
  · refine ⟨rfl, (Compile.children_push b d).trans ?_⟩
    cases d with
    | block place => exact absurd rfl (hd place)
    | _ => exact append_nil _

theorem Datum.not_block_of_isBare (h : d.isBare = true) (place : Nat) :
    d ≠ .block place := by
  rintro rfl
  cases h

/-! ## Revisions -/

namespace Block

variable {b : Block}

@[simp] theorem code_addConstant (b : Block) (d : Datum) : (b.addConstant d).2.code = b.code := by
  unfold addConstant
  split <;> rfl

@[simp] theorem params_addConstant (b : Block) (d : Datum) : (b.addConstant d).2.params = b.params := by
  unfold addConstant
  split <;> rfl

@[simp] theorem slots_addConstant (b : Block) (d : Datum) : (b.addConstant d).2.slots = b.slots := by
  unfold addConstant
  split <;> rfl

@[simp] theorem ret_addConstant (b : Block) (d : Datum) : (b.addConstant d).2.ret = b.ret := by
  unfold addConstant
  split <;> rfl

/-- The constant that is added is found at the place that is given for it. -/
theorem constant?_addConstant (b : Block) (d : Datum) :
    (b.addConstant d).2.constant? (b.addConstant d).1 = some d := by
  unfold addConstant
  split
  · rename_i place hplace
    unfold sharedConstant? at hplace
    split at hplace
    · obtain ⟨hlt, hequal, -⟩ := Array.findIdx?_eq_some_iff_getElem.1 hplace
      rw [constant?_natCast, Array.getElem?_eq_getElem hlt, eq_of_beq hequal]
    · cases hplace
  · rw [constant?_natCast, Array.getElem?_push_size]

/-- No constant moves when another is added. -/
theorem constant?_of_addConstant {k : Int} (d : Datum) (h : b.constant? k = some value) :
    (b.addConstant d).2.constant? k = some value := by
  unfold addConstant
  split
  · exact h
  · unfold constant? at h ⊢
    split at h
    · cases h
    · rename_i hk
      rw [if_neg hk, Array.getElem?_push_lt (Array.getElem?_eq_some_iff.1 h).1]
      exact congrArg some (Array.getElem?_eq_some_iff.1 h).2

/-- A constant that is found behind the addition of one was there or is the new one. -/
theorem constant?_cases {k : Int} (h : (b.addConstant d).2.constant? k = some value) :
    b.constant? k = some value ∨ value = d := by
  unfold addConstant at h
  split at h
  · exact .inl h
  · unfold constant? at h ⊢
    split at h
    · cases h
    · rename_i hk
      rw [if_neg hk]
      rw [Array.getElem?_push] at h
      split at h
      · exact .inr (Option.some.inj h).symm
      · exact .inl h

theorem mem_addConstant {c : Datum} (h : c ∈ (b.addConstant d).2.constants) :
    c ∈ b.constants ∨ c = d := by
  unfold addConstant at h
  split at h
  · exact .inl h
  · exact Array.mem_push.1 h

theorem Tidy.addConstant (h : b.Tidy) (hd : d.object? = none) :
    (b.addConstant d).2.Tidy where
  constants c hc := by
    rcases mem_addConstant hc with hc | rfl
    · exact h.constants c hc
    · exact hd
  params_nonneg := by simpa using h.params_nonneg
  params_le := by simpa using h.params_le

end Block

/-- An instruction that computes, copies or loads a value, or does nothing. -/
def Instruction.IsStraight (ins : Instruction) : Prop :=
  match ins.op with
  | .nop | .move | .loadConstant | .makeComposite | .setElement | .getElement | .negate
  | .operate _ => True
  | _ => False

namespace Instruction.IsStraight

variable {ins : Instruction}

theorem of_isPure (h : ins.op.isPure = true) : ins.IsStraight := by
  unfold IsStraight
  cases hop : ins.op <;> rw [hop] at h <;> trivial

theorem isTail_eq (h : ins.IsStraight) : ins.isTail = false := by
  unfold IsStraight at h
  unfold Instruction.isTail
  cases hop : ins.op <;> rw [hop] at h <;> first | rfl | exact h.elim

theorem writes?_cases (h : ins.IsStraight) : ins.writes? = none ∨ ins.writes? = some ins.dest := by
  unfold IsStraight at h
  unfold Instruction.writes?
  cases hop : ins.op <;> rw [hop] at h <;> first | exact h.elim | exact .inl rfl | exact .inr rfl

theorem isBranch_eq (h : ins.IsStraight) : ins.op.isBranch = false := by
  unfold IsStraight at h
  cases hop : ins.op <;> rw [hop] at h <;> first | exact h.elim | rfl

end Instruction.IsStraight

/-- An instruction may take the place of another: it goes straight on, and writes the register that
the other writes, if any. -/
structure Instruction.Eases (ins old : Instruction) : Prop where
  straight : ins.IsStraight
  writes : ins.writes? = none ∨ ins.writes? = old.writes?
  position : ins.position = old.position

/-- An instruction with the same result as one that copies or computes. -/
theorem Instruction.Eases.of_dest {old : Instruction} (hstraight : ins.IsStraight)
    (hdest : ins.dest = old.dest) (hold : old.op = .move ∨ old.op.isPure = true)
    (hposition : ins.position = old.position) : ins.Eases old := by
  refine ⟨hstraight, hstraight.writes?_cases.imp_right fun hwrites => ?_, hposition⟩
  rw [hwrites, hdest]
  unfold Instruction.writes?
  rcases hold with hop | hop
  · rw [hop]
  · cases hop' : old.op <;> rw [hop'] at hop <;> first | rfl | cases hop

/-- An instruction that loads a constant. -/
def Instruction.IsLoad (ins : Instruction) : Prop := ins.op = .loadConstant ∨ ins.op = .constantIfEqual

/-- All constants that a block loads are there. -/
def Block.Loadable (b : Block) : Prop :=
  ∀ (i : Nat) ins, b.code[i]? = some ins → ins.IsLoad → (b.constant? ins.k).isSome = true

/-- A block differs from another in single instructions, and may have more constants. -/
structure Block.Revises (b' b : Block) : Prop where
  id : b'.id = b.id
  name : b'.name = b.name
  params : b'.params = b.params
  slots : b'.slots = b.slots
  ret : b'.ret = b.ret
  nesting : b'.SameNesting b
  kept : ∀ k value, b.constant? k = some value → b'.constant? k = some value
  fresh : ∀ k value, b'.constant? k = some value → b.constant? k = some value ∨ value.isBare = true
  loads : b.Loadable → b'.Loadable
  size : b'.code.size = b.code.size
  code : ∀ (i : Nat) (ins : Instruction), b'.code[i]? = some ins →
    b.code[i]? = some ins ∨ ∃ old, b.code[i]? = some old ∧ ins.Eases old

namespace Block.Revises

variable {b b' b'' : Block}

theorem refl (b : Block) : b.Revises b :=
  ⟨rfl, rfl, rfl, rfl, rfl, .refl b, fun _ _ h => h, fun _ _ h => .inl h, fun h => h, rfl,
    fun _ _ hins => .inl hins⟩

theorem trans (h : b''.Revises b') (h' : b'.Revises b) : b''.Revises b where
  id := h.id.trans h'.id
  name := h.name.trans h'.name
  params := h.params.trans h'.params
  slots := h.slots.trans h'.slots
  ret := h.ret.trans h'.ret
  nesting := h.nesting.trans h'.nesting
  kept k value hvalue := h.kept k value (h'.kept k value hvalue)
  fresh k value hvalue := (h.fresh k value hvalue).elim (h'.fresh k value) .inr
  loads hb := h.loads (h'.loads hb)
  size := h.size.trans h'.size
  code i ins hins := by
    rcases h.code i ins hins with hins | ⟨between, hbetween, heases⟩
    · exact h'.code i ins hins
    · rcases h'.code i between hbetween with hold | ⟨old, hold, heases'⟩
      · exact .inr ⟨between, hold, heases⟩
      · refine .inr ⟨old, hold, heases.straight, heases.writes.elim .inl fun hsame => ?_,
          heases.position.trans heases'.position⟩
        rw [hsame]
        exact heases'.writes

theorem setInstruction {old : Instruction} (hold : b.code[i]? = some old) (hins : ins.Eases old)
    (hload : ins.IsLoad → (b.constant? ins.k).isSome = true) :
    (b.setInstruction i ins).Revises b := by
  have hcode : ∀ (j : Nat) (other : Instruction), (b.setInstruction i ins).code[j]? = some other →
      b.code[j]? = some other ∨ i = j ∧ other = ins := by
    intro j other hother
    change (b.code.setIfInBounds i ins)[j]? = _ at hother
    rw [Array.getElem?_setIfInBounds] at hother
    split at hother
    · rename_i hj
      split at hother
      · cases hother
        exact .inr ⟨hj, rfl⟩
      · cases hother
    · exact .inl hother
  refine ⟨rfl, rfl, rfl, rfl, rfl, ⟨rfl, rfl⟩, fun _ _ h => h, fun _ _ h => .inl h,
    fun hb j other hother => ?_, Array.size_setIfInBounds, fun j other hother => ?_⟩
  · rcases hcode j other hother with hother | ⟨-, rfl⟩
    · exact hb j other hother
    · exact hload
  · rcases hcode j other hother with hother | ⟨rfl, rfl⟩
    · exact .inl hother
    · exact .inr ⟨old, hold, hins⟩

theorem addConstant (b : Block) (hd : d.isBare = true) :
    (b.addConstant d).2.Revises b where
  id := by unfold Block.addConstant; split <;> rfl
  name := by unfold Block.addConstant; split <;> rfl
  params := b.params_addConstant d
  slots := b.slots_addConstant d
  ret := b.ret_addConstant d
  nesting := .addConstant b (Datum.not_block_of_isBare hd)
  kept _ _ hvalue := constant?_of_addConstant d hvalue
  fresh k value hvalue := by
    rcases constant?_cases hvalue with hold | rfl
    · exact .inl hold
    · exact .inr hd
  loads hb i ins hins hload := by
    rw [code_addConstant] at hins
    obtain ⟨value, hvalue⟩ := isSome_iff_exists.1 (hb i ins hins hload)
    rw [constant?_of_addConstant d hvalue]
    rfl
  size := by rw [code_addConstant]
  code _ _ hins := .inl (by rwa [code_addConstant] at hins)

theorem tidy (h : b'.Revises b) (hb : b.Tidy) : b'.Tidy where
  constants d hd := by
    obtain ⟨k, hk⟩ := Array.mem_iff_getElem?.1 hd
    rcases h.fresh k d (by rwa [constant?_natCast]) with hold | hbare
    · rw [constant?_natCast] at hold
      exact hb.constants d (Array.mem_of_getElem? hold)
    · exact Datum.object?_of_isBare hbare
  params_nonneg := h.params ▸ hb.params_nonneg
  params_le := h.params ▸ h.slots ▸ hb.params_le

theorem tailSafe (h : b'.Revises b) (hb : b.TailSafe) : b'.TailSafe := by
  intro i ins hins htail
  rw [h.ret, h.slots, h.size]
  rcases h.code i ins hins with hins | ⟨_, _, heases⟩
  · exact hb i ins hins htail
  · rw [heases.straight.isTail_eq] at htail
    cases htail

end Block.Revises

/-- A pass that only revises blocks. -/
def Pass.Revises (pass : Pass) : Prop :=
  ∀ (p : Program) (b b' : Block) (changed : Bool), pass.run p b = some (b', changed) → b'.Revises b

/-- A list of steps that revise a block revises it. -/
theorem foldlM_revises {step : Block × Bool → Nat → Option (Block × Bool)}
    (hstep : ∀ (s : Block × Bool) (i : Nat) (s' : Block × Bool),
      step s i = some s' → s'.1.Revises s.1)
    (places : List Nat) (s s' : Block × Bool) (h : places.foldlM step s = some s') :
    s'.1.Revises s.1 :=
  foldlM_keeps (fun t i t' ht ht' => (hstep t i t' ht').trans ht) places s s' (.refl s.1) h

/-! ## Folding -/

namespace Folding

variable {f : Flow}

theorem revises_replaceByLoad (hins : b.code[i]? = some ins) (hop : ins.op.isPure = true)
    (hvalue : value.isBare = true) :
    (replaceByLoad b i ins value).Revises b := by
  have hold : (b.addConstant value).2.code[i]? = some ins := by rwa [code_addConstant]
  have heases : Instruction.Eases
      { op := .loadConstant, dest := ins.dest, k := (b.addConstant value).1, position := ins.position }
      ins := .of_dest trivial rfl (.inr hop) rfl
  refine (Block.Revises.setInstruction hold heases fun _ => ?_).trans (.addConstant b hvalue)
  rw [constant?_addConstant b value]
  rfl

/-- A register surely holds a constant that an operation may be folded with: if it is a string, nothing
else reads it. -/
def Has (f : Flow) (b : Block) (i : Nat) (r : Int) (x : Datum) : Prop :=
  (∃ k, f.constantAt b r i = some (some (x, k))) ∧ (x.isString = true → f.readCount r = 1)

/-- What an operation at `i` gives for the constants in its operands. -/
def Computes (f : Flow) (b : Block) (i : Nat) (ins : Instruction) (result : Datum) : Prop :=
  ∃ x, Has f b i ins.a x ∧ (ins.op = .negate ∧ x.negate = .ok result ∨
    ∃ op y, ins.op = .operate op ∧ Has f b i ins.b y ∧ op.apply x y = .ok result)

theorem has_of_operand {r : Int} {x : Datum} (h : operand f b r i = some (some x)) :
    Has f b i r x := by
  unfold operand at h
  obtain ⟨found, hfound, h⟩ := bind_eq_some_iff.1 h
  cases found with
  | none => cases h
  | some found =>
    obtain ⟨value, k⟩ := found
    have hvalue := Option.some.inj h
    split at hvalue
    · cases hvalue
    · rename_i hfree
      cases hvalue
      exact ⟨⟨k, hfound⟩, fun hs => by simpa [hs] using hfree⟩

/-- A step leaves the block as it is, loads a constant in place of a copy of it, or loads the result of
an operation. -/
theorem instruction_cases (h : instruction f s i = some s') :
    s'.1 = s.1 ∨ ∃ ins, s.1.code[i]? = some ins ∧
      ((ins.op = .move ∧ ∃ value k, f.constantAt s.1 ins.a i = some (some (value, k)) ∧
          value.isString = false ∧ s'.1 = s.1.setInstruction i
            { op := .loadConstant, dest := ins.dest, k, position := ins.position }) ∨
        ∃ result, Computes f s.1 i ins result ∧ s'.1 = replaceByLoad s.1 i ins result) := by
  obtain ⟨b, changed⟩ := s
  unfold instruction at h
  obtain ⟨ins, hins, h⟩ := bind_eq_some_iff.1 h
  split at h
  · rename_i hop
    obtain ⟨found, hfound, h⟩ := bind_eq_some_iff.1 h
    cases found with
    | none => cases h; exact .inl rfl
    | some found =>
      obtain ⟨value, k⟩ := found
      dsimp only at h
      split at h
      · cases h; exact .inl rfl
      · rename_i hs
        cases h
        exact .inr ⟨ins, hins, .inl ⟨hop, value, k, hfound, Bool.eq_false_iff.2 hs, rfl⟩⟩
  · rename_i hop
    obtain ⟨found, hfound, h⟩ := bind_eq_some_iff.1 h
    cases found with
    | none => cases h; exact .inl rfl
    | some found =>
      obtain ⟨value, k⟩ := found
      dsimp only at h
      split at h
      · rename_i result hresult
        cases h
        refine .inr ⟨ins, hins, .inr ⟨result, ⟨value, ⟨⟨k, hfound⟩, fun hs => ?_⟩,
          .inl ⟨hop, hresult⟩⟩, rfl⟩⟩
        cases value with
        | string t => cases hresult
        | _ => cases hs
      · cases h; exact .inl rfl
  · rename_i op hop
    obtain ⟨first, hfirst, h⟩ := bind_eq_some_iff.1 h
    cases first with
    | none => cases h; exact .inl rfl
    | some x =>
      obtain ⟨second, hsecond, h⟩ := bind_eq_some_iff.1 h
      cases second with
      | none => cases h; exact .inl rfl
      | some y =>
        dsimp only at h
        split at h
        · rename_i result hresult
          cases h
          exact .inr ⟨ins, hins, .inr ⟨result, ⟨x, has_of_operand hfirst,
            .inr ⟨op, y, hop, has_of_operand hsecond, hresult⟩⟩, rfl⟩⟩
        · cases h; exact .inl rfl
  · cases h; exact .inl rfl

theorem Computes.isBare {result : Datum} (h : Computes f b i ins result) : ins.op.isPure = true ∧
    result.isBare = true := by
  obtain ⟨x, -, ⟨hop, hresult⟩ | ⟨op, y, hop, -, hresult⟩⟩ := h
  · exact ⟨by rw [hop]; rfl, Datum.isBare_negate hresult⟩
  · exact ⟨by rw [hop]; rfl, Operator.isBare_apply hresult⟩

theorem revises_instruction (f : Flow) (s : Block × Bool) (i : Nat) (s' : Block × Bool)
    (h : instruction f s i = some s') : s'.1.Revises s.1 := by
  rcases instruction_cases h with hsame | ⟨ins, hins, ⟨hop, value, k, hfound, -, hb⟩ |
    ⟨result, hcomputes, hb⟩⟩
  · rw [hsame]
    exact .refl _
  · rw [hb]
    refine .setInstruction hins (.of_dest trivial rfl (.inl hop) rfl) fun _ => ?_
    obtain ⟨⟨_, _, hloads⟩, -⟩ := Flow.constantAt_eq_some hfound
    rw [hloads.constant]
    rfl
  · rw [hb]
    exact revises_replaceByLoad hins hcomputes.isBare.1 hcomputes.isBare.2

theorem revises : pass.Revises := fun _ b b' changed h =>
  foldlM_revises (revises_instruction _) _ (b, false) (b', changed) h

end Folding

/-! ## Sharing -/

namespace Sharing

/-- A step leaves the block as it is, or exchanges the operands of an operation. -/
theorem readSources_cases (f : Flow) (s : Block × Bool) (i : Nat) :
    (readSources f s i).1 = s.1 ∨ ∃ ins, s.1.code[i]? = some ins ∧ ins.op.isPure = true ∧
      (readSources f s i).1 = s.1.setInstruction i { ins with
        a := f.sourceOf s.1 i s.1.code.size ins.a
        b := if hasSecond ins.op then f.sourceOf s.1 i s.1.code.size ins.b else ins.b } := by
  obtain ⟨b, changed⟩ := s
  unfold readSources
  dsimp only
  split
  · exact .inl rfl
  · rename_i ins hins
    split
    · rename_i hpure
      refine or_iff_not_imp_right.2 fun hnot => ?_
      generalize hsecond : (if hasSecond _ = true then f.sourceOf b i _ _ else _) = second at hnot ⊢
      split
      · rfl
      · rename_i hdiffers
        exact absurd ⟨ins, hins, hpure, by rw [if_neg hdiffers, hsecond]⟩ hnot
    · exact .inl rfl

theorem revises_readSources (f : Flow) (s : Block × Bool) (i : Nat) :
    (readSources f s i).1.Revises s.1 := by
  rcases readSources_cases f s i with hsame | ⟨ins, hins, hpure, hb⟩
  · rw [hsame]
    exact .refl _
  · rw [hb]
    refine .setInstruction hins (.of_dest (.of_isPure hpure) rfl (.inr hpure) rfl) fun hload => ?_
    rcases hload with hload | hload <;> rw [show ins.op = _ from hload] at hpure <;> cases hpure

theorem revises_foldl_readSources (f : Flow) (places : List Nat) (s : Block × Bool) :
    (places.foldl (readSources f) s).1.Revises s.1 := by
  induction places generalizing s with
  | nil => exact .refl s.1
  | cons i rest ih => exact (ih _).trans (revises_readSources f s i)

/-- A step leaves the block as it is, or copies an earlier result. -/
theorem share_cases {f : Flow} (h : share f s i = some s') :
    s'.1 = s.1 ∨ ∃ ins j earlier, s.1.code[i]? = some ins ∧ ins.op.isPure = true ∧
      isShareable f s.1 ins i = some true ∧ isAvailable f s.1 i ins j = true ∧
      s.1.code[j]? = some earlier ∧ s'.1 = s.1.setInstruction i
        { op := .move, dest := ins.dest, a := earlier.dest, position := ins.position } := by
  obtain ⟨b, changed⟩ := s
  unfold share at h
  obtain ⟨ins, hins, h⟩ := bind_eq_some_iff.1 h
  split at h
  · cases h; exact .inl rfl
  · rename_i hpure
    obtain ⟨shareable, hshareable, h⟩ := bind_eq_some_iff.1 h
    split at h
    · cases h; exact .inl rfl
    · rename_i hyes
      split at h
      · cases h; exact .inl rfl
      · rename_i j hj
        obtain ⟨earlier, hearlier, h⟩ := bind_eq_some_iff.1 h
        cases h
        obtain rfl : shareable = true := by simpa using hyes
        exact .inr ⟨ins, j, earlier, hins, by simpa using hpure, hshareable,
          find?_some hj, hearlier, rfl⟩

theorem revises_share (f : Flow) (s : Block × Bool) (i : Nat) (s' : Block × Bool)
    (h : share f s i = some s') : s'.1.Revises s.1 := by
  rcases share_cases h with hsame | ⟨ins, j, earlier, hins, hpure, -, -, -, hb⟩
  · rw [hsame]
    exact .refl _
  · rw [hb]
    refine .setInstruction hins (.of_dest trivial rfl (.inr hpure) rfl) fun hload => ?_
    rcases hload with hload | hload <;> cases hload

theorem revises : pass.Revises := fun _ b b' changed h =>
  (foldlM_revises (revises_share _) _ _ (b', changed) h).trans
    (revises_foldl_readSources _ _ (b, false))

end Sharing

/-! ## Pruning -/

namespace Block

variable {keep : List Bool} {places : Array Nat} {moved : Instruction}

/-- One instruction more, kept or not: its new place, and the number of kept ones behind it. -/
theorem foldl_keptPlaces (keep : List Bool) (places : Array Nat) (n : Nat) :
    let found := keep.foldl (fun (places, n) k =>
      (Array.push places n, if k then n + 1 else n)) (places, n)
    (∀ i, i < places.size → (found.1.push found.2)[i]? = places[i]?) ∧
      ∀ i t, (found.1.push found.2)[places.size + i]? = some t →
        t = n + (keep.take i).count true := by
  induction keep generalizing places n with
  | nil =>
    refine ⟨fun i hi => ?_, fun i t ht => ?_⟩
    · exact (Array.getElem?_push_lt hi).trans (Array.getElem?_eq_getElem hi).symm
    · rw [foldl_nil, Array.getElem?_push] at ht
      split at ht
      · cases ht
        rw [take_nil]
        rfl
      · exact absurd (Array.getElem?_eq_some_iff.1 ht).1 (Nat.not_lt.2 (Nat.le_add_right _ _))
  | cons k rest ih =>
    obtain ⟨hearlier, hlater⟩ := ih (places.push n) (if k then n + 1 else n)
    have hsize : (places.push n).size = places.size + 1 := Array.size_push n
    refine ⟨fun i hi => ?_, fun i t ht => ?_⟩
    · rw [foldl_cons, hearlier i (by omega), Array.getElem?_push_lt hi,
        Array.getElem?_eq_getElem hi]
    · rw [foldl_cons] at ht
      cases i with
      | zero =>
        rw [hearlier _ (by omega), Nat.add_zero, Array.getElem?_push_size] at ht
        cases ht
        rfl
      | succ i =>
        rw [show places.size + (i + 1) = (places.push n).size + i by omega] at ht
        rw [hlater i t ht]
        cases k
        · simp
        · simp
          omega

/-- The new place of an instruction is the number of those kept in front of it. -/
theorem getElem?_keptPlaces {t : Nat} (h : (keptPlaces keep)[i]? = some t) :
    t = (keep.take i).count true := by
  have hplace := (foldl_keptPlaces keep #[] 0).2 i t (by simpa [keptPlaces] using h)
  rwa [Nat.zero_add] at hplace

/-- The marked instructions of a list. -/
def kept (code : List Instruction) (keep : List Bool) : List Instruction :=
  (code.zip keep).filterMap fun (ins, k) => if k then some ins else none

theorem length_kept (code : List Instruction) (keep : List Bool) :
    (kept code keep).length = (keep.take code.length).count true := by
  induction code generalizing keep with
  | nil => rfl
  | cons ins rest ih =>
    cases keep with
    | nil => rfl
    | cons k keep =>
      cases k with
      | false => simpa [kept] using ih keep
      | true => simpa [kept] using ih keep

theorem getElem?_kept {code : List Instruction} {j : Nat} (h : (kept code keep)[j]? = some ins) :
    ∃ i, code[i]? = some ins ∧ keep[i]? = some true ∧ j = (keep.take i).count true := by
  induction code generalizing keep j with
  | nil => cases h
  | cons first rest ih =>
    cases keep with
    | nil => cases h
    | cons k keep =>
      cases k with
      | false =>
        have hrest : (kept rest keep)[j]? = some ins := by simpa [kept] using h
        obtain ⟨i, hi, hk, hj⟩ := ih hrest
        exact ⟨i + 1, hi, hk, by simpa using hj⟩
      | true =>
        cases j with
        | zero =>
          cases h
          exact ⟨0, rfl, rfl, rfl⟩
        | succ j =>
          have hrest : (kept rest keep)[j]? = some ins := by simpa [kept] using h
          obtain ⟨i, hi, hk, hj⟩ := ih hrest
          exact ⟨i + 1, hi, hk, by simpa using hj⟩

section

variable (h : retarget places ins = some moved)

include h

/-- A branch that goes on elsewhere is otherwise as it was. -/
theorem retarget_cases : (ins.op.isBranch = false ∧ moved = ins) ∨
      ∃ target : Nat, places[ins.target.toNat]? = some target ∧ moved = { ins with target } := by
  unfold retarget at h
  split at h
  · split at h
    · cases h
    · obtain ⟨_, hmoved, rfl⟩ := map_eq_some_iff.1 h
      obtain ⟨target, htarget, hcast⟩ := bind_eq_some_iff.1 hmoved
      cases hcast
      exact .inr ⟨target, htarget, rfl⟩
  · rename_i hbranch
    cases h
    exact .inl ⟨Bool.eq_false_iff.2 hbranch, rfl⟩

theorem isTail_of_retarget : moved.isTail = ins.isTail := by
  rcases retarget_cases h with ⟨-, rfl⟩ | ⟨target, -, rfl⟩ <;> rfl

/-- A call at the end of a block is at the end of its new code, if the end moves there. -/
theorem ends_of_retarget {ret slots slots' : Int} {j size size' : Nat}
    (hends : ins.Ends ret slots i size)
    (hslots : slots ≤ slots') (hend : ∀ t, places[size]? = some t → t = size')
    (hlast : i + 1 = size → j + 1 = size') : moved.Ends ret slots' j size' := by
  have hlt : ret < slots' := Int.lt_of_lt_of_le hends.lt hslots
  rcases retarget_cases h with ⟨hbranch, rfl⟩ | ⟨target, htarget, rfl⟩
  · exact ⟨hends.dest, hends.nonneg, hlt, fun hyes => (by rw [hbranch] at hyes; cases hyes), fun hno =>
      hlast (hends.last hno)⟩
  · refine ⟨hends.dest, hends.nonneg, hlt, fun hyes => ?_, fun hno => hlast (hends.last hno)⟩
    rw [hends.target hyes, Int.toNat_natCast] at htarget
    exact congrArg Int.ofNat (hend target htarget)

end

theorem tidy_compact (h : b.compact keep = some b') (hb : b.Tidy) : b'.Tidy := by
  obtain ⟨code, -, heq⟩ := bind_eq_some_iff.1 h
  cases heq
  exact ⟨hb.constants, hb.params_nonneg, hb.params_le⟩

theorem nesting_compact (h : b.compact keep = some b') :
    b'.SameNesting b := by
  obtain ⟨code, -, heq⟩ := bind_eq_some_iff.1 h
  cases heq
  exact ⟨rfl, rfl⟩

theorem tailSafe_compact (h : b.compact keep = some b') (hb : b.TailSafe) : b'.TailSafe := by
  obtain ⟨code, hcode, heq⟩ := Option.bind_eq_some_iff.1 h
  cases heq
  obtain ⟨hlength, hget⟩ := getElem?_of_mapM hcode
  intro j moved hmoved htail
  obtain ⟨ins, hins, hretarget⟩ := hget j moved (by simpa using hmoved)
  obtain ⟨i, hi, hk, hj⟩ := getElem?_kept hins
  rw [isTail_of_retarget hretarget] at htail
  have hsize : code.toArray.size = (keep.take b.code.size).count true := by
    rw [List.size_toArray, hlength]
    exact (length_kept _ _).trans (by rw [Array.length_toList])
  refine ends_of_retarget hretarget (hb i ins (by simpa using hi) htail) (Int.le_refl _)
    (fun t ht => ?_) fun hlast => ?_
  · rw [getElem?_keptPlaces ht]
    exact hsize.symm
  · rw [hsize, ← hlast, hj, List.take_add_one, hk]
    simp

end Block

/-- One of the elements that are looked at until one is found. -/
theorem exists_of_anyM {α : Type} {test : α → Option Bool} {l : List α} (h : l.anyM test = some true) :
    ∃ a ∈ l, test a = some true := by
  induction l with
  | nil => cases h
  | cons a rest ih =>
    rw [anyM_cons] at h
    obtain ⟨found, hfound, h⟩ := bind_eq_some_iff.1 h
    cases found with
    | true => exact ⟨a, mem_cons_self, hfound⟩
    | false =>
      obtain ⟨a', ha', htest⟩ := ih h
      exact ⟨a', mem_cons_of_mem _ ha', htest⟩

namespace Pruning

/-- The test `ins` at `i` comes behind the test `earlier` at `j` of the same subject for an equal
constant, in the same choice. -/
structure Shadows (f : Flow) (b : Block) (j : Nat) (earlier : Instruction) (i : Nat) (ins : Instruction)
    (other value : Datum) : Prop where
  code : b.code[i]? = some ins
  test : isTest ins.op = true
  constant : ∃ k, f.constantAt b ins.b i = some (some (value, k))
  earlierCode : b.code[j]? = some earlier
  earlierTest : isTest earlier.op = true
  subject : earlier.a = ins.a
  target : earlier.target = ins.target
  dominates : f.dominates j i = true
  stable : f.isStableAt earlier.a j = true
  earlierConstant : ∃ k, f.constantAt b earlier.b j = some (some (other, k))
  indistinct : isIndistinct value other = true

/-- A step leaves the block as it is, or takes a shadowed test out. -/
theorem removeShadowed_cases {f : Flow} (h : removeShadowed f s i = some s') :
    s'.1 = s.1 ∨ ∃ j earlier ins other value, Shadows f s.1 j earlier i ins other value ∧
      s'.1 = s.1.setInstruction i { op := .nop, position := ins.position } := by
  obtain ⟨b, changed⟩ := s
  unfold removeShadowed at h
  obtain ⟨ins, hins, h⟩ := bind_eq_some_iff.1 h
  split at h
  · cases h; exact .inl rfl
  · rename_i htest
    obtain ⟨found, hfound, h⟩ := bind_eq_some_iff.1 h
    cases found with
    | none => cases h; exact .inl rfl
    | some found =>
      obtain ⟨value, k⟩ := found
      obtain ⟨shadowed, hshadowed, h⟩ := bind_eq_some_iff.1 h
      split at h
      · rename_i hyes
        cases h
        rw [hyes] at hshadowed
        obtain ⟨j, -, hj⟩ := exists_of_anyM hshadowed
        unfold isShadowing at hj
        obtain ⟨earlier, hearlier, hj⟩ := bind_eq_some_iff.1 hj
        split at hj
        · rename_i hconditions
          obtain ⟨found, hother, hj⟩ := bind_eq_some_iff.1 hj
          cases found with
          | none => cases hj
          | some found =>
            obtain ⟨other, k'⟩ := found
            simp only [Bool.and_eq_true, decide_eq_true_eq] at hconditions
            obtain ⟨⟨⟨⟨hearlierTest, hsubject⟩, htarget⟩, hdominates⟩, hstable⟩ := hconditions
            have htests : isTest ins.op = true := by
              simp only [Bool.not_eq_true', Bool.not_eq_false, Bool.and_eq_true] at htest
              exact htest.1
            exact .inr ⟨j, earlier, ins, other, value, ⟨hins, htests, ⟨k, hfound⟩, hearlier,
              hearlierTest, hsubject, htarget, hdominates, hstable, ⟨k', hother⟩,
              Option.some.inj hj⟩, rfl⟩
        · cases hj
      · cases h; exact .inl rfl

theorem revises_removeShadowed (f : Flow) (s : Block × Bool) (i : Nat) (s' : Block × Bool)
    (h : removeShadowed f s i = some s') : s'.1.Revises s.1 := by
  rcases removeShadowed_cases h with hsame | ⟨_, _, ins, _, _, hshadows, hb⟩
  · rw [hsame]
    exact .refl _
  · rw [hb]
    refine .setInstruction hshadows.code ⟨trivial, .inl rfl, rfl⟩ fun hload => ?_
    rcases hload with hload | hload <;> cases hload

/-- Pruning revises a block and may then leave out instructions that nothing leads to or that can be
removed. -/
theorem run_cases (h : pass.run p b = some (b', changed)) :
    b'.Revises b ∨ ∃ revised seen flow rounds st, Block.Revises revised b ∧
      reachable revised = some seen ∧ removeAll p revised rounds { keep := seen, flow } = some st ∧
        revised.compact st.keep.toList = some b' := by
  simp only [pass] at h
  split at h
  · cases h; exact .inl (.refl b)
  · obtain ⟨⟨revised, differs⟩, hfold, h⟩ := bind_eq_some_iff.1 h
    have hrevised := foldlM_revises (revises_removeShadowed _) _ _ _ hfold
    obtain ⟨seen, hseen, h⟩ := bind_eq_some_iff.1 h
    obtain ⟨st, hst, h⟩ := bind_eq_some_iff.1 h
    split at h
    · cases h; exact .inl hrevised
    · obtain ⟨compacted, hcompact, h⟩ := bind_eq_some_iff.1 h
      cases h
      exact .inr ⟨revised, seen, _, _, st, hrevised, hseen, hst, hcompact⟩

theorem keeps (hrevises : ∀ b b' : Block, b'.Revises b → P b → P b')
    (hcompact : ∀ (b b' : Block) (keep : List Bool), b.compact keep = some b' → P b → P b') :
    pass.Keeps P := by
  intro p b b' changed _ hb h
  rcases run_cases h with hrevised | ⟨revised, _, _, _, st, hrevised, -, -, hkept⟩
  · exact hrevises b b' hrevised hb
  · exact hcompact revised b' _ hkept (hrevises b revised hrevised hb)

end Pruning

/-! ## Inlining -/

namespace Inlining

variable {threshold : Nat} {f : Flow} {st st' : State}

/-- No load in a function that may be inlined is that of a nested block. -/
theorem nested?_of_isInlinable {callee : Block} (h : isInlinable threshold callee = true)
    (hins : ins ∈ callee.code.toList) (hop : ins.op = .loadConstant) :
    callee.nested? ins.k = none := by
  have hall := (Bool.and_eq_true_iff.1 h).2
  have hload := Array.all_eq_true'.1 hall ins (Array.mem_toList_iff.1 hins)
  rw [hop] at hload
  exact isNone_iff_eq_none.1 hload

/-- More has been written for a caller, in place of a call. -/
structure Grows (st st' : State) : Prop where
  tidy : st.block.Tidy → st'.block.Tidy
  nesting : st'.block.SameNesting st.block
  ret : st'.block.ret = st.block.ret
  slots : st.block.slots ≤ st'.block.slots
  places : st'.places = st.places
  code : ∃ more : Array Instruction, st'.code = st.code ++ more ∧ ∀ ins ∈ more, ins.IsStraight

namespace Grows

variable {callee : Block} {st st' st'' : State}

theorem refl (st : State) : Grows st st :=
  ⟨id, .refl _, rfl, Int.le_refl _, rfl, #[], Array.append_empty.symm,
    fun _ h => absurd h (Array.not_mem_empty _)⟩

theorem trans (h : Grows st st') (h' : Grows st' st'') : Grows st st'' where
  tidy hst := h'.tidy (h.tidy hst)
  nesting := h'.nesting.trans h.nesting
  ret := h'.ret.trans h.ret
  slots := Int.le_trans h.slots h'.slots
  places := h'.places.trans h.places
  code := by
    obtain ⟨more, hmore, hadded⟩ := h.code
    obtain ⟨more', hmore', hadded'⟩ := h'.code
    refine ⟨more ++ more', by rw [hmore', hmore, Array.append_assoc], fun ins hins => ?_⟩
    exact (Array.mem_append.1 hins).elim (hadded ins) (hadded' ins)

theorem push (hins : ins.IsStraight) : Grows st (st.push ins) :=
  ⟨id, .refl _, rfl, Int.le_refl _, rfl, #[ins], Array.push_eq_append,
    fun _ h => Array.mem_singleton.1 h ▸ hins⟩

theorem load (hvalue : value.object? = none) (hblock : ∀ place, value ≠ .block place) :
    Grows st (st.load value ins) where
  tidy h := h.addConstant hvalue
  nesting := .addConstant _ hblock
  ret := ret_addConstant _ _
  slots := Int.le_of_eq (slots_addConstant _ _).symm
  places := rfl
  code := ⟨#[_], Array.push_eq_append, fun _ h => Array.mem_singleton.1 h ▸ trivial⟩

theorem parameter (base : Int) (call : Instruction) (i : Nat) :
    Grows st (parameter base call st i) := by
  unfold Inlining.parameter
  split
  · exact push trivial
  · exact load rfl (by rintro _ ⟨⟩)

theorem copied {base : Int} (hcallee : callee.Tidy) {ins : Instruction}
    (hins : ins.op = .loadConstant → callee.nested? ins.k = none)
    (h : copied base callee st ins = some st') : Grows st st' := by
  unfold Inlining.copied at h
  split at h
  · cases h; exact refl st
  · rename_i hop
    obtain ⟨value, hvalue, rfl⟩ := map_eq_some_iff.1 h
    refine load (hcallee.constant? hvalue) ?_
    rintro place rfl
    have hnone := hins hop
    rw [Block.nested?, hvalue] at hnone
    cases hnone
  all_goals
    rename_i hop
    cases h <;> exact push (by simp only [Instruction.IsStraight, hop])

/-- The code of an inlined function, in front of the copy of its result. -/
theorem expand {threshold : Nat} (hcallee : callee.Tidy)
    (hinlinable : isInlinable threshold callee = true) {call : Instruction}
    (h : expand callee call st = some st') :
    ∃ written, Grows st written ∧ st' = written.push
      { op := .move, dest := call.dest, a := st.block.slots + callee.ret, position := call.position } := by
  unfold Inlining.expand at h
  obtain ⟨written, hwritten, h⟩ := bind_eq_some_iff.1 h
  cases h
  refine ⟨written, ?_, rfl⟩
  have hslots : Grows st { st with
      block.slots := st.block.slots + callee.slots, changed := true } := by
    have hmore : st.block.slots ≤ st.block.slots + callee.slots := by
      have := Int.le_trans hcallee.params_nonneg hcallee.params_le
      omega
    exact ⟨fun hst => ⟨hst.constants, hst.params_nonneg, Int.le_trans hst.params_le hmore⟩,
      ⟨rfl, rfl⟩, rfl, hmore, rfl, #[], Array.append_empty.symm,
      fun _ h => absurd h (Array.not_mem_empty _)⟩
  have hparameters : ∀ (places : List Nat) (st' : State), Grows st'
      (places.foldl (Inlining.parameter st.block.slots call) st') := by
    intro places
    induction places with
    | nil => exact refl
    | cons i rest ih => exact fun st' => (parameter _ call i).trans (ih _)
  exact foldlM_keeps_mem (fun t ins t' hins ht ht' =>
    ht.trans (copied hcallee (nested?_of_isInlinable hinlinable hins) ht')) _ written
    (hslots.trans (hparameters _ _)) hwritten

end Grows

/-- What is written for an instruction of a caller: the instruction itself, or what is inlined for
it. -/
theorem instruction_cases {n : Nat} (h : instruction threshold p f b st (ins, n) = some st') :
    st' = { st with places := st.places.push st.code.size }.push ins ∨
      ins.op = .call ∧ ∃ place, isInlinable threshold (p.block place) = true ∧
        expand (p.block place) ins { st with places := st.places.push st.code.size } = some st' := by
  unfold Inlining.instruction at h
  dsimp only at h
  split at h
  · rename_i hop
    split at h
    · rename_i place _
      split at h
      · rename_i hinlinable
        exact .inr ⟨hop, place, hinlinable, h⟩
      · exact .inl (Option.some.inj h).symm
    · exact .inl (Option.some.inj h).symm
  · exact .inl (Option.some.inj h).symm

/-- What has been written for the first `n` instructions of a caller. -/
structure Faithful (b : Block) (n : Nat) (st : State) : Prop where
  tidy : b.Tidy → st.block.Tidy
  nesting : st.block.SameNesting b
  ret : st.block.ret = b.ret
  slots : b.slots ≤ st.block.slots
  places : st.places.size = n
  code : ∀ (j : Nat) (ins : Instruction), st.code[j]? = some ins → ins.isTail = true →
    ∃ i, i < n ∧ b.code[i]? = some ins ∧ (i + 1 = n → j + 1 = st.code.size)

theorem Faithful.start (b : Block) : Faithful b 0 { block := b } :=
  ⟨fun h => h, .refl b, rfl, Int.le_refl _, rfl, fun _ _ hins =>
    absurd (Array.mem_of_getElem? hins) (Array.not_mem_empty _)⟩

theorem Faithful.instruction {n : Nat} (hst : Faithful b n st) (hp : ∀ b ∈ p.blocks, b.Tidy)
    (hins : b.code[n]? = some ins) (h : instruction threshold p f b st (ins, n) = some st') :
    Faithful b (n + 1) st' := by
  have hplaces : (st.places.push st.code.size).size = n + 1 := by
    rw [Array.size_push, hst.places]
  rcases instruction_cases h with rfl | ⟨hop, place, hinlinable, hexpand⟩
  · refine ⟨hst.tidy, hst.nesting, hst.ret, hst.slots, hplaces, fun j other hother htail => ?_⟩
    change (st.code.push ins)[j]? = _ at hother
    rw [Array.getElem?_push] at hother
    split at hother
    · rename_i hj
      cases hother
      exact ⟨n, Nat.lt_succ_self n, hins, fun _ => hj ▸ (Array.size_push ins).symm⟩
    · obtain ⟨i, hi, hcode, -⟩ := hst.code j other hother htail
      exact ⟨i, Nat.lt_succ_of_lt hi, hcode, fun hlast => absurd hlast (by omega)⟩
  · obtain ⟨written, hgrows, rfl⟩ := Grows.expand (Pass.holds_block .default hp place) hinlinable hexpand
    refine ⟨fun hb => hgrows.tidy (hst.tidy hb), hgrows.nesting.trans hst.nesting,
      hgrows.ret.trans hst.ret, Int.le_trans hst.slots hgrows.slots, hgrows.places ▸ hplaces,
      fun j other hother htail => ?_⟩
    -- nothing that is written for a call is in tail position
    obtain ⟨more, hmore, hadded⟩ := hgrows.code
    change (written.code.push _)[j]? = _ at hother
    rw [hmore, ← Array.append_push, Array.getElem?_append] at hother
    split at hother
    · obtain ⟨i, hi, hcode, -⟩ := hst.code j other hother htail
      exact ⟨i, Nat.lt_succ_of_lt hi, hcode, fun hlast => absurd hlast (by omega)⟩
    · rcases Array.mem_push.1 (Array.mem_of_getElem? hother) with hmem | rfl
      · rw [(hadded other hmem).isTail_eq] at htail
        cases htail
      · cases htail

/-- What every instruction of a caller keeps holds when all of them have been looked at. -/
theorem foldlM_instructions {I : Nat → State → Prop}
    (hstep : ∀ n st st' ins, b.code[n]? = some ins → I n st → Inlining.instruction threshold p f b
      st (ins, n) = some st' → I (n + 1) st') (hst : I 0 st)
    (h : b.code.toList.zipIdx.foldlM (Inlining.instruction threshold p f b) st = some st') :
    I b.code.size st' := by
  suffices hrest : ∀ (rest : List Instruction) (n : Nat) (st : State), I n st →
      b.code.toList.drop n = rest →
      (rest.zipIdx n).foldlM (Inlining.instruction threshold p f b) st = some st' →
      I (n + rest.length) st' by
    have hall := hrest b.code.toList 0 st hst rfl h
    rwa [Nat.zero_add, Array.length_toList] at hall
  intro rest
  induction rest with
  | nil =>
    intro n st hst _ h
    cases h
    exact hst
  | cons ins rest ih =>
    intro n st hst hrest h
    rw [zipIdx_cons, foldlM_cons] at h
    obtain ⟨next, hnext, h⟩ := bind_eq_some_iff.1 h
    have hins : b.code[n]? = some ins := by
      have := congrArg List.head? hrest
      simpa [head?_drop] using this
    have hdrop : b.code.toList.drop (n + 1) = rest := by
      rw [← drop_drop, hrest]
      rfl
    have hrun := ih (n + 1) next (hstep n st next ins hins hst hnext) hdrop h
    rw [length_cons, Nat.add_comm rest.length 1, ← Nat.add_assoc]
    exact hrun

theorem Faithful.of_foldlM (hp : ∀ b ∈ p.blocks, b.Tidy)
    (h : b.code.toList.zipIdx.foldlM (Inlining.instruction threshold p f b) { block := b } = some
      st) :
    Faithful b b.code.size st :=
  foldlM_instructions (fun _ _ _ _ hins hst hnext => hst.instruction hp hins hnext) (.start b) h

theorem nesting (hp : ∀ b ∈ p.blocks, b.Tidy) (h : (pass threshold).run p b = some (b', changed)) :
    b'.SameNesting b := by
  simp only [pass] at h
  obtain ⟨st, hst, h⟩ := bind_eq_some_iff.1 h
  have hfaithful := Faithful.of_foldlM hp hst
  split at h
  · obtain ⟨code, -, h⟩ := bind_eq_some_iff.1 h
    cases h
    exact ⟨hfaithful.nesting.binds, hfaithful.nesting.children⟩
  · cases h
    exact .refl b

theorem keeps (threshold : Nat) : (pass threshold).Keeps fun b => b.Tidy ∧ b.TailSafe := by
  intro p b b' changed hp hb h
  simp only [pass] at h
  obtain ⟨st, hst, h⟩ := Option.bind_eq_some_iff.1 h
  have hfaithful := Faithful.of_foldlM (fun b hb => (hp b hb).1) hst
  split at h
  · obtain ⟨code, hcode, h⟩ := Option.bind_eq_some_iff.1 h
    cases h
    obtain ⟨hlength, hget⟩ := getElem?_of_mapM hcode
    have htidy := hfaithful.tidy hb.1
    refine ⟨⟨htidy.constants, htidy.params_nonneg, htidy.params_le⟩, ?_⟩
    intro j moved hmoved htail
    obtain ⟨ins, hins, hretarget⟩ := hget j moved (by simpa using hmoved)
    rw [Block.isTail_of_retarget hretarget] at htail
    obtain ⟨i, hi, hcodeat, hlast⟩ := hfaithful.code j ins (by simpa using hins) htail
    have hsize : code.toArray.size = st.code.size := by
      rw [List.size_toArray, hlength, Array.length_toList]
    have hends := hb.2 i ins hcodeat htail
    rw [show ({ st.block with code := code.toArray } : Block).ret = b.ret from hfaithful.ret]
    refine Block.ends_of_retarget hretarget hends hfaithful.slots (fun t ht => ?_) fun hend => ?_
    · rw [← hfaithful.places, Array.getElem?_push_size] at ht
      exact (Option.some.inj ht).symm.trans hsize.symm
    · exact (hlast hend).trans hsize.symm
  · cases h
    exact hb

end Inlining

/-! ## Tail calls -/

namespace TailCalls

theorem ends_instruction {ret slots : Int} {size : Nat} (h : ins.Ends ret slots i size) :
    (instruction ins).Ends ret slots i size := by
  unfold instruction isTailCall
  split
  · rename_i hcall
    have hop : ins.op = .call := by simpa using (Bool.and_eq_true_iff.1 hcall).1
    exact ⟨h.dest, h.nonneg, h.lt, nofun, fun _ => h.last (by rw [hop]; rfl)⟩
  · exact h

theorem isTail_of_instruction (h : (instruction ins).isTail = true) :
    ins.isTail = true := by
  unfold instruction isTailCall at h
  split at h
  · rename_i hcall
    obtain ⟨hop, htail⟩ := Bool.and_eq_true_iff.1 hcall
    unfold Instruction.isTail
    rw [show ins.op = .call by simpa using hop]
    exact htail
  · exact h

theorem keeps : pass.Keeps fun b => b.Tidy ∧ b.TailSafe := by
  intro p b b' changed _ hb h
  cases h
  refine ⟨⟨hb.1.constants, hb.1.params_nonneg, hb.1.params_le⟩, ?_⟩
  intro i moved hmoved htail
  obtain ⟨ins, hins, rfl⟩ : ∃ ins, b.code[i]? = some ins ∧ instruction ins = moved := by
    simpa using hmoved
  have hends := ends_instruction (hb.2 i ins hins (isTail_of_instruction htail))
  simpa using hends

end TailCalls

/-! ## Programs after passes -/

/-- The passes of the optimizer. -/
inductive IsPass : Pass → Prop where
  | folding : IsPass Folding.pass
  | sharing : IsPass Sharing.pass
  | pruning : IsPass Pruning.pass
  | inlining (threshold : Nat) : IsPass (Inlining.pass threshold)
  | tailCalls : IsPass TailCalls.pass

theorem Pass.Revises.keeps {pass : Pass} (h : pass.Revises) :
    pass.Keeps fun b => b.Tidy ∧ b.TailSafe :=
  fun p b b' changed _ hb hrun =>
    ⟨(h p b b' changed hrun).tidy hb.1, (h p b b' changed hrun).tailSafe hb.2⟩

theorem IsPass.keeps {pass : Pass} (h : IsPass pass) :
    pass.Keeps fun b => b.Tidy ∧ b.TailSafe := by
  cases h with
  | folding => exact Folding.revises.keeps
  | sharing => exact Sharing.revises.keeps
  | pruning =>
    exact Pruning.keeps (fun _ _ hrevises hb => ⟨hrevises.tidy hb.1, hrevises.tailSafe hb.2⟩)
      fun _ _ _ hkept hb => ⟨tidy_compact hkept hb.1, tailSafe_compact hkept hb.2⟩
  | inlining threshold => exact Inlining.keeps threshold
  | tailCalls => exact TailCalls.keeps

/-- No pass changes which cells a block takes or which blocks are nested in it. -/
theorem IsPass.nesting {pass : Pass} (h : IsPass pass) (hp : ∀ b ∈ p.blocks, b.Tidy)
    (hrun : pass.run p b = some (b', changed)) :
    b'.SameNesting b := by
  cases h with
  | folding => exact (Folding.revises p b b' changed hrun).nesting
  | sharing => exact (Sharing.revises p b b' changed hrun).nesting
  | pruning =>
    rcases Pruning.run_cases hrun with hrevised | ⟨revised, _, _, _, _, hrevised, -, -, hkept⟩
    · exact hrevised.nesting
    · exact (nesting_compact hkept).trans hrevised.nesting
  | inlining threshold => exact Inlining.nesting hp hrun
  | tailCalls =>
    cases hrun
    exact ⟨rfl, rfl⟩

/-- The code of a program, possibly after passes of the optimizer. -/
inductive Program.Built : Program → Prop where
  | compiled {natives : Text → Option Nat} {file : Text} {r : Resolution} {script : Script}
      {p : Program} (h : script.compile natives file r = .ok p) : Built p
  | improved {p q : Program} {pass : Pass} (hp : Built p) (hpass : IsPass pass)
      (h : pass.result? p = some q) : Built q

/-- The blocks of a program are in order, whatever passes it went through. -/
theorem Program.Built.inOrder (h : p.Built) :
    ∀ b ∈ p.blocks, b.Tidy ∧ b.TailSafe := by
  induction h with
  | compiled h => exact fun b hb => ⟨.of_compile h b hb, .of_compile h b hb⟩
  | improved _ hpass h ih => exact hpass.keeps.result? ⟨.default, .default⟩ ih h

end Inkwell
