import Mathlib
import Inkwell.Proofs.Code.TailSafe

/-!
# Tidy blocks

A block that a machine can run without losing count of owners: no constant is an object, and there is
a register for every parameter. The code of every program consists of such blocks.
-/

namespace Inkwell

/-- No constant of a block is an object, and the parameters of the block have registers. -/
structure Block.Tidy (b : Block) : Prop where
  constants : ∀ d ∈ b.constants, d.object? = none
  params_nonneg : 0 ≤ b.params
  params_le : b.params ≤ b.slots

namespace Block.Tidy

theorem default : (default : Block).Tidy where
  constants := fun _ hd => absurd hd (Array.not_mem_empty _)
  params_nonneg := Int.le_refl _
  params_le := Int.le_refl _

variable {b : Block}

theorem constant? (h : b.Tidy) {k : Int} {d : Datum} (hd : b.constant? k = some d) :
    d.object? = none := by
  unfold Block.constant? at hd
  split at hd
  · cases hd
  · exact h.constants d (Array.mem_of_getElem? hd)

/-- The block at a place of a list of tidy ones. -/
theorem getD {code : Array Block} (hcode : ∀ b ∈ code, b.Tidy) (place : Nat) :
    (code[place]?.getD Inhabited.default).Tidy := by
  cases hb : code[place]? with
  | none => exact default
  | some b => exact hcode b (Array.mem_of_getElem? hb)

end Block.Tidy

/-! ## Tidy code is written -/

namespace Compile

/-- What is written so far will be a tidy block. -/
structure Draft.Tidy (d : Draft) : Prop where
  constants : ∀ c ∈ d.block.constants, c.object? = none
  params_nonneg : 0 ≤ d.block.params
  params_le : d.block.params ≤ d.registers

namespace Draft.Tidy

variable {d : Draft}

theorem constant (h : d.Tidy) {value : Datum} (hvalue : value.object? = none) :
    (d.constant value).2.Tidy := by
  unfold Draft.constant
  split
  · exact h
  · refine ⟨fun c hc => ?_, h.params_nonneg, h.params_le⟩
    rcases Array.mem_push.1 hc with hc | rfl
    · exact h.constants c hc
    · exact hvalue

theorem nested (h : d.Tidy) (place : Nat) : (d.nested place).2.Tidy := by
  refine ⟨fun c hc => ?_, h.params_nonneg, h.params_le⟩
  rcases Array.mem_push.1 hc with hc | rfl
  · exact h.constants c hc
  · rfl

theorem capture {binding : Nat} {outer : List Draft} (h : d.Tidy) (houter : ∀ o ∈ outer, o.Tidy) :
    (d.capture binding outer).2.1.Tidy ∧ ∀ o ∈ (d.capture binding outer).2.2, o.Tidy := by
  induction outer generalizing d with
  | nil => exact ⟨h, nofun⟩
  | cons parent outer ih =>
    have hparent := houter parent List.mem_cons_self
    have hrest : ∀ o ∈ outer, o.Tidy := fun o ho => houter o (List.mem_cons_of_mem _ ho)
    unfold Draft.capture
    split
    · exact ⟨h, houter⟩
    · split
      · exact ⟨⟨h.constants, h.params_nonneg, h.params_le⟩, houter⟩
      · obtain ⟨hnew, houter'⟩ := ih hparent hrest
        refine ⟨⟨h.constants, h.params_nonneg, h.params_le⟩, fun o ho => ?_⟩
        rcases List.mem_cons.1 ho with rfl | ho
        · exact hnew
        · exact houter' o ho

/-- Every binding that is no parameter gets a register behind those of the parameters. -/
theorem le_assignSlots (r : Resolution) (parameters : Nat) (places : List Nat) :
    parameters ≤ (assignSlots r parameters places).2 := by
  refine List.foldlRecOn (motive := fun s : Std.HashMap Nat Nat × Nat => parameters ≤ s.2) places _
    (Nat.le_refl _) ?_
  intro s hs place _
  dsimp only
  split
  · exact hs
  · exact Nat.le_succ_of_le hs

theorem draft (setting : Setting) (unit : CodeUnit) (name : Text) (parameters place : Nat) :
    (setting.draft unit name parameters place).Tidy where
  constants := fun _ hc => absurd hc (Array.not_mem_empty _)
  params_nonneg := Int.natCast_nonneg _
  params_le := Int.ofNat_le.2 (le_assignSlots _ _ _)

theorem sealed (h : d.Tidy) (ret : Nat) : (d.sealed ret).Tidy :=
  ⟨h.constants, h.params_nonneg, h.params_le⟩

end Draft.Tidy

/-- Everything written so far is tidy. -/
structure State.Tidy (st : State) : Prop where
  blocks : ∀ b ∈ st.blocks, b.Tidy
  current : st.current.Tidy
  outer : ∀ d ∈ st.outer, d.Tidy

theorem Draft.Tidy.empty : ({} : Draft).Tidy :=
  ⟨fun _ hc => absurd hc (Array.not_mem_empty _), Int.le_refl _, Int.le_refl _⟩

theorem State.Tidy.sealed {st : State} (h : st.Tidy) (ret : Nat) : (st.sealed ret).Tidy := by
  refine ⟨fun b hb => ?_, ?_, fun d hd => h.outer d (List.mem_of_mem_tail hd)⟩
  · rcases Array.mem_or_eq_of_mem_setIfInBounds hb with hb | rfl
    · exact h.blocks b hb
    · exact h.current.sealed ret
  · change (st.outer.headD {}).Tidy
    cases houter : st.outer with
    | nil => exact .empty
    | cons d rest => exact h.outer d (houter ▸ List.mem_cons_self)

/-- Everything that is written stays tidy. -/
theorem closed_tidy (setting : Setting) : Closed setting fun _ st => st.Tidy where
  report _ _ _ _ h := ⟨h.blocks, h.current, h.outer⟩
  newRegister _ st h := ⟨h.blocks, ⟨h.current.constants, h.current.params_nonneg,
    Int.le_trans h.current.params_le (Int.ofNat_le.2 (Nat.le_succ _))⟩, h.outer⟩
  emit _ _ _ _ h :=
    ⟨h.blocks, ⟨h.current.constants, h.current.params_nonneg, h.current.params_le⟩, h.outer⟩
  constant _ _ hvalue _ _ h := ⟨h.blocks, h.current.constant hvalue, h.outer⟩
  capture _ _ _ h := ⟨h.blocks, (h.current.capture h.outer).1, (h.current.capture h.outer).2⟩
  nested _ st ret h :=
    ⟨(h.sealed ret).blocks, (h.sealed ret).current.nested st.current.place, (h.sealed ret).outer⟩
  patch _ _ _ h :=
    ⟨h.blocks, ⟨h.current.constants, h.current.params_nonneg, h.current.params_le⟩, h.outer⟩
  opened _ st unit name parameters h := by
    refine ⟨fun b hb => ?_, .draft setting unit name parameters _, fun d hd => ?_⟩
    · rcases Array.mem_push.1 hb with hb | rfl
      · exact h.blocks b hb
      · exact Block.Tidy.default
    · rcases List.mem_cons.1 hd with rfl | hd
      · exact h.current
      · exact h.outer d hd
  sealed _ _ ret h := h.sealed ret

end Compile

/-- The code of a program is tidy. -/
theorem Block.Tidy.of_compile {natives : Text → Option Nat} {file : Text} {r : Resolution}
    {script : Script} {p : Program} (h : script.compile natives file r = .ok p) :
    ∀ b ∈ p.blocks, b.Tidy := by
  obtain ⟨_, rfl⟩ := Script.compile_eq_ok h
  exact (Script.written_of_closed (Compile.closed_tidy _)
    ⟨fun _ hb => absurd hb (Array.not_mem_empty _), .empty, nofun⟩).blocks

end Inkwell
