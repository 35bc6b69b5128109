import Mathlib
import Inkwell.Proofs.Code.Writing

/-!
# Calls in tail position

An instruction is in tail position if it lets a block take over the frame it stands in. That is
harmless where nothing is left to do in the frame: the result of the call is the result of the block,
and the block ends behind the call. The code of every program has calls in tail position only there.

While code is written, only the last expression of a unit may end with such calls. A choice is the
one form whose calls are not the last instruction; they go on behind it once it is complete.

One walk over the expressions shows this, and that what every action of the writing keeps holds when
all is written (`Compile.Emits`).
-/

namespace Inkwell

open List

variable {ins : Instruction}

/-- Whether an instruction lets a block take over the frame it stands in. -/
def Instruction.isTail (ins : Instruction) : Bool :=
  match ins.op with
  | .tailCall => true
  | .call | .callIfEqual | .callArm => ins.tail
  | _ => false

/-- The result of a call is that of the block, which has a register for it, and the block ends behind
the call. -/
structure Instruction.Ends (ins : Instruction) (ret slots : Int) (offset size : Nat) : Prop where
  dest : ins.dest = ret
  nonneg : 0 ≤ ret
  lt : ret < slots
  target : ins.op.isBranch = true → ins.target = size
  last : ins.op.isBranch = false → offset + 1 = size

/-- Every instruction in tail position is the end of its block. -/
def Block.TailSafe (b : Block) : Prop :=
  ∀ (i : Nat) (ins : Instruction), b.code[i]? = some ins → ins.isTail = true →
    ins.Ends b.ret b.slots i b.code.size

theorem Block.TailSafe.default : (default : Block).TailSafe := by
  intro i ins hins
  exact absurd (Array.mem_of_getElem? hins) (Array.not_mem_empty _)

namespace Compile

/-- The code of the current unit. -/
def State.code (st : State) : Array Instruction := st.current.block.code

/-- What is written for a unit: its code, and the number of its registers. -/
def Draft.text (d : Draft) : Array Instruction × Nat := (d.block.code, d.registers)

/-- Code and registers have only been added to the current unit, each instruction in tail position
in the code is as `T` says, and every block completed meanwhile is safe. -/
structure Adds (st st' : State) (T : Nat → Instruction → Prop) : Prop where
  size_le : st.code.size ≤ st'.code.size
  registers_le : st.current.registers ≤ st'.current.registers
  earlier : ∀ i, i < st.code.size → st'.code[i]? = st.code[i]?
  outer : st'.outer.map Draft.text = st.outer.map Draft.text
  blocks : (∀ b ∈ st.blocks, b.TailSafe) → ∀ b ∈ st'.blocks, b.TailSafe
  tails : ∀ i ins, st.code.size ≤ i → st'.code[i]? = some ins → ins.isTail = true → T i ins

namespace Adds

variable {st st₁ st₂ : State} {T U : Nat → Instruction → Prop}

theorem refl (st : State) : Adds st st T where
  size_le := Nat.le_refl _
  registers_le := Nat.le_refl _
  earlier _ _ := rfl
  outer := rfl
  blocks h := h
  tails i ins hi hins := absurd (Array.getElem?_eq_some_iff.1 hins).1 (by omega)

theorem mono (h : Adds st st₁ T) (hTU : ∀ i ins, T i ins → U i ins) : Adds st st₁ U :=
  { h with tails := fun i ins hi hins htail => hTU i ins (h.tails i ins hi hins htail) }

theorem trans (h₁ : Adds st st₁ T) (h₂ : Adds st₁ st₂ T) : Adds st st₂ T where
  size_le := Nat.le_trans h₁.size_le h₂.size_le
  registers_le := Nat.le_trans h₁.registers_le h₂.registers_le
  earlier i hi := by rw [h₂.earlier i (Nat.lt_of_lt_of_le hi h₁.size_le), h₁.earlier i hi]
  outer := h₂.outer.trans h₁.outer
  blocks h := h₂.blocks (h₁.blocks h)
  tails i ins hi hins htail := by
    by_cases hlt : i < st₁.code.size
    · exact h₁.tails i ins hi (h₂.earlier i hlt ▸ hins) htail
    · exact h₂.tails i ins (Nat.le_of_not_lt hlt) hins htail

/-- The code stays as it is. -/
theorem of_code (hcode : st₁.code = st.code)
    (hregisters : st.current.registers ≤ st₁.current.registers)
    (houter : st₁.outer.map Draft.text = st.outer.map Draft.text)
    (hblocks : st₁.blocks = st.blocks) : Adds st st₁ T where
  size_le := Nat.le_of_eq (congrArg Array.size hcode.symm)
  registers_le := hregisters
  earlier i _ := by rw [hcode]
  outer := houter
  blocks h := hblocks ▸ h
  tails i ins hi hins := by
    rw [hcode] at hins
    exact absurd (Array.getElem?_eq_some_iff.1 hins).1 (by omega)

theorem emit (st : State) (token : Token) (ins : Instruction)
    (hT : ins.isTail = true → T st.code.size { ins with position := token.position }) :
    Adds st (st.emit token ins) T where
  size_le := by
    change _ ≤ (st.code.push _).size
    rw [Array.size_push]
    omega
  registers_le := Nat.le_refl _
  earlier i hi := by
    change (st.code.push _)[i]? = _
    rw [Array.getElem?_push_lt hi, Array.getElem?_eq_getElem hi]
  outer := rfl
  blocks h := h
  tails i ins' hi hins htail := by
    change (st.code.push _)[i]? = _ at hins
    rw [Array.getElem?_push] at hins
    split at hins
    · rename_i hi'
      cases hins
      rw [hi']
      exact hT htail
    · exact absurd (Array.getElem?_eq_some_iff.1 hins).1 (by omega)

end Adds

/-! ## Code that is added -/

/-- Writing keeps what every action keeps and only adds code, in which each instruction in tail
position is as `T` says; `T` may speak of what the writing gives and of the state it leaves. -/
structure Emits (setting : Setting) {α : Type} (x : Writing α)
    (T : α → State → Nat → Instruction → Prop) : Prop where
  adds : ∀ st, Adds st (x.result setting st).2 (T (x.result setting st).1 (x.result setting st).2)
  kept : ∀ I, Kept setting I → ∀ n, Leads setting (I n) x (I n)

/-- Writing adds code in which no instruction is in tail position. -/
def Calm (setting : Setting) {α : Type} (x : Writing α) : Prop :=
  Emits setting x fun _ _ _ _ => False

theorem Emits.pure {setting : Setting} {α : Type} {T : α → State → Nat → Instruction → Prop}
    (a : α) : Emits setting (Pure.pure a) T := ⟨fun st => .refl st, fun _ _ _ => .pure a⟩

namespace Calm

variable {setting : Setting} {α β : Type} {x : Writing α}
  {T : β → State → Nat → Instruction → Prop}

theorem emits {U : α → State → Nat → Instruction → Prop} (h : Calm setting x) :
    Emits setting x U := ⟨fun st => (h.adds st).mono fun _ _ => False.elim, h.kept⟩

theorem bind {f : α → Writing β} (hx : Calm setting x) (hf : ∀ a, Emits setting (f a) T) :
    Emits setting (x >>= f) T where
  adds st := ((hx.adds st).mono fun _ _ => False.elim).trans
    ((hf (x.result setting st).1).adds (x.result setting st).2)
  kept I h n := (hx.kept I h n).bind fun a => (hf a).kept I h n

theorem of_state (h : ∀ st, (x.result setting st).2 = st) : Calm setting x :=
  ⟨fun st => (h st).symm ▸ .refl st, fun _ _ _ st hI => (h st).symm ▸ hI⟩

theorem report (problem : Problem) (token : Token) : Calm setting (report problem token) :=
  ⟨fun _ => .of_code rfl (Nat.le_refl _) rfl rfl, fun _ h n => h.report n problem token⟩

theorem newRegister : Calm setting newRegister :=
  ⟨fun _ => .of_code rfl (Nat.le_succ _) rfl rfl, fun _ h n => h.newRegister n⟩

theorem emit (token : Token) (ins : Instruction) (h : ins.isTail = false) :
    Calm setting (emit token ins) :=
  ⟨fun st => .emit st token ins fun htail => (by rw [h] at htail; cases htail),
    fun _ h n => h.emit n token ins⟩

section Constants

variable {value : Datum} (hvalue : value.object? = none) (hblock : ∀ place, value ≠ .block place)

include hvalue hblock

theorem constant : Calm setting (constant value) := by
  refine ⟨fun st => ?_, fun _ h n => h.constant n value hvalue hblock⟩
  have htext : (st.current.constant value).2.text = st.current.text := by
    unfold Draft.constant
    split <;> rfl
  exact .of_code (congrArg Prod.fst htext) (Nat.le_of_eq (congrArg Prod.snd htext).symm) rfl rfl

theorem loadConstant (token : Token) : Calm setting (loadConstant value token) :=
  newRegister.bind fun _ => (constant hvalue hblock).bind fun _ => (emit token _ rfl).bind fun _ =>
    .pure _

end Constants

theorem capture_text (binding : Nat) (d : Draft) (outer : List Draft) :
    (d.capture binding outer).2.1.text = d.text ∧
      (d.capture binding outer).2.2.map Draft.text = outer.map Draft.text := by
  induction outer generalizing d with
  | nil => exact ⟨rfl, rfl⟩
  | cons parent outer ih =>
    unfold Draft.capture
    split
    · exact ⟨rfl, rfl⟩
    · split
      · exact ⟨rfl, rfl⟩
      · refine ⟨rfl, ?_⟩
        dsimp only
        rw [map_cons, map_cons, (ih parent).1, (ih parent).2]

theorem capture (binding : Nat) : Calm setting (capture binding) := by
  refine ⟨fun st => ?_, fun _ h n => h.capture n binding⟩
  obtain ⟨htext, houter⟩ := capture_text binding st.current st.outer
  exact .of_code (congrArg Prod.fst htext) (Nat.le_of_eq (congrArg Prod.snd htext).symm) houter rfl

theorem loadBinding (binding : Nat) (token : Token) :
    Calm setting (loadBinding binding token) := by
  refine newRegister.bind fun dest => (of_state fun _ => rfl).bind fun slot => ?_
  cases slot with
  | some slot =>
    refine (of_state fun _ => rfl).bind fun escapes => ?_
    cases escapes <;> exact (emit token _ rfl).bind fun _ => .pure _
  | none => exact (capture binding).bind fun _ => (emit token _ rfl).bind fun _ => .pure _

theorem storeBinding (binding source : Nat) (token : Token) :
    Calm setting (storeBinding binding source token) := by
  refine (of_state fun _ => rfl).bind fun slot => ?_
  cases slot with
  | some slot =>
    refine (of_state fun _ => rfl).bind fun escapes => ?_
    cases escapes <;> exact emit token _ rfl
  | none => exact (capture binding).bind fun _ => emit token _ rfl

theorem name (token : Token) : Calm setting (name token) := by
  refine (of_state fun _ => rfl).bind fun s => ?_
  split
  · exact loadBinding _ token
  · split
    · exact loadConstant rfl (by simp) token
    · exact (report _ token).bind fun _ => loadConstant rfl (by simp) token
  · exact (report _ token).bind fun _ => loadConstant rfl (by simp) token

theorem checkCall (token : Token) (callee : Expr) (arguments : Nat) :
    Calm setting (checkCall token callee arguments) := by
  refine (of_state fun _ => rfl).bind fun s => ?_
  split
  · split
    · exact report _ token
    · exact .pure _
  · exact .pure _

end Calm

/-! ## Units -/

/-- The instructions in tail position of code whose value is in the register `r`: there are none
unless the code is in tail position itself. -/
def Tails (tail : Bool) (r : Nat) (st : State) (i : Nat) (ins : Instruction) : Prop :=
  tail = true ∧ ins.Ends r st.current.registers i st.code.size

theorem Adds.emitAll (st : State) (token : Token) (code : List Instruction)
    (hcode : ∀ ins ∈ code, ins.isTail = false) :
    Adds st (st.emitAll token code) fun _ _ => False := by
  induction code generalizing st with
  | nil => exact .refl st
  | cons ins rest ih =>
    have hins := hcode ins mem_cons_self
    refine Adds.trans (.emit st token ins fun htail => ?_)
      (ih (st.emit token ins) fun i hi => hcode i (mem_cons_of_mem _ hi))
    rw [hins] at htail
    cases htail

theorem isTail_of_mem_cells {setting : Setting} {unit : CodeUnit} {parameters : Nat}
    (h : ins ∈ setting.cells unit parameters) : ins.isTail = false := by
  obtain ⟨place, -, hplace⟩ := mem_filterMap.1 h
  by_cases hescapes : (setting.resolution.bindings[place]?.getD default).escapes = true
  · rw [setting.cell?_of_escapes _ hescapes] at hplace
    cases hplace
    rfl
  · rw [setting.cell?_of_stays _ hescapes] at hplace
    cases hplace

/-- The block of a unit is complete. -/
theorem Adds.sealed {st st₁ st₂ : State} {ret : Nat}
    (houter : st₁.outer.map Draft.text = st.current.text :: st.outer.map Draft.text)
    (hblocks : (∀ b ∈ st.blocks, b.TailSafe) → ∀ b ∈ st₁.blocks, b.TailSafe)
    (hcode : st₁.code = #[]) (h : Adds st₁ st₂ (Tails true ret st₂)) {T : Nat → Instruction → Prop} :
    Adds st (st₂.sealed ret) T := by
  rw [← h.outer] at houter
  obtain ⟨parent, outer, hst₂⟩ : ∃ parent outer, st₂.outer = parent :: outer := by
    cases hst₂ : st₂.outer with
    | nil => rw [hst₂] at houter; cases houter
    | cons parent outer => exact ⟨parent, outer, rfl⟩
  rw [hst₂, map_cons] at houter
  have hparent := (List.cons.inj houter).1
  refine { (Adds.of_code ?_ ?_ ?_ rfl : Adds st { st₂.sealed ret with blocks := st.blocks } T) with
    blocks := fun hsafe b hb => ?_ }
  · change (st₂.outer.headD {}).block.code = _
    rw [hst₂]
    exact congrArg Prod.fst hparent
  · change _ ≤ (st₂.outer.headD {}).registers
    rw [hst₂]
    exact Nat.le_of_eq (congrArg Prod.snd hparent).symm
  · change st₂.outer.tail.map _ = _
    rw [hst₂]
    exact (List.cons.inj houter).2
  · rcases Array.mem_or_eq_of_mem_setIfInBounds hb with hb | rfl
    · exact h.blocks (hblocks hsafe) b hb
    · intro i ins hins htail
      exact (h.tails i ins (by rw [hcode]; exact Nat.zero_le _) hins htail).2

section Units

variable {setting : Setting} {x : Writing Nat} (hx : Emits setting x (Tails true))
  (place : CodeUnit) (name : Text) (parameters : Nat) (token : Token)

include hx

/-- The writing of a whole unit adds a safe block. -/
theorem Emits.adds_unit (st : State) :
    Adds st ((do
      openUnit place name parameters token
      let result ← x
      closeUnit (some result) token : Writing Nat).result setting st).2 fun _ _ => False := by
  simp only [result_bind, result_openUnit, result_closeUnit_some]
  generalize hst₁ : st.opened setting place name parameters = st₁
  have hcells : Adds st₁ (st₁.emitAll token (setting.cells place parameters)) fun _ _ => False :=
    .emitAll st₁ token _ fun ins hins => isTail_of_mem_cells hins
  have hbody := hx.adds (st₁.emitAll token (setting.cells place parameters))
  generalize x.result setting (st₁.emitAll token (setting.cells place parameters)) = result at hbody ⊢
  have hunit : Adds st₁ (result.2.checked setting token)
      (Tails true result.1 (result.2.checked setting token)) := by
    have hwhole := (hcells.mono fun _ _ => False.elim).trans hbody
    unfold State.checked
    split
    · exact hwhole.trans (.of_code rfl (Nat.le_refl _) rfl rfl)
    · exact hwhole
  subst hst₁
  refine .sealed rfl (fun hsafe b hb => ?_) rfl hunit
  rcases Array.mem_push.1 hb with hb | rfl
  · exact hsafe b hb
  · exact Block.TailSafe.default

/-- A unit that is nested in the one around it. -/
theorem Calm.unit : Calm setting (do
    openUnit place name parameters token
    let result ← x
    nested (← closeUnit (some result) token)) where
  adds st := (hx.adds_unit place name parameters token st).trans (.of_code rfl (Nat.le_refl _) rfl rfl)
  kept I h n := (h.openUnit place name parameters token).bind fun _ =>
    (hx.kept I h (n + 1)).bind fun result => h.closeNested result token

end Units

/-! ## Choices -/

/-- The code in which branches go on at `target`. -/
def patched (target : Int) (branches : List Nat) (code : Array Instruction) : Array Instruction :=
  branches.foldl (fun code i => code.modify i fun ins => { ins with target }) code

theorem size_patched (target : Int) (branches : List Nat) (code : Array Instruction) :
    (patched target branches code).size = code.size := by
  induction branches generalizing code with
  | nil => rfl
  | cons i rest ih => exact (ih _).trans Array.size_modify

theorem getElem?_patched (target : Int) (branches : List Nat) (code : Array Instruction) (j : Nat) :
    (patched target branches code)[j]? =
      if j ∈ branches then code[j]?.map fun ins => { ins with target } else code[j]? := by
  induction branches generalizing code with
  | nil => rfl
  | cons i rest ih =>
    change (patched target rest _)[j]? = _
    rw [ih, Array.getElem?_modify]
    by_cases hi : i = j
    · subst hi
      cases code[i]? <;> simp
    · simp [hi, Ne.symm hi]

/-- Writing the arms of a choice gives the places of the branches that leave it, among them those
in tail position. -/
structure Branches (st st' : State) (dest : Nat) (tail : Bool) (before out : List Nat) : Prop where
  adds : Adds st st' fun i ins =>
    tail = true ∧ i ∈ out ∧ ins.dest = dest ∧ ins.op.isBranch = true
  before_subset : ∀ i ∈ before, i ∈ out
  later : ∀ i ∈ out, i ∈ before ∨ st.code.size ≤ i

namespace Branches

variable {st st₁ st₂ : State} {dest : Nat} {tail : Bool} {before out : List Nat}

theorem of_calm (h : Adds st st₁ fun _ _ => False) (h₁ : Branches st₁ st₂ dest tail before out) :
    Branches st st₂ dest tail before out where
  adds := (h.mono fun _ _ => False.elim).trans h₁.adds
  before_subset := h₁.before_subset
  later i hi := (h₁.later i hi).imp_right (Nat.le_trans h.size_le)

theorem refl (st : State) : Branches st st dest tail before before where
  adds := .refl st
  before_subset _ hi := hi
  later _ hi := .inl hi

/-- One more branch. -/
theorem cons (token : Token) {ins : Instruction}
    (hins : ins.isTail = true → tail = true ∧ ins.dest = dest ∧ ins.op.isBranch = true)
    (h : Branches (st.emit token ins) st₁ dest tail (st.code.size :: before) out) :
    Branches st st₁ dest tail before out where
  adds := by
    refine Adds.trans (.emit st token ins fun htail => ?_) h.adds
    exact ⟨(hins htail).1, h.before_subset _ mem_cons_self, (hins htail).2⟩
  before_subset i hi := h.before_subset i (mem_cons_of_mem _ hi)
  later i hi := by
    have hsize : st.code.size ≤ (st.emit token ins).code.size := by
      change _ ≤ (st.code.push _).size
      rw [Array.size_push]
      exact Nat.le_succ _
    rcases h.later i hi with hi | hi
    · rcases mem_cons.1 hi with rfl | hi
      · exact .inr (Nat.le_refl _)
      · exact .inl hi
    · exact .inr (Nat.le_trans hsize hi)

/-- A choice is complete when its branches go on behind it. -/
theorem patch (setting : Setting) (hdest : dest < st.current.registers)
    (h : Branches st st₁ dest tail [] out) :
    Adds st ((patch out).result setting st₁).2
      (Tails tail dest ((patch out).result setting st₁).2) := by
  have hcode : ((Compile.patch out).result setting st₁).2.code =
    patched st₁.code.size out st₁.code := rfl
  have hout : ∀ i ∈ out, st.code.size ≤ i := fun i hi =>
    (h.later i hi).resolve_left (not_mem_nil)
  refine ⟨?_, h.adds.registers_le, fun i hi => ?_, h.adds.outer, h.adds.blocks,
    fun i ins hi hins htail => ?_⟩
  · rw [hcode, size_patched]
    exact h.adds.size_le
  · rw [hcode, getElem?_patched, if_neg fun hmem => absurd (hout i hmem) (by omega)]
    exact h.adds.earlier i hi
  · unfold Tails
    rw [hcode, getElem?_patched] at hins
    rw [hcode, size_patched]
    split at hins
    · obtain ⟨earlier, hearlier, rfl⟩ := Option.map_eq_some_iff.1 hins
      obtain ⟨htail, -, hins, hbranch⟩ := h.adds.tails i earlier hi hearlier htail
      exact ⟨htail, hins, Int.natCast_nonneg _,
        Int.ofNat_lt.2 (Nat.lt_of_lt_of_le hdest h.adds.registers_le), fun _ => rfl,
        fun hno => by rw [hbranch] at hno; cases hno⟩
    · rename_i hmem
      exact absurd (h.adds.tails i ins hi hins htail).2.1 hmem

end Branches

/-! ## Expressions -/

section Expressions

variable {setting : Setting}

theorem Emits.calm {x : Writing Nat} (h : Emits setting x (Tails false)) : Calm setting x :=
  ⟨fun st => (h.adds st).mono fun _ _ ht => Bool.false_ne_true ht.1, h.kept⟩

/-- Writing that starts with a new register. -/
theorem Emits.fresh {α : Type} {f : Nat → Writing α} {T : α → State → Nat → Instruction → Prop}
    (hf : ∀ (dest : Nat) (st : State), dest < st.current.registers →
      Adds st ((f dest).result setting st).2
        (T ((f dest).result setting st).1 ((f dest).result setting st).2))
    (hkept : ∀ dest I, Kept setting I → ∀ n, Leads setting (I n) (f dest) (I n)) :
    Emits setting (newRegister >>= f) T := by
  refine ⟨fun st => ?_, fun I h n => (h.newRegister n).bind fun dest => hkept dest I h n⟩
  have hnew : Adds st (newRegister.result setting st).2 fun _ _ => False := Calm.newRegister.adds st
  exact (hnew.mono fun _ _ => False.elim).trans
    (hf st.current.registers (newRegister.result setting st).2 (Nat.lt_succ_self _))

/-- The last instruction of a unit may be a call in tail position. -/
theorem Adds.last {st : State} {token : Token} {dest : Nat} {tail : Bool}
    (hheld : dest < st.current.registers) (hdest : ins.dest = dest)
    (hbranch : ins.op.isBranch = false) (htail : ins.isTail = true → tail = true) :
    Adds st (st.emit token ins) (Tails tail dest (st.emit token ins)) := by
  refine Adds.emit st token ins fun hins => ⟨htail hins, hdest, Int.natCast_nonneg _,
    Int.ofNat_lt.2 hheld, fun hyes => ?_, fun _ => ?_⟩
  · change ins.op.isBranch = true at hyes
    rw [hbranch] at hyes
    cases hyes
  · exact (Array.size_push _).symm

theorem Calm.armBlock {token : Token} {body : Expr}
    (hbody : Emits setting (expr body true) (Tails true)) :
    Calm setting (armBlock token body) :=
  (of_state fun _ => rfl).bind fun name => Calm.unit hbody (.arm token.index) name 0 token

/-- Writing arms behind others, whose branches are `before`. -/
structure Branching (setting : Setting) (x : Writing (List Nat)) (dest : Nat) (tail : Bool)
    (before : List Nat) : Prop where
  branches : ∀ st, Branches st (x.result setting st).2 dest tail before (x.result setting st).1
  kept : ∀ I, Kept setting I → ∀ n, Leads setting (I n) x (I n)

namespace Branching

variable {dest : Nat} {tail : Bool} {before : List Nat}

theorem pure : Branching setting (pure before) dest tail before :=
  ⟨fun st => .refl st, fun _ _ _ => .pure before⟩

theorem of_calm {α : Type} {x : Writing α} {f : α → Writing (List Nat)} (hx : Calm setting x)
    (hf : ∀ a, Branching setting (f a) dest tail before) :
    Branching setting (x >>= f) dest tail before where
  branches st := .of_calm (hx.adds st) ((hf (x.result setting st).1).branches (x.result setting st).2)
  kept I h n := (hx.kept I h n).bind fun a => (hf a).kept I h n

/-- An instruction that leaves the choice. -/
theorem leave (token : Token) {next : Nat → Writing (List Nat)}
    (hins : ins.isTail = true → tail = true ∧ ins.dest = dest ∧ ins.op.isBranch = true)
    (hnext : ∀ branch, Branching setting (next branch) dest tail (branch :: before)) :
    Branching setting (do
      let branch ← codeSize
      emit token ins
      next branch) dest tail before where
  branches st := .cons token hins ((hnext st.code.size).branches (st.emit token ins))
  kept I h n := .look (fun _ => rfl) fun branch => (h.emit n token ins).bind fun _ =>
    (hnext branch).kept I h n

end Branching

mutual

/-- The code of an expression has calls in tail position only where the value of the expression is
the result of the unit. -/
theorem emits_expr : ∀ (e : Expr) (tail : Bool), Emits setting (expr e tail) (Tails tail)
  | .number token _, _ => (Calm.loadConstant rfl (by simp) token).emits
  | .string token _, _ => (Calm.loadConstant rfl (by simp) token).emits
  | .boolean token _, _ => (Calm.loadConstant rfl (by simp) token).emits
  | .empty token, _ => (Calm.loadConstant rfl (by simp) token).emits
  | .name token, _ => (Calm.name token).emits
  | .negate token operand, _ =>
    (emits_expr operand false).calm.bind fun _ => Calm.newRegister.bind fun _ =>
      (Calm.emit token _ rfl).bind fun _ => .pure _
  | .binary token left right, _ => by
    unfold expr
    split
    · exact (Calm.report _ token).bind fun _ => (Calm.loadConstant rfl (by simp) token).emits
    · exact (emits_expr left false).calm.bind fun _ => (emits_expr right false).calm.bind fun _ =>
        Calm.newRegister.bind fun _ => (Calm.emit token _ rfl).bind fun _ => .pure _
  | .define token goal value, _ =>
    (emits_expr value false).calm.bind fun source => (calm_target token source goal).bind fun _ =>
      .pure _
  | .access token container key, _ =>
    (emits_expr container false).calm.bind fun _ => (emits_expr key false).calm.bind fun _ =>
      Calm.newRegister.bind fun _ => (Calm.emit token _ rfl).bind fun _ => .pure _
  | .call token callee inner, _ =>
    (Calm.checkCall token callee inner.length).bind fun _ =>
      (emits_expr callee false).calm.bind fun _ => (calm_arguments inner []).bind fun _ =>
        .fresh (fun _ _ hdest => .last hdest rfl rfl fun htail => htail) fun _ _ h n =>
          (h.emit n token _).bind fun _ => .pure _
  | .choose token subject cases, tail => by
    unfold expr
    exact (emits_expr subject false).calm.bind fun a => .fresh
      (fun dest st hdest => ((branching_arms a dest tail token cases []).branches st).patch setting hdest)
      fun dest I h n => ((branching_arms a dest tail token cases []).kept I h n).bind fun branches =>
        (h.patch n branches).bind fun _ => .pure _
  | .group token inner, tail => by
    unfold expr
    have hempty : Calm setting (loadConstant .empty token) := .loadConstant rfl (by simp) token
    refine ⟨fun st => ?_, fun I h n => ((emits_sequence inner tail).kept I h n).bind fun result => ?_⟩
    · have h := (emits_sequence inner tail).adds st
      rw [result_bind]
      generalize (sequence inner tail).result setting st = found at h ⊢
      obtain ⟨_ | result, st₁⟩ := found
      · exact (h.mono fun _ _ ⟨_, hnone, _⟩ => (by cases hnone)).trans (hempty.emits.adds st₁)
      · exact h.mono fun _ _ ⟨_, hsome, hins⟩ => Option.some.inj hsome ▸ hins
    · cases result with
      | some result => exact .pure result
      | none => exact hempty.kept I h n
  | .list token inner, _ =>
    Calm.newRegister.bind fun dest => (Calm.emit token _ rfl).bind fun _ =>
      (calm_elements dest 0 inner).bind fun _ => .pure _
  | .object token inner, _ =>
    Calm.newRegister.bind fun dest => (Calm.emit token _ rfl).bind fun _ =>
      (calm_entries dest inner).bind fun _ => .pure _
  | .function token name parameters body, tail => by
    unfold expr
    have h := (Calm.unit (emits_expr body true) (.function token.index)
      (if name.isEmpty then "<anonymous>" else name) parameters.length token).bind fun k =>
        Calm.newRegister.bind fun dest => (Calm.emit token { op := .closure, dest, k } rfl).bind
          fun _ => (Emits.pure dest : Emits setting _ (Tails tail))
    simpa only [bind_assoc] using h

theorem calm_target (token : Token) (source : Nat) :
    ∀ goal : Expr, Calm setting (target token source goal)
  | .name place => by
    unfold target
    refine (Calm.of_state fun _ => rfl).bind fun s => ?_
    split
    · exact Calm.storeBinding _ source token
    · exact Calm.report _ token
  | .empty _ => by
    unfold target
    exact .pure _
  | .access _ container key => by
    unfold target
    exact (emits_expr container false).calm.bind fun _ => (emits_expr key false).calm.bind fun _ =>
      Calm.emit token _ rfl
  | .number .. | .string .. | .boolean .. | .negate .. | .binary .. | .define .. | .call ..
  | .choose .. | .group .. | .list .. | .object .. | .function .. => by
    unfold target
    exact Calm.report _ token

theorem emits_sequence : ∀ (items : List Expr) (tail : Bool),
    Emits setting (sequence items tail) fun result st i ins =>
      ∃ r, result = some r ∧ Tails tail r st i ins
  | [], _ => .pure _
  | [e], tail => ⟨fun st => ((emits_expr e tail).adds st).mono fun _ _ hins => ⟨_, rfl, hins⟩,
      fun I h n => ((emits_expr e tail).kept I h n).bind fun _ => .pure _⟩
  | e :: next :: rest, tail =>
    (emits_expr e false).calm.bind fun _ => emits_sequence (next :: rest) tail

theorem calm_arguments : ∀ (items : List Expr) (done : List Int),
    Calm setting (arguments items done)
  | [], _ => .pure _
  | e :: rest, _ => (emits_expr e false).calm.bind fun _ => calm_arguments rest _

theorem calm_elements (dest : Nat) : ∀ (index : Nat) (items : List Expr),
    Calm setting (elements dest index items)
  | _, [] => .pure _
  | index, e :: rest =>
    (emits_expr e false).calm.bind fun _ => (Calm.loadConstant rfl (by simp) e.token).bind fun _ =>
      (Calm.emit e.token _ rfl).bind fun _ => calm_elements dest (index + 1) rest

theorem calm_entries (dest : Nat) : ∀ items : List Entry, Calm setting (entries dest items)
  | [] => .pure _
  | .mk key value :: rest =>
    (emits_expr key false).calm.bind fun _ => (emits_expr value false).calm.bind fun _ =>
      (Calm.emit key.token _ rfl).bind fun _ => calm_entries dest rest

theorem branching_arms (subject dest : Nat) (tail : Bool) (choice : Token) :
    ∀ (items : List Arm) (before : List Nat),
      Branching setting (arms subject dest tail choice items before) dest tail before
  | [], _ => .of_calm (Calm.emit choice _ rfl) fun _ => .pure
  | .otherwise token body :: _, before => by
    cases hbody : body.literal? with
    | some value =>
      unfold arms
      rw [hbody]
      exact .of_calm (.constant (Kept.object?_of_literal? hbody) (Kept.not_block_of_literal? hbody))
        fun k => .of_calm (Calm.emit token _ rfl) fun _ => .leave token nofun fun _ => .pure
    | none =>
      rw [arms_otherwise subject dest tail choice token hbody]
      exact .of_calm (.armBlock (emits_expr body true)) fun k =>
        .leave token (fun htail => ⟨htail, rfl, rfl⟩) fun _ => .pure
  | .case token pattern body :: rest, before => by
    cases hbody : body.literal? with
    | some value =>
      unfold arms
      rw [hbody]
      exact .of_calm (emits_expr pattern false).calm fun b =>
        .of_calm (.constant (Kept.object?_of_literal? hbody) (Kept.not_block_of_literal? hbody))
          fun k => .leave token nofun fun _ => branching_arms subject dest tail choice rest _
    | none =>
      rw [arms_case subject dest tail choice token pattern hbody]
      exact .of_calm (emits_expr pattern false).calm fun b =>
        .of_calm (.armBlock (emits_expr body true)) fun k =>
          .leave token (fun htail => ⟨htail, rfl, rfl⟩) fun _ =>
            branching_arms subject dest tail choice rest _

end

/-- The code of an expression keeps what every action keeps. -/
theorem Kept.expr {I : Nat → State → Prop} (h : Kept setting I) (n : Nat) (e : Expr) (tail : Bool) :
    Leads setting (I n) (expr e tail) (I n) :=
  (emits_expr e tail).kept I h n

end Expressions

end Compile

variable {natives : Text → Option Nat} {file : Text} {r : Resolution} {script : Script}

/-- The code of a program keeps what every action keeps. -/
theorem Script.written_of_closed {I : Nat → Compile.State → Prop}
    (h : Compile.Closed (script.setting natives file r) I) (hstart : I 0 {}) :
    I 0 (script.written natives file r) :=
  ((h.openUnit _ _ _ _).bind fun _ => (h.expr 1 script.body true).bind fun result =>
    h.closeUnit result script.token) {} hstart

/-- The code of a program has calls in tail position only at the end of a block. -/
theorem Block.TailSafe.of_compile {p : Program} (h : script.compile natives file r = .ok p) :
    ∀ b ∈ p.blocks, b.TailSafe := by
  obtain ⟨_, rfl⟩ := Script.compile_eq_ok h
  exact ((Compile.emits_expr script.body true).adds_unit .program (script.blockName file) 0
    script.token {}).blocks fun _ hb => absurd hb (Array.not_mem_empty _)

end Inkwell
