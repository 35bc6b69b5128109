import Mathlib
import Inkwell.Code.Compile
import Inkwell.Proofs.Heap.Labels

/-!
# What writing code keeps

The code of a program is written by a handful of actions: a new register, an instruction, a constant,
a cell taken from the units around, a unit opened and sealed. A statement about the state that each
of them keeps holds after the code of any expression has been written.

Such a statement may speak of the units that are open, so it depends on how many more of them there
are than where it started: opening a unit adds one, and sealing one takes it away.
-/

namespace Inkwell

namespace Compile

/-- What writing gives, and the state it leaves. -/
def Writing.result {α : Type} (x : Writing α) (setting : Setting) (st : State) : α × State :=
  (x.run setting).run st

section Results

variable {α β : Type} {setting : Setting} {st : State}

theorem result_pure (a : α) : (pure a : Writing α).result setting st = (a, st) := rfl

theorem result_bind (x : Writing α) (f : α → Writing β) :
    (x >>= f).result setting st =
      (f (x.result setting st).1).result setting (x.result setting st).2 := rfl

theorem result_read : (read : Writing Setting).result setting st = (setting, st) := rfl

end Results

/-! ## Opening and sealing units -/

/-- The places of the bindings that a unit holds. -/
def Setting.held (setting : Setting) (unit : CodeUnit) : List Nat :=
  (setting.frames[unit]?.getD []).reverse

/-- The draft of a unit of which nothing is written yet. -/
def Setting.draft (setting : Setting) (unit : CodeUnit) (name : Text) (parameters place : Nat) :
    Draft :=
  let assigned := assignSlots setting.resolution parameters (setting.held unit)
  { block := { id := place, name, params := parameters }, place, slots := assigned.1
    registers := assigned.2 }

/-- The state in which a unit has been opened. -/
def State.opened (st : State) (setting : Setting) (unit : CodeUnit) (name : Text)
    (parameters : Nat) : State :=
  { st with
    blocks := st.blocks.push {}
    outer := st.current :: st.outer
    current := setting.draft unit name parameters st.blocks.size }

/-- The block of a draft whose value is in the register `ret`. -/
def Draft.sealed (d : Draft) (ret : Nat) : Block := { d.block with ret, slots := d.registers }

/-- The state in which the current unit, whose value is in the register `ret`, has been sealed. -/
def State.sealed (st : State) (ret : Nat) : State :=
  { st with
    blocks := st.blocks.setIfInBounds st.current.place (st.current.sealed ret)
    current := st.outer.headD {}
    outer := st.outer.tail }

/-- The instruction that gives a held binding its cell, if it lives in one. -/
def Setting.cell? (setting : Setting) (slots : Std.HashMap Nat Nat) (place : Nat) :
    Option Instruction :=
  let b := setting.resolution.bindings[place]?.getD default
  if b.escapes then
    let slot := slots[place]?.getD 0
    some { op := .makeCell, dest := slot, a := if b.parameter.isSome then (slot : Int) else -1 }
  else none

theorem Setting.cell?_of_escapes (setting : Setting) (slots : Std.HashMap Nat Nat) {place : Nat}
    (h : (setting.resolution.bindings[place]?.getD default).escapes = true) :
    setting.cell? slots place = some {
      op := .makeCell
      dest := slots[place]?.getD 0
      a := if (setting.resolution.bindings[place]?.getD default).parameter.isSome then
        ((slots[place]?.getD 0 : Nat) : Int) else -1 } := by
  unfold Setting.cell?
  simp only [h, if_true]

theorem Setting.cell?_of_stays (setting : Setting) (slots : Std.HashMap Nat Nat) {place : Nat}
    (h : ¬ (setting.resolution.bindings[place]?.getD default).escapes = true) :
    setting.cell? slots place = none := by
  unfold Setting.cell?
  simp only [h, if_false, Bool.false_eq_true]

/-- The instructions that give the bindings of a unit their cells. -/
def Setting.cells (setting : Setting) (unit : CodeUnit) (parameters : Nat) : List Instruction :=
  (setting.held unit).filterMap
    (setting.cell? (assignSlots setting.resolution parameters (setting.held unit)).1)

/-- The state with one more instruction, at the position of a token. -/
def State.emit (st : State) (token : Token) (ins : Instruction) : State :=
  { st with current := st.current.emit { ins with position := token.position } }

/-- The state with several more instructions, at the position of a token. -/
def State.emitAll (st : State) (token : Token) (code : List Instruction) : State :=
  code.foldl (fun st ins => st.emit token ins) st

/-- The state with one more problem if the current unit has too many registers. -/
def State.checked (st : State) (setting : Setting) (token : Token) : State :=
  if Program.maxRegisters < st.current.registers then
    ((report (.tooManyRegisters st.current.block.name st.current.registers Program.maxRegisters)
      token).result setting st).2
  else st

section Results

variable {setting : Setting} {st : State}

theorem result_emit (token : Token) (ins : Instruction) :
    (emit token ins).result setting st = ((), st.emit token ins) := rfl

/-- Giving the bindings of a unit their cells, one after another. -/
theorem result_forIn_emit (setting : Setting) (st : State) (token : Token) (slots : Std.HashMap Nat Nat) (places : List Nat) :
    (forIn (m := Writing) places () fun place (_ : Unit) =>
      let b := setting.resolution.bindings[place]?.getD default
      if b.escapes then do
        let slot := slots[place]?.getD 0
        emit token
          { op := .makeCell, dest := slot, a := if b.parameter.isSome then (slot : Int) else -1 }
        pure (ForInStep.yield ())
      else pure (ForInStep.yield ())).result setting st =
    ((), st.emitAll token (places.filterMap (setting.cell? slots))) := by
  induction places generalizing st with
  | nil => rfl
  | cons place rest ih =>
    rw [List.forIn_cons, result_bind]
    by_cases hescapes : (setting.resolution.bindings[place]?.getD default).escapes = true
    · rw [if_pos hescapes]
      rw [List.filterMap_cons_some (setting.cell?_of_escapes slots hescapes)]
      exact ih (st.emit token _)
    · rw [if_neg hescapes]
      rw [List.filterMap_cons_none (setting.cell?_of_stays slots hescapes)]
      exact ih st

theorem result_openUnit (unit : CodeUnit) (name : Text) (parameters : Nat) (token : Token) :
    (openUnit unit name parameters token).result setting st =
      ((), (st.opened setting unit name parameters).emitAll token (setting.cells unit parameters)) := by
  unfold openUnit
  exact congrArg (fun result => ((), result.2))
    (result_forIn_emit setting (st.opened setting unit name parameters) token _ _)

theorem result_closeUnit_some (ret : Nat) (token : Token) :
    (closeUnit (some ret) token).result setting st =
      (st.current.place, (st.checked setting token).sealed ret) := by
  unfold State.checked
  change (if Program.maxRegisters < st.current.registers then _ else _ : Writing Nat).result setting
    st = _
  split <;> rfl

/-- A unit without a value gets the empty one. -/
theorem closeUnit_eq (result : Option Nat) (token : Token) :
    closeUnit result token = (do
      let ret ← match result with
        | some r => pure r
        | none => loadConstant .empty token
      closeUnit (some ret) token) := by
  cases result <;> rfl

end Results

/-! ## Arms -/

/-- The code of at least one expression has a value. -/
theorem exists_sequence_eq (tail : Bool) (e : Expr) (rest : List Expr) :
    ∃ x : Writing Nat, sequence (e :: rest) tail = some <$> x := by
  induction rest generalizing e with
  | nil => exact ⟨expr e tail, by simp only [sequence, map_eq_pure_bind]⟩
  | cons next rest ih =>
    obtain ⟨x, hx⟩ := ih next
    exact ⟨expr e false >>= fun _ => x, by simp [sequence, hx]⟩

/-- The block of an arm, which is nested in the current unit. -/
def armBlock (token : Token) (body : Expr) : Writing Nat := do
  openUnit (.arm token.index) (← armName) 0 token
  let result ← expr body true
  nested (← closeUnit (some result) token)

/-- A group behind an arrow is written as any other expression. -/
theorem armResult_eq {α : Type} (body : Expr) (next : Option Nat → Writing α) :
    (match body with
      | .group _ (first :: rest) => sequence (first :: rest) true >>= next
      | body => some <$> expr body true >>= next) = expr body true >>= fun r => next (some r) := by
  split
  · rename_i token first rest
    obtain ⟨x, hx⟩ := exists_sequence_eq true first rest
    simp [expr, hx]
  · simp

theorem arms_otherwise (subject dest : Nat) (tail : Bool) (choice token : Token) {body : Expr}
    (hbody : body.literal? = none) (rest : List Arm) (branches : List Nat) :
    arms subject dest tail choice (.otherwise token body :: rest) branches = (do
      let k ← armBlock token body
      let branch ← codeSize
      emit token { op := .callArm, dest, k, tail }
      return branch :: branches) := by
  unfold arms
  rw [hbody]
  simp only [armBlock, bind_assoc]
  exact bind_congr fun name => bind_congr fun _ => armResult_eq body _

theorem arms_case (subject dest : Nat) (tail : Bool) (choice token : Token) (pattern : Expr)
    {body : Expr} (hbody : body.literal? = none) (rest : List Arm) (branches : List Nat) :
    arms subject dest tail choice (.case token pattern body :: rest) branches = (do
      let b ← expr pattern false
      let k ← armBlock token body
      let branch ← codeSize
      emit token { op := .callIfEqual, dest, a := subject, b, k, tail }
      arms subject dest tail choice rest (branch :: branches)) := by
  rw [arms, hbody]
  simp only [armBlock, bind_assoc]
  exact bind_congr fun b => bind_congr fun name => bind_congr fun _ => armResult_eq body _

/-! ## Invariants -/

/-- Writing that starts where `P` holds ends where `Q` does. -/
def Leads (setting : Setting) (P : State → Prop) {α : Type} (x : Writing α) (Q : State → Prop) :
    Prop :=
  ∀ st, P st → Q (x.result setting st).2

namespace Leads

variable {setting : Setting} {P Q R : State → Prop} {α β : Type}

theorem pure (a : α) : Leads setting P (pure a) P := fun _ h => h

theorem bind {x : Writing α} {f : α → Writing β} (hx : Leads setting P x Q)
    (hf : ∀ a, Leads setting Q (f a) R) : Leads setting P (x >>= f) R :=
  fun st h => hf (x.result setting st).1 (x.result setting st).2 (hx st h)

/-- A look at the state or the setting. -/
theorem look {x : Writing α} {f : α → Writing β} (hx : ∀ st, (x.result setting st).2 = st)
    (hf : ∀ a, Leads setting P (f a) Q) : Leads setting P (x >>= f) Q :=
  bind (fun st h => (hx st).symm ▸ h) hf

end Leads

/-- A statement about the state that every action inside a program keeps; the number says how many
units have been opened since. -/
structure Kept (setting : Setting) (I : Nat → State → Prop) : Prop where
  report : ∀ n problem token, Leads setting (I n) (report problem token) (I n)
  newRegister : ∀ n, Leads setting (I n) newRegister (I n)
  emit : ∀ n token ins, Leads setting (I n) (emit token ins) (I n)
  constant : ∀ n value, value.object? = none → (∀ place, value ≠ .block place) →
    Leads setting (I n) (constant value) (I n)
  capture : ∀ n binding, Leads setting (I n) (capture binding) (I n)
  nested : ∀ n st ret, I (n + 1) st →
    I n ((nested st.current.place).result setting (st.sealed ret)).2
  patch : ∀ n branches, Leads setting (I n) (patch branches) (I n)
  opened : ∀ n st unit name parameters, I n st → I (n + 1) (st.opened setting unit name parameters)

/-- A statement about the state that every action keeps, also the end of a unit that is nested in no
other. -/
structure Closed (setting : Setting) (I : Nat → State → Prop) : Prop extends Kept setting I where
  sealed : ∀ n st ret, I (n + 1) st → I n (st.sealed ret)

namespace Kept

variable {setting : Setting} {I : Nat → State → Prop} {n : Nat}

section

variable (h : Kept setting I)

include h

theorem emitAll (token : Token) (code : List Instruction) (st : State)
    (hst : I n st) : I n (st.emitAll token code) := by
  induction code generalizing st with
  | nil => exact hst
  | cons ins rest ih => exact ih _ (h.emit n token ins st hst)

theorem openUnit (unit : CodeUnit) (name : Text) (parameters : Nat) (token : Token) :
    Leads setting (I n) (openUnit unit name parameters token) (I (n + 1)) := by
  intro st hst
  rw [result_openUnit]
  exact h.emitAll token _ _ (h.opened n st unit name parameters hst)

/-- A unit is closed and nested in the one around it. -/
theorem closeNested (result : Nat) (token : Token) :
    Leads setting (I (n + 1)) (Compile.closeUnit (some result) token >>= Compile.nested) (I n) := by
  intro st hst
  have hchecked : I (n + 1) (st.checked setting token) ∧
      (st.checked setting token).current.place = st.current.place := by
    unfold State.checked
    split
    · exact ⟨h.report (n + 1) _ token st hst, rfl⟩
    · exact ⟨hst, rfl⟩
  rw [result_bind, result_closeUnit_some, ← hchecked.2]
  exact h.nested n _ result hchecked.1

end

theorem object?_of_literal? {e : Expr} {value : Datum} (h : e.literal? = some value) :
    value.object? = none := by
  cases e with
  | number | string | boolean | empty => cases h; rfl
  | _ => cases h

theorem not_block_of_literal? {e : Expr} {value : Datum} (h : e.literal? = some value) :
    ∀ place, value ≠ .block place := by
  cases e with
  | number | string | boolean | empty =>
    cases h
    exact nofun
  | _ => cases h

end Kept

/-- The end of a unit that is nested in no other. -/
theorem Closed.closeUnit {setting : Setting} {I : Nat → State → Prop} {n : Nat}
    (h : Closed setting I) (ret : Nat) (token : Token) :
    Leads setting (I (n + 1)) (closeUnit (some ret) token) (I n) := by
  intro st hst
  rw [result_closeUnit_some]
  refine h.sealed n _ ret ?_
  unfold State.checked
  split
  · exact h.report (n + 1) _ token st hst
  · exact hst

end Compile

/-! ## Programs -/

namespace Script

variable (natives : Text → Option Nat) (file : Text) (r : Resolution) (script : Script)

/-- What is known to every part of a program while its code is written. -/
def setting : Compile.Setting where
  natives
  file
  resolution := r.markEscapes script
  frames := (r.markEscapes script).frames

/-- The name of the block of a program. -/
def blockName : Text :=
  if !file.isEmpty then file else if !script.file.isEmpty then script.file else "<program>"

/-- The expressions of a program as one. -/
def body : Expr := .group script.token script.items

/-- The writing of the code of a program, which is that of a unit like any other. -/
def writing : Compile.Writing Nat := do
  Compile.openUnit .program (script.blockName file) 0 script.token
  let result ← Compile.expr script.body true
  Compile.closeUnit (some result) script.token

theorem writing_eq : script.writing file = (do
    Compile.openUnit .program (script.blockName file) 0 script.token
    let result ← Compile.sequence script.items true
    Compile.closeUnit result script.token) := by
  unfold writing body Compile.expr
  refine bind_congr fun _ => ?_
  rw [bind_assoc]
  refine bind_congr fun result => ?_
  rw [Compile.closeUnit_eq result]
  cases result <;> rfl

/-- What has been written when the code of a program is complete. -/
def written : Compile.State :=
  ((script.writing file).result (script.setting natives file r) {}).2

variable {natives file r script}

theorem compile_eq : script.compile natives file r =
    if (script.written natives file r).problems.isEmpty then
      .ok ⟨(script.written natives file r).blocks⟩
    else .error (script.written natives file r).problems.reverse := by
  unfold written
  rw [writing_eq]
  rfl

theorem compile_eq_ok {p : Program} (h : script.compile natives file r = .ok p) :
    (script.written natives file r).problems = [] ∧ p = ⟨(script.written natives file r).blocks⟩ := by
  rw [compile_eq] at h
  split at h
  · rename_i hproblems
    exact ⟨List.isEmpty_iff.1 hproblems, (Except.ok.inj h).symm⟩
  · cases h

end Script

end Inkwell
