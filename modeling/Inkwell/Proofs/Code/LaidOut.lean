import Mathlib
import Inkwell.Proofs.Code.Drafts

/-!
# Code is written as it is laid out

Every action only adds to what is written, so what an action writes is still there in the finished
code (`Writes`). What is added to the units around, the cells that they pass on, keeps the chain of
units together: each takes its cells from the next, up to the unit that holds the binding (`Ready`).
The targets of the branches of a choice are the one thing that changes later, once it is complete.
-/

namespace Inkwell

open List Resolution

namespace Compile

/-! ## States -/

/-- A draft of a unit: its bindings have their registers, and the constants that may be shared are
where they are said to be. -/
structure Draft.Of (setting : Setting) (unit : CodeUnit) (d : Draft) : Prop where
  slots : ∃ parameters, d.slots = (assignSlots setting.resolution parameters (setting.held unit)).1
  known : ∀ (v : Datum) (i : Nat), d.known[v]? = some i → d.block.constants[i]? = some v

theorem Draft.Of.passes {setting : Setting} {unit : CodeUnit} {d d' : Draft}
    (h : d.Of setting unit) (hpasses : d.Passes d') : d'.Of setting unit where
  slots := hpasses.grows.slots ▸ h.slots
  known := by
    rw [hpasses.known, hpasses.constants]
    exact h.known

section Drafts

variable {setting : Setting} {units : List CodeUnit} {drafts drafts' : List Draft}

theorem Draft.exists_of_mem (h : List.Forall₂ (Draft.Of setting) units drafts) {unit : CodeUnit}
    (hunit : unit ∈ units) : ∃ d ∈ drafts, d.Of setting unit := by
  induction h with
  | nil => cases hunit
  | @cons u d _ _ hd _ ih =>
    rcases mem_cons.1 hunit with rfl | hunit
    · exact ⟨d, mem_cons_self, hd⟩
    · obtain ⟨d', hd', hof⟩ := ih hunit
      exact ⟨d', mem_cons_of_mem _ hd', hof⟩

theorem Draft.all_of_passes (h : List.Forall₂ (Draft.Of setting) units drafts)
    (hpasses : List.Forall₂ Draft.Passes drafts drafts') :
    List.Forall₂ (Draft.Of setting) units drafts' := by
  induction h generalizing drafts' with
  | nil => cases hpasses; exact .nil
  | cons hd _ ih =>
    cases hpasses with
    | cons hp hps => exact .cons (hd.passes hp) (ih hps)

end Drafts

/-- A unit has a register for each of its bindings, and for no other. -/
theorem Draft.Of.isSome_slot {setting : Setting} (hframes : setting.frames = setting.resolution.frames)
    {unit : CodeUnit} {d : Draft} (h : d.Of setting unit) {binding : Nat} {b : Binding}
    (hb : setting.resolution.bindings[binding]? = some b) :
    (d.slots[binding]?).isSome ↔ b.owner = unit := by
  obtain ⟨parameters, hslots⟩ := h.slots
  rw [hslots, assignSlots_isSome, Setting.held, hframes, mem_getD_frames, hb]
  simp

/-- The current unit and those around it are some units, each with a draft, and each takes its cells
from the next. -/
structure Ready (setting : Setting) (units : List CodeUnit) (st : State) : Prop where
  drafts : ∃ drafts, st.current :: st.outer = drafts ++ [.blank] ∧
    List.Forall₂ (Draft.Of setting) units drafts
  chain : List.IsChain (Draft.Links setting.resolution) (st.current :: st.outer)

/-- How far the current unit has come. -/
def State.mark (st : State) : Mark := st.current.mark

/-- What is written is still there later. -/
structure State.Grows (st st' : State) : Prop where
  current : st.current.Grows st'.current
  outer : List.Forall₂ Draft.Passes st.outer st'.outer
  size_le : st.code.size ≤ st'.code.size
  code : ∀ i < st.code.size, st'.code[i]? = st.code[i]?
  blocks_le : st.blocks.size ≤ st'.blocks.size
  blocks : ∀ place < st.blocks.size, st'.blocks[place]? = st.blocks[place]?
  problems : st'.problems = [] → st.problems = []

theorem Draft.Passes.trans {d d' d'' : Draft} (h : d.Passes d') (h' : d'.Passes d'') :
    d.Passes d'' :=
  ⟨h.grows.trans h'.grows, h'.text.trans h.text, h'.constants.trans h.constants,
    h'.known.trans h.known⟩

namespace State.Grows

variable {st st' st'' : State}

theorem refl (st : State) : st.Grows st :=
  ⟨.refl _, forall₂_same.2 fun d _ => .refl d, Nat.le_refl _, fun _ _ => rfl, Nat.le_refl _,
    fun _ _ => rfl, id⟩

theorem trans (h : st.Grows st') (h' : st'.Grows st'') : st.Grows st'' where
  current := h.current.trans h'.current
  outer := by
    have houter := h.outer
    have houter' := h'.outer
    generalize st.outer = a, st'.outer = b, st''.outer = c at houter houter'
    induction houter generalizing c with
    | nil => cases houter'; exact .nil
    | cons hd _ ih =>
      cases houter' with
      | cons hd' hrest => exact .cons (hd.trans hd') (ih _ hrest)
  size_le := Nat.le_trans h.size_le h'.size_le
  code i hi := (h'.code i (Nat.lt_of_lt_of_le hi h.size_le)).trans (h.code i hi)
  blocks_le := Nat.le_trans h.blocks_le h'.blocks_le
  blocks place hplace :=
    (h'.blocks place (Nat.lt_of_lt_of_le hplace h.blocks_le)).trans (h.blocks place hplace)
  problems hnil := h.problems (h'.problems hnil)

/-- Only the current unit is written to. -/
theorem of_current (hcurrent : st.current.Grows st'.current) (houter : st'.outer = st.outer)
    (hblocks : st'.blocks = st.blocks) (hproblems : st'.problems = st.problems)
    (hsize : st.code.size ≤ st'.code.size) (hcode : ∀ i < st.code.size, st'.code[i]? = st.code[i]?) :
    st.Grows st' where
  current := hcurrent
  outer := houter ▸ forall₂_same.2 fun d _ => .refl d
  size_le := hsize
  code := hcode
  blocks_le := Nat.le_of_eq (congrArg Array.size hblocks.symm)
  blocks _ _ := by rw [hblocks]
  problems := hproblems ▸ id

end State.Grows

/-- The drafts of the units at places below `mid`, and of those behind. -/
def joined (mid : Nat) (closed closed' : Nat → Draft) : Nat → Draft := fun place =>
  if place < mid then closed place else closed' place

/-- What has been written between two states is in the layout, with `code` in the end; `closed` are the
drafts of the units that were finished in between. -/
structure Layout.Keeps (L : Layout) (closed : Nat → Draft) (code : Array Instruction)
    (st st' : State) : Prop where
  grows : st'.current.Grows L.unit
  code : ∀ i, st.code.size ≤ i → i < st'.code.size → L.unit.block.code[i]? = code[i]?
  blocks : ∀ place, st.blocks.size ≤ place → place < st'.blocks.size →
    L.blocks[place]? = st'.blocks[place]? ∧ L.units place = closed place

namespace Layout.Keeps

variable {L : Layout} {closed closed' : Nat → Draft} {code : Array Instruction} {st st' st'' : State}

theorem left (h : L.Keeps (joined st'.blocks.size closed closed') code st st'')
    (hgrows : st'.Grows st'')
    (hcode : ∀ i, st.code.size ≤ i → i < st'.code.size → code[i]? = st'.code[i]?) :
    L.Keeps closed st'.code st st' where
  grows := hgrows.current.trans h.grows
  code i hi hi' := (h.code i hi (Nat.lt_of_lt_of_le hi' hgrows.size_le)).trans (hcode i hi hi')
  blocks place hplace hplace' := by
    obtain ⟨hblock, hunit⟩ := h.blocks place hplace (Nat.lt_of_lt_of_le hplace' hgrows.blocks_le)
    exact ⟨hblock.trans (hgrows.blocks place hplace'), hunit.trans (if_pos hplace')⟩

theorem later (h : L.Keeps closed code st st'') (hgrows : st.Grows st') :
    L.Keeps closed code st' st'' where
  grows := h.grows
  code i hi := h.code i (Nat.le_trans hgrows.size_le hi)
  blocks place hplace := h.blocks place (Nat.le_trans hgrows.blocks_le hplace)

theorem right (h : L.Keeps (joined st'.blocks.size closed closed') code st st'')
    (hgrows : st.Grows st') : L.Keeps closed' code st' st'' :=
  { h.later hgrows with
    blocks place hplace hplace' := by
      obtain ⟨hblock, hunit⟩ := (h.later hgrows).blocks place hplace hplace'
      exact ⟨hblock, hunit.trans (if_neg (Nat.not_lt.2 hplace))⟩ }

end Layout.Keeps

/-! ## What is written is laid out -/

section Writes

variable {setting : Setting} {units : List CodeUnit} {α β : Type}

/-- Writing only adds to what is written, and where the finished code has what it adds, it is laid out
as `P` says. -/
def Writes (setting : Setting) (units : List CodeUnit) (x : Writing α)
    (P : Layout → Mark → Mark → α → Prop) : Prop :=
  ∀ st, Ready setting units st →
    Ready setting units (x.result setting st).2 ∧ st.Grows (x.result setting st).2 ∧
      ((x.result setting st).2.problems = [] → ∃ closed, ∀ L : Layout, L.setting = setting →
        L.Keeps closed (x.result setting st).2.code st (x.result setting st).2 →
          P L st.mark (x.result setting st).2.mark (x.result setting st).1)

namespace Writes

variable {x : Writing α} {P P' : Layout → Mark → Mark → α → Prop} {f : α → Writing β}
  {Q : α → Layout → Mark → Mark → β → Prop}

theorem mono (h : Writes setting units x P)
    (hP : ∀ L s t a, L.setting = setting → P L s t a → P' L s t a) : Writes setting units x P' := by
  intro st hst
  obtain ⟨hready, hgrows, hlaid⟩ := h st hst
  refine ⟨hready, hgrows, fun hnil => ?_⟩
  obtain ⟨closed, hclosed⟩ := hlaid hnil
  exact ⟨closed, fun L hL hkeeps => hP L _ _ _ hL (hclosed L hL hkeeps)⟩

/-- One after the other; the second need only do for what the first can give. -/
theorem bind_of (hx : Writes setting units x P)
    (hf : ∀ st, Ready setting units st →
      Writes setting units (f (x.result setting st).1) (Q (x.result setting st).1)) :
    Writes setting units (x >>= f) fun L s t b => ∃ m a, P L s m a ∧ Q a L m t b := by
  intro st hst
  obtain ⟨hready, hgrows, hlaid⟩ := hx st hst
  obtain ⟨hready', hgrows', hlaid'⟩ := hf st hst _ hready
  refine ⟨hready', hgrows.trans hgrows', fun hnil => ?_⟩
  obtain ⟨closed, hclosed⟩ := hlaid (hgrows'.problems hnil)
  obtain ⟨closed', hclosed'⟩ := hlaid' hnil
  refine ⟨joined (x.result setting st).2.blocks.size closed closed', fun L hL hkeeps => ?_⟩
  exact ⟨_, _, hclosed L hL (hkeeps.left hgrows' fun i _ => hgrows'.code i),
    hclosed' L hL (hkeeps.right hgrows)⟩

/-- Writing that finishes no unit. -/
theorem of_laid {st st' : State} {R : Layout → Prop}
    (h : ∀ L : Layout, L.setting = setting → st'.current.Grows L.unit →
      (∀ i, st.code.size ≤ i → i < st'.code.size → L.unit.block.code[i]? = st'.code[i]?) → R L) :
    ∃ closed, ∀ L : Layout, L.setting = setting → L.Keeps closed st'.code st st' → R L :=
  ⟨fun _ => .blank, fun L hL hkeeps => h L hL hkeeps.grows hkeeps.code⟩

theorem bind (hx : Writes setting units x P) (hf : ∀ a, Writes setting units (f a) (Q a)) :
    Writes setting units (x >>= f) fun L s t b => ∃ m a, P L s m a ∧ Q a L m t b :=
  hx.bind_of fun _ _ => hf _

theorem pure (a : α) : Writes setting units (pure a) fun _ s t b => t = s ∧ b = a :=
  fun st hst => ⟨hst, .refl st, fun _ => of_laid fun _ _ _ _ => ⟨rfl, rfl⟩⟩

/-- A look at the state or the setting. -/
theorem look (hx : ∀ st, (x.result setting st).2 = st)
    (hP : ∀ st, ∀ L : Layout, L.setting = setting → st.current.Grows L.unit →
      P L st.mark st.mark (x.result setting st).1) : Writes setting units x P := by
  intro st hst
  rw [hx st]
  exact ⟨hst, .refl st, fun _ => of_laid fun L hL hgrows _ => hP st L hL hgrows⟩

theorem slot? (binding : Nat) : Writes setting units (slot? binding) fun L s t slot =>
    t = s ∧ slot = L.unit.slots[binding]? := by
  refine look (fun _ => rfl) fun st L _ hgrows => ⟨rfl, ?_⟩
  rw [hgrows.slots]
  rfl

theorem escapes (binding : Nat) : Writes setting units (escapes binding) fun L s t escapes =>
    t = s ∧ escapes = L.escapes binding := by
  refine look (fun _ => rfl) fun st L hL _ => ⟨rfl, ?_⟩
  rw [Layout.escapes, hL]
  rfl

end Writes

/-! ## One action -/

variable {unit : CodeUnit}

theorem ready_cons {st : State} : Ready setting (unit :: units) st ↔
    ∃ rest, st.outer = rest ++ [.blank] ∧ st.current.Of setting unit ∧
      List.Forall₂ (Draft.Of setting) units rest ∧
        List.IsChain (Draft.Links setting.resolution) (st.current :: (rest ++ [.blank])) := by
  constructor
  · rintro ⟨⟨drafts, hdrafts, hall⟩, hchain⟩
    cases hall with
    | @cons _ d _ rest hd hrest =>
      rw [cons_append, List.cons.injEq] at hdrafts
      obtain ⟨rfl, houter⟩ := hdrafts
      exact ⟨rest, houter, hd, hrest, houter ▸ hchain⟩
  · rintro ⟨rest, houter, hd, hrest, hchain⟩
    exact ⟨⟨st.current :: rest, by rw [houter, cons_append], .cons hd hrest⟩, houter ▸ hchain⟩

/-- The current unit changes, but not its cells, and nothing else does. -/
theorem Ready.of_current {st st' : State} (h : Ready setting (unit :: units) st)
    (houter : st'.outer = st.outer) (hof : st'.current.Of setting unit)
    (hcaptured : st'.current.captured = st.current.captured)
    (hbinds : st'.current.block.binds = st.current.block.binds) :
    Ready setting (unit :: units) st' := by
  obtain ⟨rest, hrest, -, hall, hchain⟩ := ready_cons.1 h
  obtain ⟨parent, outer, hcons⟩ : ∃ parent outer, rest ++ [.blank] = parent :: outer :=
    exists_cons_of_ne_nil (by simp)
  refine ready_cons.2 ⟨rest, houter.trans hrest, hof, hall, ?_⟩
  rw [hcons] at hchain ⊢
  obtain ⟨hlinks, hchain⟩ := isChain_cons_cons.1 hchain
  exact isChain_cons_cons.2 ⟨hlinks.congr hcaptured hbinds, hchain⟩

namespace Writes

theorem report (problem : Problem) (token : Token) :
    Writes setting (unit :: units) (report problem token) fun _ _ _ _ => False := by
  intro st hst
  refine ⟨⟨hst.drafts, hst.chain⟩, ⟨.refl _, forall₂_same.2 fun d _ => .refl d, Nat.le_refl _,
    fun _ _ => rfl, Nat.le_refl _, fun _ _ => rfl, fun hnil => ?_⟩, fun hnil => ?_⟩
  · cases hnil
  · cases hnil

theorem newRegister : Writes setting (unit :: units) newRegister fun _ s t r =>
    r = s.registers ∧ t = s.fresh := by
  intro st hst
  obtain ⟨rest, -, hof, -, -⟩ := ready_cons.1 hst
  refine ⟨hst.of_current rfl ⟨hof.slots, hof.known⟩ rfl rfl, .of_current ?_ rfl rfl rfl (Nat.le_refl _)
    fun _ _ => rfl, fun _ => of_laid fun _ _ _ _ => ⟨rfl, rfl⟩⟩
  exact ⟨rfl, rfl, rfl, rfl, fun _ _ h => h, fun _ _ h => h, fun _ _ h => h⟩

theorem emit (token : Token) (ins : Instruction) :
    Writes setting (unit :: units) (emit token ins) fun L s t _ => L.HasCode token ins s t := by
  intro st hst
  obtain ⟨rest, -, hof, -, -⟩ := ready_cons.1 hst
  have hcode : (st.emit token ins).code = st.code.push { ins with position := token.position } := rfl
  rw [result_emit]
  refine ⟨hst.of_current rfl ⟨hof.slots, hof.known⟩ rfl rfl, .of_current ?_ rfl rfl rfl ?_ ?_, ?_⟩
  · exact ⟨rfl, rfl, rfl, rfl, fun _ _ h => h, fun _ _ h => h, fun _ _ h => h⟩
  · rw [hcode, Array.size_push]
    exact Nat.le_succ _
  · intro i hi
    rw [hcode, Array.getElem?_push_lt hi, Array.getElem?_eq_getElem hi]
  · refine fun _ => of_laid fun L _ _ hkept => ⟨?_, Mark.ext ?_ rfl rfl⟩
    · have hat := hkept st.code.size (Nat.le_refl _) (by rw [hcode, Array.size_push]; omega)
      rw [hcode, Array.getElem?_push_size] at hat
      exact hat
    · exact (congrArg Array.size hcode).trans (Array.size_push _)

/-- An instruction, and what follows it. -/
theorem after (token : Token) (ins : Instruction) {y : Writing α} {P : Layout → Mark → Mark → α → Prop}
    (h : Writes setting (unit :: units) y P) :
    Writes setting (unit :: units) (do
      Compile.emit token ins
      y) fun L s t a => ∃ m, L.HasCode token ins s m ∧ P L m t a := by
  refine ((emit token ins).bind fun _ => h).mono ?_
  rintro L s t a - ⟨m, _, hcode, hnext⟩
  exact ⟨m, hcode, hnext⟩

/-- A result in a new register. -/
theorem into {y : Nat → Writing Unit} {P : Nat → Layout → Mark → Mark → Prop}
    (h : ∀ dest, Writes setting (unit :: units) (y dest) fun L s t _ => P dest L s t) :
    Writes setting (unit :: units) (do
      let dest ← Compile.newRegister
      y dest
      return dest) fun L s t r => r = s.registers ∧ P r L s.fresh t := by
  refine (newRegister.bind fun dest => (h dest).bind fun _ => pure dest).mono ?_
  rintro L s t r - ⟨_, dest, ⟨rfl, rfl⟩, _, _, hy, rfl, rfl⟩
  exact ⟨rfl, hy⟩

/-- A constant is added to the current unit. -/
theorem pushed {st st' : State} (hst : Ready setting (unit :: units) st) (value : Datum)
    (known : Std.HashMap Datum Nat)
    (hst' : st' = { st with
      current.block.constants := st.current.block.constants.push value, current.known := known })
    (hknown : ∀ (v : Datum) (i : Nat), known[v]? = some i → st.current.known[v]? = some i ∨
      (v = value ∧ i = st.current.block.constants.size)) :
    Ready setting (unit :: units) st' ∧ st.Grows st' := by
  subst hst'
  obtain ⟨rest, -, hof, -, -⟩ := ready_cons.1 hst
  refine ⟨hst.of_current rfl ⟨hof.slots, fun v i hi => ?_⟩ rfl rfl,
    .of_current ⟨rfl, rfl, rfl, rfl, fun _ _ h => h, fun _ _ h => h, fun i v hv => ?_⟩ rfl rfl rfl
      (Nat.le_refl _) fun _ _ => rfl⟩
  · rcases hknown v i hi with hi | ⟨rfl, rfl⟩
    · exact getElem?_push_of_some (hof.known v i hi) value
    · exact Array.getElem?_push_size
  · exact getElem?_push_of_some hv value

theorem nested (place : Nat) : Writes setting (unit :: units) (nested place) fun L s t k =>
    L.HasConstant (.block place) k ∧ t = s.nest place := by
  intro st hst
  obtain ⟨hready, hgrows⟩ := pushed hst (.block place) st.current.known rfl fun _ _ hi => .inl hi
  refine ⟨hready, hgrows, fun _ => of_laid fun L _ hkept _ => ⟨?_, ?_⟩⟩
  · exact hkept.constants _ _ Array.getElem?_push_size
  · exact Mark.ext rfl rfl (children_push st.current.block (.block place))

theorem constant {value : Datum} (hvalue : ∀ place, value ≠ .block place) :
    Writes setting (unit :: units) (constant value) fun L s t k => L.HasConstant value k ∧ t = s := by
  intro st hst
  have hresult : (Compile.constant value).result setting st =
      ((st.current.constant value).1, { st with current := (st.current.constant value).2 }) := rfl
  rw [hresult]
  unfold Draft.constant
  split
  · rename_i place hplace
    obtain ⟨rest, -, hof, -, -⟩ := ready_cons.1 hst
    exact ⟨hst, .refl st, fun _ => of_laid fun L _ hkept _ =>
      ⟨hkept.constants _ _ (hof.known _ _ hplace), rfl⟩⟩
  · obtain ⟨hready, hgrows⟩ := pushed hst value
      (st.current.known.insert value st.current.block.constants.size) rfl fun v i hi => by
        rw [Std.HashMap.getElem?_insert] at hi
        split at hi
        · rename_i heq
          cases hi
          exact .inr ⟨(beq_iff_eq.1 heq).symm, rfl⟩
        · exact .inl hi
    refine ⟨hready, hgrows, fun _ => of_laid fun L _ hkept _ => ⟨?_, Mark.ext rfl rfl ?_⟩⟩
    · exact hkept.constants _ _ Array.getElem?_push_size
    · refine (children_push st.current.block value).trans ?_
      cases value with
      | block place => exact absurd rfl (hvalue place)
      | _ => exact append_nil _

theorem loadConstant {value : Datum} (hvalue : ∀ place, value ≠ .block place) (token : Token) :
    Writes setting (unit :: units) (loadConstant value token) fun L s t r =>
      L.HasLoad value token s t r := by
  refine (newRegister.bind fun dest => (constant hvalue).bind fun k =>
    (emit token _).bind fun _ => pure dest).mono ?_
  rintro L s t r - ⟨_, _, ⟨rfl, rfl⟩, _, k, ⟨hk, rfl⟩, _, _, hcode, rfl, rfl⟩
  exact ⟨rfl, k, hk, hcode⟩

/-- A unit passes on the cell of a binding that a unit around it holds. -/
theorem capture {binding : Nat} {b : Binding}
    (hframes : setting.frames = setting.resolution.frames)
    (hb : setting.resolution.bindings[binding]? = some b) (howner : b.owner ∈ units)
    (hescapes : b.escapes = true) :
    Writes setting (unit :: units) (capture binding) fun L s t place =>
      L.unit.captured[binding]? = some place ∧ t = s := by
  intro st hst
  obtain ⟨rest, hrest, hof, hall, hchain⟩ := ready_cons.1 hst
  have hreach : ∃ o ∈ rest, (o.slots[binding]?).isSome := by
    obtain ⟨o, ho, hof'⟩ := Draft.exists_of_mem hall howner
    exact ⟨o, ho, (hof'.isSome_slot hframes hb).2 rfl⟩
  obtain ⟨d', rest', heq, hpasses, hpassed, hchain', htaken⟩ :=
    Draft.capture_spec (by rw [hb]; exact hescapes) hchain (.inr hreach)
  have hresult : (Compile.capture binding).result setting st =
      ((st.current.capture binding st.outer).1, { st with
        current := (st.current.capture binding st.outer).2.1
        outer := (st.current.capture binding st.outer).2.2 }) := rfl
  rw [hresult, hrest]
  generalize st.current.capture binding (rest ++ [.blank]) = found at heq htaken
  obtain ⟨place, after⟩ := found
  subst heq
  have hcode : d'.block.code = st.code := congrArg Prod.fst hpasses.text
  refine ⟨ready_cons.2 ⟨rest', rfl, hof.passes hpasses, ?_, hchain'⟩,
    ⟨hpasses.grows, ?_, Nat.le_of_eq (congrArg Array.size hcode.symm), fun i _ => ?_, Nat.le_refl _,
      fun _ _ => rfl, id⟩, fun _ => of_laid fun L _ hkept _ =>
        ⟨hkept.captured _ _ htaken, hpasses.mark⟩⟩
  · exact Draft.all_of_passes hall hpassed
  · rw [hrest]
    exact rel_append hpassed (.cons (.refl _) .nil)
  · exact congrArg (·[i]?) hcode

section Bindings

variable {binding : Nat} {b : Binding}

/-- The code for a binding: an instruction for the register that the unit has for it, or else one for the
cell that the unit takes. -/
def atSlot (binding : Nat) (token : Token) (held : Nat → Bool → Instruction)
    (passed : Nat → Instruction) : Option Nat → Writing Unit
  | some slot => do Compile.emit token (held slot (← Compile.escapes binding))
  | none => do Compile.emit token (passed (← Compile.capture binding))

theorem loadBinding_eq (binding : Nat) (token : Token) : Compile.loadBinding binding token = (do
    let dest ← Compile.newRegister
    Compile.slot? binding >>= atSlot binding token
      (fun slot e => { op := if e then .loadCell else .move, dest, a := slot })
      fun a => { op := .loadEscaped, dest, a }
    return dest) := by
  simp only [bind_assoc]
  exact bind_congr fun _ => bind_congr fun slot => by cases slot <;> rfl

theorem storeBinding_eq (binding source : Nat) (token : Token) :
    Compile.storeBinding binding source token = Compile.slot? binding >>= atSlot binding token
      (fun slot e => if e then { op := .storeCell, a := slot, b := source }
        else { op := .move, dest := slot, a := source })
      fun a => { op := .storeEscaped, a, b := source } :=
  bind_congr fun slot => by
    cases slot with
    | none => rfl
    | some slot => exact bind_congr fun e => by cases e <;> rfl

variable (hframes : setting.frames = setting.resolution.frames)
  (hb : setting.resolution.bindings[binding]? = some b) (howner : b.owner ∈ unit :: units)
  (hescapes : (unit :: units).head? = some b.owner ∨ b.escapes = true)

include hframes hb howner hescapes

theorem slotted (token : Token) (held : Nat → Bool → Instruction) (passed : Nat → Instruction) :
    Writes setting (unit :: units) (Compile.slot? binding >>= atSlot binding token held passed)
      fun L s t _ =>
        (∃ slot, L.unit.slots[binding]? = some slot ∧
          L.HasCode token (held slot (L.escapes binding)) s t) ∨
        (L.unit.slots[binding]? = none ∧ ∃ place : Nat, L.unit.captured[binding]? = some place ∧
          L.HasCode token (passed place) s t) := by
  refine ((slot? binding).bind_of (Q := fun slot L s t _ =>
    (∃ r, slot = some r ∧ L.HasCode token (held r (L.escapes binding)) s t) ∨
      (slot = none ∧ ∃ place : Nat, L.unit.captured[binding]? = some place ∧
        L.HasCode token (passed place) s t)) fun st hst => ?_).mono ?_
  · show Writes setting (unit :: units) (atSlot binding token held passed st.current.slots[binding]?) _
    cases hslot : st.current.slots[binding]? with
    | some slot =>
      refine ((escapes binding).bind fun e => emit token _).mono ?_
      rintro L s t r - ⟨_, e, ⟨rfl, rfl⟩, hcode⟩
      exact .inl ⟨slot, hslot, hcode⟩
    | none =>
      obtain ⟨rest, -, hof, -, -⟩ := ready_cons.1 hst
      have hne : b.owner ≠ unit := by
        intro heq
        have hsome := (hof.isSome_slot hframes hb).2 heq
        rw [hslot] at hsome
        cases hsome
      have hcell := hescapes.resolve_left fun hhead => hne (Option.some.inj hhead).symm
      refine ((capture hframes hb ((mem_cons.1 howner).resolve_left hne) hcell).bind fun a =>
        emit token _).mono ?_
      rintro L s t r - ⟨_, place, ⟨hplace, rfl⟩, hcode⟩
      exact .inr ⟨hslot, place, hplace, hcode⟩
  · rintro L s t r - ⟨_, slot, ⟨rfl, rfl⟩, hcode⟩
    exact hcode

theorem loadBinding (token : Token) :
    Writes setting (unit :: units) (loadBinding binding token) fun L s t r =>
      L.HasRead binding token s t r := by
  rw [loadBinding_eq]
  refine (into fun dest => slotted hframes hb howner hescapes token _ _).mono ?_
  rintro L s t r - ⟨rfl, ⟨slot, hslot, hcode⟩ | ⟨hslot, hcode⟩⟩
  all_goals
    rw [Layout.HasRead, hslot]
    exact ⟨rfl, hcode⟩

theorem storeBinding (source : Nat) (token : Token) :
    Writes setting (unit :: units) (storeBinding binding source token) fun L s t _ =>
      L.HasWrite binding source token s t := by
  rw [storeBinding_eq]
  refine (slotted hframes hb howner hescapes token _ _).mono ?_
  rintro L s t r - (⟨slot, hslot, hcode⟩ | ⟨hslot, hcode⟩)
  all_goals
    rw [Layout.HasWrite, hslot]
    exact hcode

end Bindings

theorem read {f : Setting → Writing α} {P : Layout → Mark → Mark → α → Prop}
    (h : Writes setting units (f setting) P) : Writes setting units (read >>= f) P := h

theorem name (hframes : setting.frames = setting.resolution.frames) (token : Token)
    (hserves : setting.resolution.Serves [.name (unit :: units) token]) :
    Writes setting (unit :: units) (name token) fun L s t r => L.HasName token s t r := by
  have hfail : Writes setting (unit :: units) (do
      Compile.report (.undefinedName token.lexeme) token
      Compile.loadConstant .empty token) fun L s t r => L.HasName token s t r :=
    ((report _ token).bind fun _ => loadConstant (by simp) token).mono
      (by rintro _ _ _ _ - ⟨_, _, hfalse, -⟩; exact hfalse.elim)
  unfold Compile.name
  refine read ?_
  split
  · rename_i binding hrefers
    obtain ⟨b, hb, howner, hescapes⟩ :=
      hserves.names _ token mem_cons_self binding hrefers
    refine (loadBinding hframes hb howner hescapes token).mono fun L s t r hL hread => ?_
    unfold Layout.HasName
    rw [hL, hrefers]
    exact hread
  · rename_i hrefers
    split
    · rename_i id hid
      refine (loadConstant (by simp) token).mono fun L s t r hL hload => ?_
      unfold Layout.HasName
      rw [hL, hrefers]
      exact ⟨id, hid, hload⟩
    · exact hfail
  · exact hfail

theorem checkCall (token : Token) (callee : Expr) (arguments : Nat) :
    Writes setting (unit :: units) (checkCall token callee arguments) fun _ s t _ => t = s := by
  refine read ?_
  split
  · split
    · exact (report _ token).mono fun _ _ _ _ _ hfalse => hfalse.elim
    · exact (pure _).mono fun _ _ _ _ _ h => h.1
  · exact (pure _).mono fun _ _ _ _ _ h => h.1

end Writes

/-! ## Units -/

theorem emitAll_eq (st : State) (token : Token) (code : List Instruction) :
    st.emitAll token code = { st with
      current.block.code := st.current.block.code ++
        (code.map fun ins => { ins with position := token.position }).toArray } := by
  induction code generalizing st with
  | nil => simp [State.emitAll]
  | cons ins rest ih =>
    have hcons : st.emitAll token (ins :: rest) = (st.emit token ins).emitAll token rest := rfl
    rw [hcons, ih]
    simp [State.emit, Draft.emit]

/-- A check of the number of registers only ever adds a problem. -/
theorem checked_eq (st : State) (token : Token) :
    ∃ problems, st.checked setting token = { st with problems } ∧
      (problems = [] → st.problems = [] ∧ st.current.registers ≤ Program.maxRegisters) := by
  unfold State.checked
  split
  · exact ⟨_, rfl, nofun⟩
  · exact ⟨st.problems, rfl, fun hnil => ⟨hnil, by omega⟩⟩

/-- A unit has been opened, and its bindings have got their cells. -/
theorem ready_opened {st : State} (h : Ready setting units st) (unit : CodeUnit) (name : Text)
    (parameters : Nat) (token : Token) :
    Ready setting (unit :: units)
      ((st.opened setting unit name parameters).emitAll token (setting.cells unit parameters)) := by
  obtain ⟨drafts, hdrafts, hall⟩ := h.drafts
  rw [emitAll_eq]
  refine ready_cons.2 ⟨drafts, hdrafts, ⟨⟨parameters, rfl⟩, fun v i hi => ?_⟩, hall, ?_⟩
  · have hnone : ({} : Std.HashMap Datum Nat)[v]? = none := Std.HashMap.getElem?_empty
    cases hnone.symm.trans hi
  · rw [← hdrafts]
    refine isChain_cons_cons.2 ⟨⟨fun binding place hplace => ?_, fun place hplace => ?_⟩, h.chain⟩
    · have hnone : ({} : Std.HashMap Nat Nat)[binding]? = none := Std.HashMap.getElem?_empty
      cases hnone.symm.trans hplace
    · exact absurd hplace (Nat.not_lt_zero place)

/-- What a state is in which a unit has just been opened. -/
structure Opens (setting : Setting) (unit : CodeUnit) (parameters : Nat) (token : Token)
    (st st₁ : State) : Prop where
  blocks : st₁.blocks = st.blocks.push {}
  outer : st₁.outer = st.current :: st.outer
  problems : st₁.problems = st.problems
  place : st₁.current.place = st.blocks.size
  id : st₁.current.block.id = st.blocks.size
  params : st₁.current.block.params = parameters
  slots : st₁.current.slots = (assignSlots setting.resolution parameters (setting.held unit)).1
  code : st₁.code =
    ((setting.cells unit parameters).map fun ins => { ins with position := token.position }).toArray
  registers : st₁.current.registers =
    (assignSlots setting.resolution parameters (setting.held unit)).2
  children : st₁.current.block.children = []

theorem opens (st : State) (unit : CodeUnit) (name : Text) (parameters : Nat) (token : Token) :
    Opens setting unit parameters token st
      ((st.opened setting unit name parameters).emitAll token (setting.cells unit parameters)) := by
  rw [emitAll_eq]
  exact ⟨rfl, rfl, rfl, rfl, rfl, rfl, rfl, Array.empty_append, rfl, rfl⟩

theorem Opens.mark {parameters : Nat} {token : Token} {st st₁ : State}
    (h : Opens setting unit parameters token st st₁) {L : Layout} (hL : L.setting = setting) :
    st₁.mark = L.start unit parameters := by
  unfold Layout.start
  rw [hL]
  refine Mark.ext ?_ h.registers h.children
  exact (congrArg Array.size h.code).trans (by simp)

/-- The block of a unit is written, and nothing is added to the unit around it but cells. -/
theorem Writes.wholeUnit {x : Writing Nat} {P : Layout → Mark → Mark → Nat → Prop} {parameters : Nat}
    (hx : Writes setting (unit :: units) x P)
    (hfits : setting.resolution.Fits unit parameters) (name : Text) (token : Token) :
    Writes setting units (do
      openUnit unit name parameters token
      let result ← x
      closeUnit (some result) token) fun L s t place =>
        t = s ∧ L.HasUnit unit parameters token place P := by
  intro st hst
  simp only [result_bind, result_openUnit, result_closeUnit_some]
  have hopens := @opens setting st unit name parameters token
  obtain ⟨hready, hgrows, hlaid⟩ := hx _ (ready_opened hst unit name parameters token)
  generalize (st.opened setting unit name parameters).emitAll token
    (setting.cells unit parameters) = st₁ at hopens hready hgrows hlaid
  generalize x.result setting st₁ = found at hready hgrows hlaid
  obtain ⟨ret, st₂⟩ := found
  dsimp only at hready hgrows hlaid ⊢
  obtain ⟨problems, hchecked, hproblems⟩ := @checked_eq setting st₂ token
  rw [hchecked]
  -- the block has the place at which the unit was opened, and the unit around it is the next draft
  have hplace : st₂.current.place = st.blocks.size := hgrows.current.place.trans hopens.place
  have hsize : st₁.blocks.size = st.blocks.size + 1 := by rw [hopens.blocks, Array.size_push]
  have hle := hgrows.blocks_le
  obtain ⟨rest, hrest, -, hall, hchain⟩ := ready_cons.1 hready
  obtain ⟨parent, outer, houter, hpasses, hpassed⟩ : ∃ parent outer, st₂.outer = parent :: outer ∧
      st.current.Passes parent ∧ List.Forall₂ Draft.Passes st.outer outer := by
    have hforall := hgrows.outer
    rw [hopens.outer] at hforall
    generalize st₂.outer = list at hforall
    cases hforall with
    | cons hp hps => exact ⟨_, _, rfl, hp, hps⟩
  rw [← hrest, houter] at hchain
  obtain ⟨hlinks, hchain⟩ := isChain_cons_cons.1 hchain
  have hsealed : ({ st₂ with problems } : State).sealed ret = {
      blocks := st₂.blocks.setIfInBounds st.blocks.size (st₂.current.sealed ret)
      current := parent, outer, problems } := by
    simp only [State.sealed, houter, hplace, headD_cons, tail_cons]
  have hother : ∀ place, place ≠ st.blocks.size →
      (st₂.blocks.setIfInBounds st.blocks.size (st₂.current.sealed ret))[place]? =
        st₂.blocks[place]? := by
    intro place hne
    rw [Array.getElem?_setIfInBounds, if_neg (Ne.symm hne)]
  have hcode : parent.block.code = st.code := congrArg Prod.fst hpasses.text
  rw [hsealed, hplace]
  refine ⟨⟨⟨rest, houter.symm.trans hrest, hall⟩, hchain⟩, ⟨hpasses.grows, hpassed,
    Nat.le_of_eq (congrArg Array.size hcode.symm), fun i _ => congrArg (·[i]?) hcode, ?_,
      fun place hlt => ?_, fun hnil => ?_⟩, fun hnil => ?_⟩
  · rw [Array.size_setIfInBounds]
    omega
  · rw [hother place (by omega), hgrows.blocks place (by omega), hopens.blocks,
      Array.getElem?_push_lt hlt, Array.getElem?_eq_getElem hlt]
  · exact hopens.problems ▸ hgrows.problems (hproblems hnil).1
  · -- the unit itself is the first of the units that are finished here
    obtain ⟨closed, hclosed⟩ := hlaid (hproblems hnil).1
    refine ⟨joined (st.blocks.size + 1) (fun _ => st₂.current) closed, fun L hL hkeeps => ?_⟩
    have hblocks := hkeeps.blocks
    rw [Array.size_setIfInBounds] at hblocks
    obtain ⟨hblock, hunit⟩ := hblocks st.blocks.size (Nat.le_refl _) (by omega)
    rw [joined, if_pos (Nat.lt_succ_self _)] at hunit
    refine ⟨hpasses.mark, ret, ?_⟩
    rw [hunit]
    refine ⟨⟨?_, ?_, ?_, ?_, hL ▸ hfits, ?_, (hproblems hnil).2⟩, hL ▸ hlinks.grows hkeeps.grows, ?_⟩
    · rw [hblock, Array.getElem?_setIfInBounds, if_pos rfl, if_pos (by omega)]
    · rw [hgrows.current.id, hopens.id]
    · rw [hgrows.current.slots, hopens.slots, hL]
    · rw [hgrows.current.params, hopens.params]
    · intro i ins hins
      rw [hL] at hins
      have hins' : st₁.code[i]? = some { ins with position := token.position } := by
        rw [hopens.code]
        simp [hins]
      rw [← hins']
      exact hgrows.code i (Array.getElem?_eq_some_iff.1 hins').1
    · rw [← hopens.mark hL]
      refine hclosed (L.of st₂.current) hL ⟨.refl _, fun _ _ _ => rfl, fun place hle' hlt => ?_⟩
      obtain ⟨hblock', hunit'⟩ := hblocks place (by omega) hlt
      exact ⟨hblock'.trans (hother place (by omega)), hunit'.trans (if_neg (by omega))⟩

/-! ## Choices -/

/-- Writing the arms of a choice gives the branches that leave it, and those `before` it again. -/
def WritesArms (setting : Setting) (units : List CodeUnit) (x : Writing (List Nat))
    (before : List Nat) (P : Layout → Nat → Mark → Mark → Prop) : Prop :=
  ∀ st, Ready setting units st → (∀ i ∈ before, i < st.code.size) →
    (Ready setting units (x.result setting st).2 ∧ st.Grows (x.result setting st).2) ∧
      ((∀ i ∈ before, i ∈ (x.result setting st).1) ∧
        ∀ i ∈ (x.result setting st).1, i ∈ before ∨ st.code.size ≤ i) ∧
      ((x.result setting st).2.problems = [] → ∃ closed, ∀ (L : Layout) (target : Nat),
        L.setting = setting →
          L.Keeps closed (patched target (x.result setting st).1 (x.result setting st).2.code) st
            (x.result setting st).2 → P L target st.mark (x.result setting st).2.mark)

namespace WritesArms

variable {before : List Nat} {x : Writing α} {P : Layout → Mark → Mark → α → Prop}
  {f : α → Writing (List Nat)} {y : Writing (List Nat)}

theorem mono {Q Q' : Layout → Nat → Mark → Mark → Prop} (h : WritesArms setting units y before Q)
    (hQ : ∀ L target s t, L.setting = setting → Q L target s t → Q' L target s t) :
    WritesArms setting units y before Q' := by
  intro st hst hbefore
  obtain ⟨hwritten, hbranches, hlaid⟩ := h st hst hbefore
  refine ⟨hwritten, hbranches, fun hnil => ?_⟩
  obtain ⟨closed, hclosed⟩ := hlaid hnil
  exact ⟨closed, fun L target hL hkeeps => hQ L target _ _ hL (hclosed L target hL hkeeps)⟩

theorem pure : WritesArms setting units (Pure.pure before) before fun _ _ s t => t = s :=
  fun st hst _ => ⟨⟨hst, .refl st⟩, ⟨fun _ hi => hi, fun _ hi => .inl hi⟩, fun _ =>
    ⟨fun _ => .blank, fun _ _ _ _ => rfl⟩⟩

/-- Code in front of arms has none of the branches. -/
theorem of_writes {Q : α → Layout → Nat → Mark → Mark → Prop} (hx : Writes setting units x P)
    (hf : ∀ a, WritesArms setting units (f a) before (Q a)) :
    WritesArms setting units (x >>= f) before fun L target s t =>
      ∃ m a, P L s m a ∧ Q a L target m t := by
  intro st hst hbefore
  obtain ⟨hready, hgrows, hlaid⟩ := hx st hst
  have hbefore' : ∀ i ∈ before, i < (x.result setting st).2.code.size := fun i hi =>
    Nat.lt_of_lt_of_le (hbefore i hi) hgrows.size_le
  obtain ⟨⟨hready', hgrows'⟩, ⟨hkept, hnew⟩, hlaid'⟩ := hf _ _ hready hbefore'
  refine ⟨⟨hready', hgrows.trans hgrows'⟩, ⟨hkept, fun i hi => ?_⟩, fun hnil => ?_⟩
  · exact (hnew i hi).imp_right (Nat.le_trans hgrows.size_le)
  · obtain ⟨closed, hclosed⟩ := hlaid (hgrows'.problems hnil)
    obtain ⟨closed', hclosed'⟩ := hlaid' hnil
    refine ⟨joined (x.result setting st).2.blocks.size closed closed', fun L target hL hkeeps => ?_⟩
    refine ⟨_, _, hclosed L hL (hkeeps.left hgrows' fun i hle hlt => ?_),
      hclosed' L target hL (hkeeps.right hgrows)⟩
    have hnot : i ∉ ((x >>= f).result setting st).1 := fun hi => by
      rcases hnew i hi with hi | hi
      · exact absurd (hbefore i hi) (by omega)
      · omega
    rw [getElem?_patched, if_neg hnot]
    exact hgrows'.code i hlt

/-- An instruction that leaves the choice. -/
theorem leave {Q : Layout → Nat → Mark → Mark → Prop} (token : Token) (ins : Instruction)
    {next : Nat → Writing (List Nat)}
    (hnext : ∀ branch, WritesArms setting (unit :: units) (next branch) (branch :: before) Q) :
    WritesArms setting (unit :: units) (do
      let branch ← codeSize
      emit token ins
      next branch) before fun L target s t =>
        ∃ m, L.HasCode token { ins with target } s m ∧ Q L target m t := by
  intro st hst hbefore
  obtain ⟨hready, hgrows, -⟩ := Writes.emit token ins st hst
  rw [result_emit] at hready hgrows
  dsimp only at hready hgrows
  have hcode : (st.emit token ins).code = st.code.push { ins with position := token.position } := rfl
  have hbefore' : ∀ i ∈ st.code.size :: before, i < (st.emit token ins).code.size := by
    intro i hi
    rw [hcode, Array.size_push]
    rcases mem_cons.1 hi with rfl | hi
    · omega
    · exact Nat.lt_succ_of_lt (hbefore i hi)
  obtain ⟨⟨hready', hgrows'⟩, ⟨hkept, hnew⟩, hlaid'⟩ := hnext st.code.size _ hready hbefore'
  simp only [result_bind, result_emit]
  have hsize : (codeSize.result setting st) = (st.code.size, st) := rfl
  rw [hsize]
  refine ⟨⟨hready', hgrows.trans hgrows'⟩, ⟨fun i hi => hkept i (mem_cons_of_mem _ hi),
    fun i hi => ?_⟩, fun hnil => ?_⟩
  · rcases hnew i hi with hi | hi
    · rcases mem_cons.1 hi with rfl | hi
      · exact .inr (Nat.le_refl _)
      · exact .inl hi
    · exact .inr (Nat.le_trans hgrows.size_le hi)
  · obtain ⟨closed, hclosed⟩ := hlaid' hnil
    refine ⟨closed, fun L target hL hkeeps => ?_⟩
    refine ⟨_, ⟨?_, ?_⟩, hclosed L target hL (hkeeps.later hgrows)⟩
    · have hlt : st.code.size < (st.emit token ins).code.size := by
        rw [hcode, Array.size_push]
        omega
      have hat := hkeeps.code st.code.size (Nat.le_refl _) (Nat.lt_of_lt_of_le hlt hgrows'.size_le)
      rw [getElem?_patched, if_pos (hkept _ mem_cons_self), hgrows'.code _ hlt, hcode,
        Array.getElem?_push_size] at hat
      exact hat
    · exact Mark.ext ((congrArg Array.size hcode).trans (Array.size_push _)) rfl rfl

/-- A choice is complete when its branches go on behind it. -/
theorem patch {Q : Layout → Nat → Mark → Mark → Prop} (h : WritesArms setting (unit :: units) y [] Q)
    (dest : Nat) :
    Writes setting (unit :: units) (do
      let branches ← y
      patch branches
      return dest) fun L s t r => Q L t.offset s t ∧ r = dest := by
  intro st hst
  obtain ⟨⟨hready, hgrows⟩, ⟨-, hnew⟩, hlaid⟩ := h st hst (by simp)
  simp only [result_bind]
  generalize y.result setting st = found at hready hgrows hnew hlaid
  obtain ⟨branches, st₁⟩ := found
  dsimp only at hready hgrows hnew hlaid ⊢
  have hcode : ((Compile.patch branches).result setting st₁).2.code =
    patched st₁.code.size branches st₁.code := rfl
  have hsize : ((Compile.patch branches).result setting st₁).2.code.size = st₁.code.size := by
    rw [hcode, size_patched]
  obtain ⟨rest, -, hof, -, -⟩ := ready_cons.1 hready
  have hpatch : st₁.current.Grows ((Compile.patch branches).result setting st₁).2.current :=
    ⟨rfl, rfl, rfl, rfl, fun _ _ h => h, fun _ _ h => h, fun _ _ h => h⟩
  refine ⟨hready.of_current rfl ⟨hof.slots, hof.known⟩ rfl rfl, ⟨hgrows.current.trans hpatch,
    hgrows.outer, ?_, fun i hi => ?_, hgrows.blocks_le, hgrows.blocks, hgrows.problems⟩,
      fun hnil => ?_⟩
  · show _ ≤ ((Compile.patch branches).result setting st₁).2.code.size
    rw [hsize]
    exact hgrows.size_le
  · show ((Compile.patch branches).result setting st₁).2.code[i]? = _
    rw [hcode, getElem?_patched, if_neg fun hmem => ?_]
    · exact hgrows.code i hi
    · exact absurd ((hnew i hmem).resolve_left not_mem_nil) (by omega)
  · have hmark : ((Compile.patch branches).result setting st₁).2.mark = st₁.mark :=
      Mark.ext hsize rfl rfl
    obtain ⟨closed, hclosed⟩ := hlaid hnil
    refine ⟨closed, fun L hL hkeeps => ⟨?_, rfl⟩⟩
    have hpatched : L.Keeps closed (patched st₁.code.size branches st₁.code) st st₁ :=
      ⟨hpatch.trans hkeeps.grows, fun i hle hlt => hkeeps.code i hle (hsize.symm ▸ hlt), hkeeps.blocks⟩
    show Q L ((Compile.patch branches).result setting st₁).2.mark.offset st.mark
      ((Compile.patch branches).result setting st₁).2.mark
    rw [hmark]
    exact hclosed L st₁.code.size hL hpatched

end WritesArms

/-! ## Expressions -/

theorem Writes.armBlock (token : Token) {body : Expr}
    {P : Layout → Mark → Mark → Nat → Prop}
    (hbody : Writes setting (.arm token.index :: unit :: units) (expr body true) P)
    (hfits : setting.resolution.Fits (.arm token.index) 0) :
    Writes setting (unit :: units) (armBlock token body) fun L s t k =>
      ∃ place, L.HasUnit (.arm token.index) 0 token place P ∧ L.HasConstant (.block place) k ∧
        t = s.nest place := by
  have hname : Writes setting (unit :: units) armName fun _ s t _ => t = s :=
    look (fun _ => rfl) fun _ _ _ _ => rfl
  have hblock : ∀ name, Writes setting (unit :: units) (do
      openUnit (.arm token.index) name 0 token
      let result ← expr body true
      Compile.nested (← closeUnit (some result) token)) fun L s t k =>
        ∃ place, L.HasUnit (.arm token.index) 0 token place P ∧ L.HasConstant (.block place) k ∧
          t = s.nest place := by
    intro name
    have h := (Writes.wholeUnit hbody hfits name token).bind fun place => nested place
    simp only [bind_assoc] at h
    refine h.mono ?_
    rintro L s t k - ⟨_, place, ⟨rfl, hunit⟩, hconstant, rfl⟩
    exact ⟨place, hunit, hconstant, rfl⟩
  refine (hname.bind hblock).mono ?_
  rintro L s t k - ⟨_, _, rfl, hunit⟩
  exact hunit

mutual

/-- The code of an expression is written as it is laid out. -/
theorem writes_expr (hframes : setting.frames = setting.resolution.frames) (e : Expr)
    {unit : CodeUnit} {units : List CodeUnit} (tail : Bool)
    (hserves : setting.resolution.Serves (e.parts (unit :: units))) :
    Writes setting (unit :: units) (expr e tail) fun L s t r => L.HasExpr e tail s t r := by
  match e with
  | .number token _ | .string token _ | .boolean token _ | .empty token =>
    exact .loadConstant (by simp) token
  | .name token => exact .name hframes token hserves
  | .negate token operand =>
    exact (writes_expr hframes operand false hserves).bind fun a => .into fun dest => .emit token _
  | .binary token left right =>
    obtain ⟨hleft, hright⟩ := serves_append.1 hserves
    unfold expr
    split
    · refine ((Writes.report _ token).bind fun _ => .loadConstant (by simp) token).mono ?_
      rintro _ _ _ _ - ⟨_, _, hfalse, -⟩
      exact hfalse.elim
    · rename_i op hop
      exact ((writes_expr hframes left false hleft).bind fun a =>
        (writes_expr hframes right false hright).bind fun b =>
        .into fun dest => .emit token _).mono fun _ _ _ _ _ hcode => ⟨op, hop, hcode⟩
  | .define token goal value =>
    obtain ⟨hvalue, hgoal⟩ := serves_append.1 hserves
    refine ((writes_expr hframes value false hvalue).bind fun source =>
      (writes_target hframes goal token source hgoal).bind fun _ => .pure source).mono ?_
    rintro L s t r - ⟨m, _, hsource, _, _, htarget, rfl, rfl⟩
    exact ⟨m, hsource, htarget⟩
  | .access token container key =>
    obtain ⟨hcontainer, hkey⟩ := serves_append.1 hserves
    exact (writes_expr hframes container false hcontainer).bind fun a =>
      (writes_expr hframes key false hkey).bind fun b => .into fun dest => .emit token _
  | .call token callee inner =>
    obtain ⟨hcallee, hinner⟩ := serves_append.1 hserves
    refine ((Writes.checkCall token callee inner.length).bind fun _ =>
      (writes_expr hframes callee false hcallee).bind fun a =>
        (writes_arguments hframes inner [] hinner).bind fun args => .into fun dest =>
          .emit token _).mono ?_
    rintro L s t r - ⟨_, _, rfl, m, a, ha, m', _, ⟨args, hargs, rfl⟩, hcode⟩
    exact ⟨m, a, ha, m', args, hargs, hcode⟩
  | .choose token subject cases =>
    obtain ⟨hsubject, hcases⟩ := serves_append.1 hserves
    refine ((writes_expr hframes subject false hsubject).bind fun a =>
      Writes.newRegister.bind fun dest =>
        (writes_arms hframes cases a dest tail token [] hcases).patch dest).mono ?_
    rintro L s t r - ⟨m, a, ha, _, _, ⟨rfl, rfl⟩, harms, rfl⟩
    exact ⟨m, a, ha, rfl, harms⟩
  | .group token inner =>
    have hresult : ∀ result : Option Nat, Writes setting (unit :: units) (match result with
        | some result => return result
        | none => loadConstant .empty token) fun L s t r => match result with
          | some last => r = last ∧ t = s
          | none => L.HasLoad .empty token s t r := by
      intro result
      cases result with
      | some last => exact (Writes.pure last).mono fun _ _ _ _ _ h => ⟨h.2, h.1⟩
      | none => exact .loadConstant (by simp) token
    unfold expr
    exact (writes_sequence hframes inner tail hserves).bind hresult
  | .list token inner =>
    exact .into fun dest => .after token _ (writes_elements hframes inner dest 0 hserves)
  | .object token inner =>
    exact .into fun dest => .after token _ (writes_entries hframes inner dest hserves)
  | .function token name parameters body =>
    obtain ⟨hfits, hbody⟩ := serves_unit hserves
    unfold expr
    have h := (Writes.wholeUnit (writes_expr hframes body true hbody)
      hfits (if name.isEmpty then "<anonymous>" else name) token).bind fun place =>
        (Writes.nested place).bind fun k => .into fun dest =>
          .emit token { op := .closure, dest, k }
    simp only [bind_assoc] at h
    refine h.mono ?_
    rintro L s t r - ⟨_, place, ⟨rfl, hunit⟩, _, k, ⟨hk, rfl⟩, hcode⟩
    exact ⟨place, hunit, k, hk, hcode⟩

theorem writes_target (hframes : setting.frames = setting.resolution.frames) (goal : Expr)
    {unit : CodeUnit} {units : List CodeUnit} (token : Token)
    (source : Nat) (hserves : setting.resolution.Serves (goal.targetParts (unit :: units))) :
    Writes setting (unit :: units) (target token source goal) fun L s t _ =>
      L.HasTarget token source goal s t := by
  have hfail : ∀ problem, Writes setting (unit :: units) (report problem token) fun L s t _ =>
      L.HasTarget token source goal s t := fun problem =>
    (Writes.report problem token).mono fun _ _ _ _ _ hfalse => hfalse.elim
  match goal with
  | .name place =>
    unfold target
    refine .read ?_
    split
    · rename_i binding hrefers
      obtain ⟨b, hb, howner, hescapes⟩ := hserves.names _ place mem_cons_self binding hrefers
      refine (Writes.storeBinding hframes hb howner hescapes source token).mono
        fun L s t _ hL hwrite => ?_
      exact ⟨binding, hL ▸ hrefers, hwrite⟩
    · exact hfail _
  | .empty _ =>
    unfold target
    exact (Writes.pure ()).mono fun _ _ _ _ _ h => h.1
  | .access _ container key =>
    obtain ⟨hcontainer, hkey⟩ := serves_append.1 hserves
    unfold target
    exact (writes_expr hframes container false hcontainer).bind fun a =>
      (writes_expr hframes key false hkey).bind fun b => .emit token _
  | .number .. | .string .. | .boolean .. | .negate .. | .binary .. | .define .. | .call ..
  | .choose .. | .group .. | .list .. | .object .. | .function .. =>
    unfold target
    exact hfail _

theorem writes_sequence (hframes : setting.frames = setting.resolution.frames) (items : List Expr)
    {unit : CodeUnit} {units : List CodeUnit} (tail : Bool)
    (hserves : setting.resolution.Serves (Expr.itemParts items (unit :: units))) :
    Writes setting (unit :: units) (sequence items tail) fun L s t result =>
      L.HasSequence items tail s t result := by
  match items with
  | [] => exact .pure none
  | [e] =>
    obtain ⟨he, -⟩ := serves_append.1 hserves
    refine ((writes_expr hframes e tail he).bind fun r => .pure (some r)).mono ?_
    rintro L s t result - ⟨_, r, hr, rfl, rfl⟩
    exact ⟨r, hr, rfl⟩
  | e :: next :: rest =>
    obtain ⟨he, hrest⟩ := serves_append.1 hserves
    exact (writes_expr hframes e false he).bind fun _ =>
      writes_sequence hframes (next :: rest) tail hrest

theorem writes_arguments (hframes : setting.frames = setting.resolution.frames) (items : List Expr)
    {unit : CodeUnit} {units : List CodeUnit}
    (done : List Nat)
    (hserves : setting.resolution.Serves (Expr.itemParts items (unit :: units))) :
    Writes setting (unit :: units) (arguments items (done.map Int.ofNat)) fun L s t args =>
      ∃ others, L.HasArguments items s t others ∧ args = (done.reverse ++ others).map Int.ofNat := by
  match items with
  | [] =>
    refine (Writes.pure _).mono ?_
    rintro L s t args - ⟨rfl, rfl⟩
    exact ⟨[], ⟨rfl, rfl⟩, by simp⟩
  | e :: rest =>
    obtain ⟨he, hrest⟩ := serves_append.1 hserves
    refine ((writes_expr hframes e false he).bind fun r =>
      writes_arguments hframes rest (r :: done) hrest).mono ?_
    rintro L s t args - ⟨m, r, hr, others, hothers, rfl⟩
    exact ⟨r :: others, ⟨m, r, hr, others, hothers, rfl⟩, by simp⟩

theorem writes_elements (hframes : setting.frames = setting.resolution.frames) (items : List Expr)
    {unit : CodeUnit} {units : List CodeUnit}
    (dest index : Nat)
    (hserves : setting.resolution.Serves (Expr.itemParts items (unit :: units))) :
    Writes setting (unit :: units) (elements dest index items) fun L s t _ =>
      L.HasElements dest index items s t := by
  match items with
  | [] => exact (Writes.pure ()).mono fun _ _ _ _ _ h => h.1
  | e :: rest =>
    obtain ⟨he, hrest⟩ := serves_append.1 hserves
    exact (writes_expr hframes e false he).bind fun c =>
      (Writes.loadConstant (by simp) e.token).bind fun b =>
      .after e.token _ (writes_elements hframes rest dest (index + 1) hrest)

theorem writes_entries (hframes : setting.frames = setting.resolution.frames) (items : List Entry)
    {unit : CodeUnit} {units : List CodeUnit} (dest : Nat)
    (hserves : setting.resolution.Serves (Expr.entryParts items (unit :: units))) :
    Writes setting (unit :: units) (entries dest items) fun L s t _ =>
      L.HasEntries dest items s t := by
  match items with
  | [] => exact (Writes.pure ()).mono fun _ _ _ _ _ h => h.1
  | .mk key value :: rest =>
    obtain ⟨hkey, hserves⟩ := serves_append.1 hserves
    obtain ⟨hvalue, hrest⟩ := serves_append.1 hserves
    exact (writes_expr hframes key false hkey).bind fun b =>
      (writes_expr hframes value false hvalue).bind fun c =>
      .after key.token _ (writes_entries hframes rest dest hrest)

theorem writes_arms (hframes : setting.frames = setting.resolution.frames) (items : List Arm)
    {unit : CodeUnit} {units : List CodeUnit} (subject dest : Nat)
    (tail : Bool) (choice : Token) (before : List Nat)
    (hserves : setting.resolution.Serves (Expr.armParts items (unit :: units))) :
    WritesArms setting (unit :: units) (arms subject dest tail choice items before) before
      fun L target s t => L.HasArms subject dest tail choice target items s t := by
  match items with
  | [] =>
    refine (WritesArms.of_writes (Writes.emit choice _) fun _ => .pure).mono ?_
    rintro L target s t - ⟨m, _, hcode, rfl⟩
    exact hcode
  | .otherwise token body :: rest =>
    obtain ⟨hfits, hserves⟩ := serves_unit hserves
    obtain ⟨hbody, -⟩ := serves_append.1 hserves
    cases hliteral : body.literal? with
    | some value =>
      unfold arms
      rw [hliteral]
      refine (WritesArms.of_writes (Writes.constant (Kept.not_block_of_literal? hliteral)) fun k =>
        .of_writes (Writes.emit token _) fun _ => .leave token { op := .jump } fun _ => .pure).mono ?_
      rintro L target s t - ⟨_, k, ⟨hk, rfl⟩, m, _, hload, _, hjump, rfl⟩
      unfold Layout.HasArms
      rw [hliteral]
      exact ⟨k, hk, m, hload, hjump⟩
    | none =>
      rw [arms_otherwise subject dest tail choice token hliteral]
      refine (WritesArms.of_writes (Writes.armBlock token
        (writes_expr hframes body true hbody) hfits) fun k =>
          .leave token { op := .callArm, dest, k, tail } fun _ => .pure).mono ?_
      rintro L target s t - ⟨_, k, ⟨place, hunit, hk, rfl⟩, _, hcode, rfl⟩
      unfold Layout.HasArms
      rw [hliteral]
      exact ⟨place, hunit, k, hk, hcode⟩
  | .case token pattern body :: rest =>
    obtain ⟨hpattern, hserves⟩ := serves_append.1 hserves
    obtain ⟨hfits, hserves⟩ := serves_unit hserves
    obtain ⟨hbody, hrest⟩ := serves_append.1 hserves
    cases hliteral : body.literal? with
    | some value =>
      unfold arms
      rw [hliteral]
      refine (WritesArms.of_writes (writes_expr hframes pattern false hpattern) fun b =>
        .of_writes (Writes.constant (Kept.not_block_of_literal? hliteral)) fun k =>
          .leave token { op := .constantIfEqual, dest, a := subject, b, k } fun branch =>
            writes_arms hframes rest subject dest tail choice (branch :: before) hrest).mono ?_
      rintro L target s t - ⟨_, b, hb, m, k, ⟨hk, rfl⟩, m', hcode, hnext⟩
      unfold Layout.HasArms
      rw [hliteral]
      exact ⟨m, b, hb, k, hk, m', hcode, hnext⟩
    | none =>
      rw [arms_case subject dest tail choice token pattern hliteral]
      refine (WritesArms.of_writes (writes_expr hframes pattern false hpattern) fun b =>
        .of_writes (Writes.armBlock token
          (writes_expr hframes body true hbody) hfits) fun k =>
            .leave token { op := .callIfEqual, dest, a := subject, b, k, tail } fun branch =>
              writes_arms hframes rest subject dest tail choice (branch :: before) hrest).mono ?_
      rintro L target s t - ⟨m, b, hb, _, k, ⟨place, hunit, hk, rfl⟩, m', hcode, hnext⟩
      unfold Layout.HasArms
      rw [hliteral]
      exact ⟨m, b, hb, place, hunit, k, hk, m', hcode, hnext⟩

end

end Writes

end Compile

/-! ## Programs -/

namespace Script

variable {natives : Text → Option Nat} {file : Text} {r : Resolution} {script : Script} {p : Program}

open Compile in
/-- The code of a program is laid out. -/
theorem laidOut_of_compile (hserves : (r.markEscapes script).Serves script.parts)
    (h : script.compile natives file r = .ok p) :
    ∃ units, script.LaidOut (script.setting natives file r) units p := by
  obtain ⟨hnil, rfl⟩ := compile_eq_ok h
  obtain ⟨hfits, hitems⟩ := serves_unit hserves
  have hbody := @writes_expr (script.setting natives file r) rfl script.body .program [] true hitems
  have hstart : Ready (script.setting natives file r) [] {} := ⟨⟨[], rfl, .nil⟩, .singleton _⟩
  obtain ⟨hready, -, hlaid⟩ := Writes.wholeUnit hbody hfits (script.blockName file) script.token {} hstart
  -- the block of the program is the first that is opened
  have hplace : ((script.writing file).result (script.setting natives file r) {}).1 = 0 := by
    have hgrows := (hbody _ (ready_opened hstart .program (script.blockName file) 0 script.token)).2.1
    unfold writing
    simp only [result_bind, result_openUnit, result_closeUnit_some]
    rw [hgrows.current.place, (opens _ _ _ _ _).place]
    rfl
  obtain ⟨drafts, hdrafts, hall⟩ := hready.drafts
  cases hall
  have hblank : (script.written natives file r).current = .blank := (List.cons.inj hdrafts).1
  obtain ⟨closed, hclosed⟩ := hlaid hnil
  let L : Layout := ⟨script.setting natives file r, (script.written natives file r).blocks, closed,
    (script.written natives file r).current⟩
  have hunit : L.HasUnit .program 0 script.token
      ((script.writing file).result (script.setting natives file r) {}).1
        fun L s t r => L.HasExpr script.body true s t r :=
    (hclosed L rfl ⟨.refl _, fun _ _ _ => rfl, fun _ _ _ => ⟨rfl, rfl⟩⟩).2
  rw [hplace] at hunit
  obtain ⟨ret, hunit, hlinks, hexpr⟩ := hunit
  have hnone : ∀ binding : Nat, (closed 0).captured[binding]? = none := by
    intro binding
    by_contra hsome
    obtain ⟨place, hplace⟩ := Option.ne_none_iff_exists'.1 hsome
    obtain ⟨-, ⟨slot, hslot, -⟩ | ⟨-, outer, houter, -⟩⟩ := hlinks.takes binding place hplace
    · change (script.written natives file r).current.slots[binding]? = _ at hslot
      rw [hblank] at hslot
      cases Std.HashMap.getElem?_empty.symm.trans hslot
    · change (script.written natives file r).current.captured[binding]? = _ at houter
      rw [hblank] at houter
      cases Std.HashMap.getElem?_empty.symm.trans houter
  have hbinds : (closed 0).block.binds = #[] := by
    by_contra hne
    obtain ⟨binding, hbinding⟩ := hlinks.taken 0 (Array.size_pos_iff.2 hne)
    cases (hnone binding).symm.trans hbinding
  exact ⟨closed, ret, hunit.of _, hnone, hbinds, hexpr⟩

end Script

end Inkwell
