import Mathlib
import Inkwell.Proofs.Optimizer.Rewriting

/-!
# Sharing results keeps what a program does

An operation that has been done before, on registers that have not changed since, gives what it gave
then. Its result is a string only if both operands are strings and the operation makes a new one, and
such results are not shared; every other result is the same value wherever it is.

An operand can be read from where it was copied if it was copied after the other register got its one
value. The facts only say that the other register has its one value where the copy is used, so a copy
made in front of that is taken for one made behind it.
-/

namespace Inkwell

open Option

/-- Only four operators make strings, and only out of strings. -/
theorem Operator.string_of_apply {op : Operator} {x y : Datum} {t : Text}
    (h : op.apply x y = .ok (.string t)) :
    (op = .add ∨ op = .and ∨ op = .or ∨ op = .xor) ∧ x.isString = true ∧ y.isString = true := by
  unfold apply at h
  split at h
  · cases h
  · split at h
    · have hbare : ∀ {x y : Number} {r : Datum}, op.onNumbers x y = .ok r → r.isString = false := by
        intro x y r hr
        unfold onNumbers at hr
        split at hr <;> first | (cases hr; rfl) | (split at hr <;> cases hr; rfl)
      cases hbare h
    · split at h <;> cases h
    · split at h
      · rename_i found hfound
        cases h
        cases op <;> cases hfound <;> simp [Datum.isString]
      · cases h
    · cases h

namespace Sharing

variable {i : Nat}
variable {b t t' : Block} {f : Activation} {s : Plain} {below : List Activation} {flow : Flow}
  {ins earlier : Instruction} {New : Instruction → Prop} {K : Block → Prop} {j : Nat}

theorem holdsNoString_eq_true {r : Int} (h : holdsNoString flow b r i = some true) :
    ∃ value k, flow.constantAt b r i = some (some (value, k)) ∧ value.isString = false := by
  unfold holdsNoString at h
  obtain ⟨found, hfound, h⟩ := bind_eq_some_iff.1 h
  cases found with
  | none => cases h
  | some found => exact ⟨found.1, found.2, hfound, by simpa using h⟩

/-- What `isAvailable` asks about an earlier operation. -/
theorem isAvailable_eq_true (hearlier : b.code[j]? = some earlier)
    (h : isAvailable flow b i ins j = true) :
    isSame earlier ins = true ∧ flow.dominates j i = true ∧
      (flow.onlyWriter? earlier.dest).isSome = true ∧ hasStableOperands flow earlier j = true ∧
      b.hasEffectsBetween j i = false := by
  unfold isAvailable at h
  rw [hearlier] at h
  simp only [Bool.and_eq_true, Bool.not_eq_true'] at h
  tauto

theorem calm_of_not_hasEffectsBetween (h : b.hasEffectsBetween j i = false) (hi : i ≤ b.code.size) :
    b.Calm j i := by
  intro o ins hins hjo hoi hstirs
  obtain ⟨ho, rfl⟩ := Array.getElem?_eq_some_iff.1 hins
  have hany : b.hasEffectsBetween j i =
      b.code.any (fun ins => ins.op = .setElement || ins.op.isCall) (j + 1) i := by
    unfold Block.hasEffectsBetween Array.toSubarray
    rw [dif_pos hi, dif_pos (show j + 1 ≤ i by omega)]
    rfl
  have hnot : ¬ (decide (b.code[o].op = .setElement) || b.code[o].op.isCall) = true := fun hyes =>
    Bool.false_ne_true (h.symm.trans (hany.trans (Array.any_iff_exists.2 ⟨o, ho, hjo, hoi, hyes⟩)))
  rcases hstirs with hop | hop | hop | ⟨hop | hop, -⟩ <;> exact hnot (by rw [hop]; rfl)

section Known

variable (h : Stage New b f.block f.counter t t') (hflow : flow.Describes b) (hs : s.Informed K)
  (hframes : s.frames = f :: below) (hins : t.code[f.counter]? = some ins)
include h hflow hs hframes hins

/-- An operation that has been done before has the result that was given then. -/
theorem result_of_isAvailable (hpure : ins.op.isPure = true) (hearlier : t.code[j]? = some earlier)
    (havailable : isAvailable flow t f.counter ins j = true) :
    ∃ v value, f.register? earlier.dest = some v ∧
      f.result? s.store.heap ins = some (.ok value) ∧
      (value.isString = false → s.store.heap.datum v = value) := by
  obtain ⟨hsame, hdominates, honly, hstable, heffects⟩ := isAvailable_eq_true hearlier havailable
  simp only [isSame, Bool.and_eq_true, Bool.or_eq_true, decide_eq_true_eq] at hsame
  obtain ⟨⟨hop, ha⟩, hb⟩ := hsame
  simp only [hasStableOperands, Bool.and_eq_true, Bool.or_eq_true, decide_eq_true_eq] at hstable
  have hflow' := h.describes hflow
  have hdom := hflow'.dominates hdominates
  have hpure' : earlier.op.isPure = true := hop ▸ hpure
  have hcode : f.block.code[j]? = some earlier := (h.front j hdom.1).trans hearlier
  have hwrites : earlier.writes? = some earlier.dest := by
    unfold Instruction.writes?
    cases hcase : earlier.op <;> first | rfl | (rw [hcase] at hpure'; cases hpure')
  have honly' : f.block.OnlyWriter earlier.dest j := by
    obtain ⟨d, hd⟩ := isSome_iff_exists.1 honly
    have hwriter := hflow'.onlyWriter hd
    rwa [← hwriter.2 j earlier hcode hwrites] at hwriter
  have hcalm : f.block.Calm j f.counter := by
    have hlt := (Array.getElem?_eq_some_iff.1 hins).1
    intro o other hother hjo hoc
    exact calm_of_not_hasEffectsBetween heffects (Nat.le_of_lt hlt) o other
      ((h.front o hoc).symm.trans hother) hjo hoc
  have hknown := h.known hs hframes hins hearlier hdom fun htest => by
    rcases htest with hcase | hcase <;> rw [hcase] at hpure' <;> cases hpure'
  obtain ⟨v, value, hv, hresult, hvalue⟩ := hknown.computed hpure' honly'
    (hflow'.stableAt hstable.1) (hstable.2.imp_right hflow'.stableAt) hcalm
  refine ⟨v, value, hv, ?_, hvalue⟩
  rw [← hresult]
  unfold Activation.result?
  rw [← hop, ← ha]
  rcases hb with hneg | hb
  · rw [hneg]
  · rw [← hb]

/-- The result of an operation that may be shared is no string. -/
theorem not_string_of_isShareable
    (hshareable : isShareable flow t ins f.counter = some true) {value : Datum}
    (hresult : f.result? s.store.heap ins = some (.ok value)) : value.isString = false := by
  -- one of the operands is a constant that is no string
  have hnone : ∀ {r : Int} {x : Value}, holdsNoString flow t r f.counter = some true →
      f.register? r = some x → (s.store.heap.datum x).isString = false := by
    intro r x hr hx
    obtain ⟨constant, k, hconstant, hstring⟩ := holdsNoString_eq_true hr
    obtain ⟨⟨d, load, hloads⟩, -⟩ := Flow.constantAt_eq_some hconstant
    obtain ⟨v, hv, hkind, -⟩ := h.loaded hs hframes hins hflow hloads (.inl rfl)
    cases hx.symm.trans hv
    rw [hkind, hstring]
  cases value with
  | string text =>
    unfold Activation.result? at hresult
    cases hop : ins.op with
    | negate =>
      simp only [hop] at hresult
      obtain ⟨x, -, hx⟩ := map_eq_some_iff.1 hresult
      unfold Datum.negate at hx
      split at hx <;> cases hx
    | operate op =>
      simp only [hop] at hresult
      obtain ⟨x, hx, hresult⟩ := bind_eq_some_iff.1 hresult
      obtain ⟨y, hy, hxy⟩ := map_eq_some_iff.1 hresult
      obtain ⟨hmakes, hxs, hys⟩ := Operator.string_of_apply hxy
      have hknown : (do
          if ← holdsNoString flow t ins.a f.counter then return true
          holdsNoString flow t ins.b f.counter) = some true := by
        rw [← hshareable]
        unfold isShareable
        rcases hmakes with rfl | rfl | rfl | rfl <;> rw [hop]
      obtain ⟨first, hfirst, hknown⟩ := bind_eq_some_iff.1 hknown
      cases first with
      | true => rw [hnone hfirst hx] at hxs; cases hxs
      | false => rw [hnone hknown hy] at hys; cases hys
    | _ => simp only [hop] at hresult; cases hresult
  | _ => rfl

/-- A copy of an earlier result does what the operation does. -/
theorem step_share (hpure : ins.op.isPure = true) (hshareable : isShareable flow t ins f.counter = some true)
    (hearlier : t.code[j]? = some earlier)
    (havailable : isAvailable flow t f.counter ins j = true) :
    Plain.step (Plain.passing f) below s.store
        { op := .move, dest := ins.dest, a := earlier.dest, position := ins.position } =
      Plain.step (Plain.passing f) below s.store ins := by
  obtain ⟨v, value, hv, hresult, hvalue⟩ :=
    result_of_isAvailable h hflow hs hframes hins hpure hearlier havailable
  have hstring := not_string_of_isShareable h hflow hs hframes hins hshareable hresult
  refine Eq.trans (Plain.step_of_move rfl hv) ?_
  rw [Plain.step_of_result (f := Plain.passing f) hresult, Store.load_eq (hvalue hstring) hstring]

end Known

theorem revision_share (flow : Flow) : Revision (·.op = .move) (share flow) := fun s i s' h => by
  refine ⟨revises_share flow s i s' h, (share_cases h).imp_right ?_⟩
  rintro ⟨ins, j, earlier, -, -, -, -, -, hb⟩
  exact ⟨_, by rfl, congrArg Block.code hb⟩

theorem exists_share (hflow : flow.Describes b) (hb : b.Loadable) (hi : i < b.code.size)
    (changed : Bool) : ∃ s', share flow (b, changed) i = some s' := by
  have hholds : ∀ r, ∃ found, holdsNoString flow b r i = some found := by
    intro r
    obtain ⟨found, hfound⟩ := Flow.exists_constantAt (r := r) (i := i) hflow
      fun o ins hins hop => hb o ins hins (.inl hop)
    unfold holdsNoString
    rw [hfound]
    cases found <;> exact ⟨_, rfl⟩
  have hshareable : ∀ ins : Instruction, ∃ found, isShareable flow b ins i = some found := by
    intro ins
    obtain ⟨first, hfirst⟩ := hholds ins.a
    obtain ⟨second, hsecond⟩ := hholds ins.b
    unfold isShareable
    rw [hfirst, hsecond]
    split <;> first | exact ⟨_, rfl⟩ | (cases first <;> exact ⟨_, rfl⟩)
  obtain ⟨shareable, hyes⟩ := hshareable b.code[i]
  unfold share
  dsimp only
  rw [Array.getElem?_eq_getElem hi]
  dsimp only [bind_eq_bind, bind_some]
  rw [hyes]
  split
  · exact ⟨_, rfl⟩
  dsimp only [bind_some]
  split
  · exact ⟨_, rfl⟩
  split
  · exact ⟨_, rfl⟩
  rename_i j hj
  have hlt : j < b.code.size := (List.mem_range.1 (List.mem_of_find?_eq_some hj)).trans hi
  rw [Array.getElem?_eq_getElem hlt]
  exact ⟨_, rfl⟩

/-- Sharing repeated operations in all blocks of a program keeps every outcome of it. -/
theorem sameRuns_shareAll {p : Program} (hp : p.Sourced) :
    ∃ q, p.rewrite (fun b => shareAll (.ofBlock p b) (b, false)) = some q ∧ p.SameRuns q := by
  refine hp.sameRuns_loop revision_share (fun flow s i hflow hb hi => exists_share hflow hb hi s.2) ?_
  intro b hb s f below t t' ins new hs hframes ht hstage hins hnew hchanged
  obtain ⟨old, j, earlier, hold, hpure, hshareable, havailable, hearlier, hb'⟩ :=
    (share_cases ht).resolve_left hchanged
  cases hold.symm.trans hins
  rw [hb', Block.getElem?_setInstruction _ hins] at hnew
  cases hnew
  exact step_share hstage (Flow.describes_ofBlock p b) hs hframes hins hpure hshareable hearlier
    havailable

/-- The code with the operands of both sums read from where they come from. They may be strings. -/
def readCode : Program :=
  ⟨#[(chosenCode.root.setInstruction 9 { op := .operate .add, dest := 9, a := 3, b := 6 }).setInstruction
    18 { op := .operate .add, dest := 16, a := 3, b := 6 }]⟩

/-- That code with `x` known to be false. -/
def knownCode : Program :=
  ⟨#[[(1, 3), (2, 0), (7, 7), (16, 14)].foldl (fun b (i, dest) =>
    b.setInstruction i { op := .loadConstant, dest, k := 2 }) readCode.root]⟩

/-- That code with the second sum copied from the first. -/
def sharedCode : Program := ⟨#[knownCode.root.setInstruction 18 { op := .move, dest := 16, a := 9 }]⟩

theorem readAllSources_chosen :
    readAllSources (.ofBlock chosenCode chosenCode.root) chosenCode.root = (readCode.root, true) := by
  simp [readAllSources, readSources, hasSecond, Flow.sourceOf, Flow.isStableAt, Flow.writerBefore?,
    Flow.onlyWriter?, Flow.dominates, Flow.params_ofBlock, Flow.jumps_ofBlock, Flow.writers_ofBlock,
    chosenCode, readCode, Program.root, Program.block, Block.setInstruction, Instruction.writes?,
    Opcode.isPure, Opcode.isBranch, List.range_succ, List.filter]

theorem shareAll_chosen :
    shareAll (.ofBlock chosenCode chosenCode.root) (readCode.root, true) = some (readCode.root, true) ∧
      shareAll (.ofBlock knownCode knownCode.root) (knownCode.root, false) =
        some (sharedCode.root, true) := by
  unfold shareAll share isShareable holdsNoString isAvailable hasStableOperands Flow.isStableAt
    Flow.constantAt Flow.writerBefore? Flow.onlyWriter? Flow.dominates
  simp only [Flow.params_ofBlock, Flow.jumps_ofBlock, Flow.writers_ofBlock]
  constructor <;> cbv

theorem result_pass_chosen : pass.result? chosenCode = some readCode := by
  have himprove : chosenCode.places.foldlM pass.improve (chosenCode, false) = some (readCode, true) := by
    have hrun : pass.run chosenCode chosenCode.root = some (readCode.root, true) :=
      (congrArg (shareAll _) readAllSources_chosen).trans shareAll_chosen.1
    show ((pass.run chosenCode chosenCode.root).bind _).bind _ = _
    rw [hrun]
    rfl
  unfold Pass.result?
  rw [himprove]
  cbv

theorem result_folding_readCode : Folding.pass.result? readCode = some knownCode := by
  unfold Pass.result? Pass.improve Folding.pass Folding.instruction Folding.operand Flow.constantAt
    Flow.writerBefore? Flow.onlyWriter? Flow.dominates
  simp only [Flow.params_ofBlock, Flow.jumps_ofBlock, Flow.writers_ofBlock, Flow.readCount_ofBlock]
  cbv

theorem sourced_knownCode : knownCode.Sourced :=
  .improved (.improved sourced_chosen .sharing result_pass_chosen) .folding result_folding_readCode

/-- The sum is shared once a pass has found that `x` is not a string. -/
theorem sameRuns_shareAll_chosen : knownCode.Sourced ∧
    knownCode.rewrite (fun b => shareAll (.ofBlock knownCode b) (b, false)) = some sharedCode ∧
      knownCode.SameRuns sharedCode := by
  have hshared : knownCode.rewrite (fun b => shareAll (.ofBlock knownCode b) (b, false)) =
      some sharedCode := by
    simp only [Program.rewrite, show knownCode.blocks.toList = [knownCode.root] from rfl,
      List.mapM_cons, List.mapM_nil, shareAll_chosen.2]
    rfl
  obtain ⟨q, hq, hsame⟩ := sameRuns_shareAll sourced_knownCode
  cases hshared.symm.trans hq
  exact ⟨sourced_knownCode, hshared, hsame⟩

/-! ## Reading from where a value was copied -/

/-- A register that one instruction alone writes is not copied in front of that instruction. -/
def CopiesWritten (b : Block) : Prop :=
  ∀ (d e : Nat) (copy writer : Instruction), b.code[d]? = some copy → copy.op = .move →
    b.code[e]? = some writer → writer.writes? = some copy.a → b.OnlyWriter copy.a e → e ≤ d

section Sources

variable {p : Program} (h : Stage (·.op.isPure = true) b f.block f.counter t t')
  (hb : CopiesWritten b) (hs : s.Informed K) (hframes : s.frames = f :: below)
  (hins : t.code[f.counter]? = some ins)
include h hb hs hframes hins

/-- A register has the value of the one it was copied from. -/
theorem register?_of_move {d : Nat} {r : Int} {copy : Instruction}
    (hwriter : (Flow.ofBlock p b).writerBefore? r f.counter = some d) (hcopy : t.code[d]? = some copy)
    (hop : copy.op = .move) (hstable : (Flow.ofBlock p b).isStableAt copy.a f.counter = true) :
    f.register? copy.a = f.register? r := by
  have hflow := Flow.describes_ofBlock p b
  have hflow' := h.describes hflow
  obtain ⟨honly, hdominates⟩ := Flow.writerBefore?_eq_some hwriter
  have hdom := hflow'.dominates hdominates
  have hdest : copy.dest = r := by
    obtain ⟨found, hfound, hwrites⟩ := (h.before.describes hflow).writes_of_onlyWriter honly
    cases hcopy.symm.trans hfound
    simpa [Instruction.writes?, hop] using hwrites
  have hold : b.code[d]? = some copy := by
    refine (h.changed d copy ((h.front d hdom.1).trans hcopy)).resolve_right fun hpure => ?_
    rw [hop] at hpure
    cases hpure
  have hknown := h.known hs hframes hins hcopy hdom fun htest => by
    rcases htest with hcase | hcase <;> rw [hop] at hcase <;> cases hcase
  have hcopied : f.block.StableAt copy.a d → f.register? copy.a = f.register? r := by
    intro hstable'
    obtain ⟨v, hv, hsource⟩ := hknown.copied hop (hdest ▸ hflow'.onlyWriter honly) hstable'
    rw [hsource, ← hv, hdest]
  unfold Flow.isStableAt at hstable
  split at hstable
  · refine hcopied (.inl fun o other hother hwrites => ?_)
    have hmem := hflow'.writers o other copy.a hother hwrites
    rw [List.isEmpty_iff.1 hstable] at hmem
    cases hmem
  · obtain ⟨e, he⟩ := isSome_iff_exists.1 hstable
    obtain ⟨honly', hdominates'⟩ := Flow.writerBefore?_eq_some he
    obtain ⟨writer, hwriter', hwrites⟩ := Flow.mem_writers_ofBlock.1
      ((Flow.onlyWriter?_eq_some honly').2 ▸ List.mem_singleton_self e)
    rcases Nat.lt_or_eq_of_le
      (hb d e copy writer hold hop hwriter' hwrites (hflow.onlyWriter honly')) with hlt | rfl
    · exact hcopied (.inr ⟨e, hflow'.onlyWriter honly',
        (hflow'.dominates hdominates').between hlt hdom.1⟩)
    · -- a copy of a register to itself
      cases hold.symm.trans hwriter'
      rw [← hdest]
      simp only [Instruction.writes?, hop, Option.some.injEq] at hwrites
      rw [hwrites]

theorem register?_sourceOf (rounds : Nat) (r : Int) :
    f.register? ((Flow.ofBlock p b).sourceOf t f.counter rounds r) = f.register? r := by
  induction rounds generalizing r with
  | zero => rfl
  | succ rounds ih =>
    unfold Flow.sourceOf
    split
    · rfl
    · rename_i d hwriter
      split
      · rfl
      · rename_i copy hcopy
        split
        · rename_i hyes
          rw [Bool.and_eq_true, decide_eq_true_eq] at hyes
          rw [ih]
          exact register?_of_move h hb hs hframes hins hwriter hcopy hyes.1 hyes.2
        · rfl

/-- An operation on the registers that its operands were copied from does what it does on the
operands. -/
theorem step_readSources (hpure : ins.op.isPure = true) :
    Plain.step (Plain.passing f) below s.store { ins with
        a := (Flow.ofBlock p b).sourceOf t f.counter t.code.size ins.a
        b := if hasSecond ins.op then (Flow.ofBlock p b).sourceOf t f.counter t.code.size ins.b
          else ins.b } =
      Plain.step (Plain.passing f) below s.store ins := by
  have hregister : ∀ r, (Plain.passing f).register
      ((Flow.ofBlock p b).sourceOf t f.counter t.code.size r) = (Plain.passing f).register r :=
    fun r => congrArg orOutside (register?_sourceOf h hb hs hframes hins t.code.size r)
  unfold Plain.step
  dsimp only
  cases hop : ins.op with
  | negate => simp only [hregister]
  | operate op => simp only [hregister, show hasSecond (.operate op) = true from rfl, if_true]
  | _ => simp [hop, Opcode.isPure] at hpure

end Sources

theorem revision_readSources (flow : Flow) :
    Revision (·.op.isPure = true) fun s i => some (readSources flow s i) := fun s i s' h => by
  cases h
  refine ⟨revises_readSources flow s i, (readSources_cases flow s i).imp_right ?_⟩
  rintro ⟨ins, -, hpure, hb⟩
  exact ⟨_, by exact hpure, congrArg Block.code hb⟩

/-- Reading operands from where they were copied keeps every outcome of a program whose blocks copy a
register that is written only once behind that write. -/
theorem sameRuns_readAllSources {p : Program} (hp : p.Sourced) (hcopies : ∀ b ∈ p.blocks, CopiesWritten b) :
    ∃ q, p.rewrite (fun b => some (readAllSources (.ofBlock p b) b)) = some q ∧ p.SameRuns q := by
  have hloop : p.rewrite (fun b => some (readAllSources (.ofBlock p b) b)) =
      p.loop fun flow s i => some (readSources flow s i) := by
    unfold Program.loop readAllSources
    congr 1
    funext b
    exact (List.foldlM_pure (m := Option)).symm
  rw [hloop]
  refine hp.sameRuns_loop revision_readSources (fun flow s i _ _ _ => ⟨_, rfl⟩) ?_
  intro b hb s f below t t' ins new hs hframes ht hstage hins hnew hchanged
  cases ht
  obtain ⟨old, hold, hpure, hb'⟩ := (readSources_cases _ t f.counter).resolve_left hchanged
  cases hold.symm.trans hins
  rw [hb', Block.getElem?_setInstruction _ hins] at hnew
  cases hnew
  exact step_readSources hstage (hcopies b hb) hs hframes hins hpure

theorem copiesWritten_chosen : ∀ b ∈ chosenCode.blocks, CopiesWritten b := by
  intro b hb d e copy writer hcopy hop hwriter hwrites _
  obtain rfl := Array.mem_singleton.1 hb
  obtain ⟨hd, rfl⟩ := Array.getElem?_eq_some_iff.1 hcopy
  obtain ⟨he, rfl⟩ := Array.getElem?_eq_some_iff.1 hwriter
  have hall : ∀ d e : Fin 19, (chosenCode.root.code[d]).op = .move →
      (chosenCode.root.code[e]).writes? = some (chosenCode.root.code[d]).a → e ≤ d := by decide
  exact hall ⟨d, hd⟩ ⟨e, he⟩ hop hwrites

theorem sameRuns_readAllSources_chosen : chosenCode.Sourced ∧ (∀ b ∈ chosenCode.blocks, CopiesWritten b) ∧
    ∃ q, chosenCode.rewrite (fun b => some (readAllSources (.ofBlock chosenCode b) b)) = some q ∧
      chosenCode.SameRuns q :=
  ⟨sourced_chosen, copiesWritten_chosen, sameRuns_readAllSources sourced_chosen copiesWritten_chosen⟩

end Sharing

end Inkwell
