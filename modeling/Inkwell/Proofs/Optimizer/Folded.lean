import Mathlib
import Inkwell.Proofs.Optimizer.Rewriting

/-!
# Folding constants keeps what a program does

A register that surely holds a constant holds it when the program runs, unless the constant is a string,
whose text can have changed. A string is folded only if the operation alone reads its register; then
nothing ever gets hold of the buffer, and the text is still the constant.
-/

namespace Inkwell

open List Option

namespace Folding

variable {p : Program} {b t t' : Block} {f : Activation} {s : Plain} {below : List Activation}
  {ins new load : Instruction} {K : Block → Prop} {r k : Int} {value : Datum} {d : Nat}

/-- Who reads a register that is read once. -/
theorem not_mem_reads {i : Nat} (hcount : (Flow.ofBlock p b).readCount r = 1)
    (hins : b.code[i]? = some ins) (hread : r ∈ p.reads b ins) :
    r ≠ b.ret ∧ ∀ (o : Nat) other, b.code[o]? = some other → o ≠ i → r ∉ p.reads b other := by
  obtain ⟨hi, hget⟩ := Array.getElem?_eq_some_iff.1 hins
  have hperm : (b.code.toList.flatMap (p.reads b)).count r =
      (p.reads b ins).count r + ((b.code.toList.eraseIdx i).flatMap (p.reads b)).count r := by
    have hsplit := getElem_cons_eraseIdx_perm (l := b.code.toList) (n := i) (by simpa using hi)
    rw [← (hsplit.flatMap_right (p.reads b)).count_eq r, flatMap_cons, count_append,
      Array.getElem_toList, hget]
  have hone := count_pos_iff.2 hread
  rw [Flow.readCount_ofBlock, hperm] at hcount
  refine ⟨fun hret => ?_, fun o other hother hoi hread' => ?_⟩
  · have := count_pos_iff.2 (show r ∈ [b.ret] by rw [hret]; exact mem_singleton_self _)
    omega
  · have hmem : other ∈ b.code.toList.eraseIdx i :=
      mem_eraseIdx_iff_getElem?.2 ⟨o, hoi, by simpa using hother⟩
    have := count_pos_iff.2 (mem_flatMap.2 ⟨other, hmem, hread'⟩)
    omega

section Known

variable (h : Stage (·.op = .loadConstant) b f.block f.counter t t')
  (hins : t.code[f.counter]? = some ins) (hs : s.Informed K) (hframes : s.frames = f :: below)
  (hnew : t'.code[f.counter]? = some new) (hop : new.op = .loadConstant)
include h hins hnew hop

/-- Nothing reads the register any more once the operation that did loads its result. -/
theorem secret_of_readCount (hcount : (Flow.ofBlock p b).readCount r = 1) (hread : r ∈ p.reads b ins)
    (hloads : (Flow.ofBlock p b).LoadsAt t r f.counter value k d load) : f.block.Secret r := by
  have hflow := h.describes (Flow.describes_ofBlock p b)
  have honly := hflow.onlyWriter hloads.writer
  have hsources : ∀ {other : Instruction}, other.op = .loadConstant → r ∉ other.sources := by
    intro other hload
    simp [Instruction.sources, hload]
  refine ⟨honly.1, ?_, fun o other hother => ?_, fun o other hother hwrites => ?_⟩
  · rw [h.after.ret, h.revises.ret, h.before.ret]
    exact (not_mem_reads hcount (h.behind ▸ hins) hread).1
  · by_cases ho : o = f.counter
    · subst ho
      cases (h.here.trans hnew).symm.trans hother
      exact hsources hop
    · rcases h.changed o other hother with hold | hload
      · exact fun hsource => (not_mem_reads hcount (h.behind ▸ hins) hread).2 o other hold ho
          (Instruction.sources_subset p b other hsource)
      · exact hsources hload
  · obtain rfl := honly.2 o other hother hwrites
    have hdom := hflow.dominates hloads.dominates
    cases ((h.front o hdom.1).trans hloads.code).symm.trans hother
    exact hloads.op

include hs hframes

/-- A register that is said to hold a constant holds it. -/
theorem datum_of_has (hread : r ∈ p.reads b ins) (hhas : Has (.ofBlock p b) t f.counter r value) :
    ∃ v, f.register? r = some v ∧ s.store.heap.datum v = value := by
  obtain ⟨⟨k, hconstant⟩, honce⟩ := hhas
  obtain ⟨⟨d, load, hloads⟩, -⟩ := Flow.constantAt_eq_some hconstant
  have hflow := Flow.describes_ofBlock p b
  obtain ⟨v, hv, hkind, hdatum⟩ := h.loaded hs hframes hins hflow hloads (.inl rfl)
  refine ⟨v, hv, ?_⟩
  cases hstring : value.isString with
  | false => exact hdatum fun hyes => absurd (hstring.symm.trans hyes) Bool.false_ne_true
  | true =>
    have hsecret := secret_of_readCount h hins hnew hop (honce hstring) hread hloads
    rw [hstring] at hkind
    cases v with
    | string buffer =>
      obtain ⟨-, o, load', hload', hop', hdest, hconstant'⟩ :=
        hs.guards f (by rw [hframes]; exact mem_cons_self) r buffer hsecret hv
      have hflow' := h.describes hflow
      obtain rfl := (hflow'.onlyWriter hloads.writer).2 o load' hload'
        (by rw [Instruction.writes?, hop', hdest])
      have hdom := hflow'.dominates hloads.dominates
      cases ((h.front o hdom.1).trans hloads.code).symm.trans hload'
      rw [hloads.place, h.constant hloads.constant] at hconstant'
      exact (Option.some.inj hconstant').symm
    | _ => cases hkind

/-- A load of the result of an operation on constants does what the operation does. -/
theorem result_of_computes
    (hcomputes : Computes (.ofBlock p b) t f.counter ins value) :
    f.result? s.store.heap ins = some (.ok value) := by
  unfold Activation.result?
  obtain ⟨x, hx, ⟨hneg, hresult⟩ | ⟨op, y, hoperate, hy, hresult⟩⟩ := hcomputes
  · obtain ⟨v, hv, hdatum⟩ := datum_of_has h hins hs hframes hnew hop
      (by simp [Program.reads, hneg]) hx
    simp only [hneg, hv, map_some, hdatum, hresult]
  · obtain ⟨v, hv, hdatum⟩ := datum_of_has h hins hs hframes hnew hop
      (by simp [Program.reads, hoperate]) hx
    obtain ⟨w, hw, hdatum'⟩ := datum_of_has h hins hs hframes hnew hop
      (by simp [Program.reads, hoperate]) hy
    simp only [hoperate, hv, hw, bind_some, map_some, hdatum, hdatum', hresult]

end Known

theorem revision_instruction (flow : Flow) : Revision (·.op = .loadConstant) (instruction flow) :=
  fun s i s' h => by
    refine ⟨revises_instruction flow s i s' h, (instruction_cases h).imp_right ?_⟩
    rintro ⟨ins, -, ⟨-, value, k, -, -, hb⟩ | ⟨result, -, hb⟩⟩
    · exact ⟨_, by rfl, congrArg Block.code hb⟩
    · have hcode : s'.1.code = (s.1.addConstant result).2.code.setIfInBounds i _ := congrArg Block.code hb
      rw [Block.code_addConstant] at hcode
      exact ⟨_, by rfl, hcode⟩

theorem exists_instruction {flow : Flow} (hflow : flow.Describes b) (hb : b.Loadable) {i : Nat}
    (hi : i < b.code.size) (changed : Bool) : ∃ s', instruction flow (b, changed) i = some s' := by
  have hconstant : ∀ r, ∃ found, flow.constantAt b r i = some found := fun r =>
    Flow.exists_constantAt hflow fun o ins hins hop => hb o ins hins (.inl hop)
  have hoperand : ∀ r, ∃ found, operand flow b r i = some found := by
    intro r
    obtain ⟨found, hfound⟩ := hconstant r
    unfold operand
    rw [hfound]
    cases found <;> exact ⟨_, rfl⟩
  obtain ⟨first, hfirst⟩ := hconstant b.code[i].a
  obtain ⟨x, hx⟩ := hoperand b.code[i].a
  obtain ⟨y, hy⟩ := hoperand b.code[i].b
  unfold instruction
  dsimp only
  rw [Array.getElem?_eq_getElem hi]
  dsimp only [bind_eq_bind, bind_some]
  split
  · rw [hfirst]
    cases first with
    | none => exact ⟨_, rfl⟩
    | some found =>
      dsimp only [bind_some]
      split <;> exact ⟨_, rfl⟩
  · rw [hfirst]
    cases first with
    | none => exact ⟨_, rfl⟩
    | some found =>
      dsimp only [bind_some]
      split <;> exact ⟨_, rfl⟩
  · rw [hx]
    cases x with
    | none => exact ⟨_, rfl⟩
    | some x =>
      dsimp only [bind_some]
      rw [hy]
      cases y with
      | none => exact ⟨_, rfl⟩
      | some y =>
        dsimp only [bind_some]
        split <;> exact ⟨_, rfl⟩
  · exact ⟨_, rfl⟩

/-- Folding constants in all blocks of a program keeps every outcome of it. -/
theorem sameRuns_folding {p : Program} (hp : p.Sourced) :
    ∃ q, p.rewrite (pass.run p) = some q ∧ p.SameRuns q := by
  refine hp.sameRuns_loop revision_instruction
    (fun flow s i hflow hb hi => exists_instruction hflow hb hi s.2) ?_
  intro b hb s f below t t' ins new hs hframes ht hstage hins hnew hchanged
  obtain ⟨old, hold, hcases⟩ := (instruction_cases ht).resolve_left hchanged
  cases hold.symm.trans hins
  rcases hcases with ⟨hop, value, k, hconstant, hstring, hb'⟩ | ⟨result, hcomputes, hb'⟩
  · rw [hb', Block.getElem?_setInstruction _ hins] at hnew
    cases hnew
    obtain ⟨⟨d, load, hloads⟩, -⟩ := Flow.constantAt_eq_some hconstant
    obtain ⟨v, hv, -, hdatum⟩ := hstage.loaded hs hframes hins (Flow.describes_ofBlock p b) hloads
      (.inl rfl)
    have hvalue := hdatum fun hyes => absurd (hstring.symm.trans hyes) Bool.false_ne_true
    refine Eq.trans (Plain.step_of_load rfl (hstage.constant hloads.constant)) ?_
    rw [Plain.step_of_move (f := Plain.passing f) hop hv, Store.load_eq hvalue hstring]
  · have hold' : (t.1.addConstant result).2.code[f.counter]? = some ins := by
      rwa [Block.code_addConstant]
    have hkept : f.block.constant? (t.1.addConstant result).1 = some result := by
      refine hstage.after.kept _ _ ?_
      rw [hb']
      exact Block.constant?_addConstant t.1 result
    have hnew' := hnew
    rw [hb', replaceByLoad, Block.getElem?_setInstruction _ hold'] at hnew
    cases hnew
    have hresult := result_of_computes hstage hins hs hframes hnew' rfl hcomputes
    refine Eq.trans (Plain.step_of_load rfl hkept) ?_
    rw [Plain.step_of_result (f := Plain.passing f) hresult]

theorem sameRuns_folding_chosen : chosenCode.Sourced ∧
    ∃ q, chosenCode.rewrite (pass.run chosenCode) = some q ∧ chosenCode.SameRuns q :=
  ⟨sourced_chosen, sameRuns_folding sourced_chosen⟩

end Folding

end Inkwell
