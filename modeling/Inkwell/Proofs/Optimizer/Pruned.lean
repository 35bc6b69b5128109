import Mathlib
import Inkwell.Proofs.Optimizer.Rewriting

/-!
# Removing shadowed tests keeps what a program does

A test whose subject has failed an earlier test for an equal constant fails too. Numbers, truth values
and the like never change, so this holds whatever is done between the two. Strings can change in place:
for them it holds if nothing that may change a string is done between the load of a pattern and the
later test.
-/

namespace Inkwell

open Option

theorem Number.equal_right {x y : Number} (h : x.equal y = true) (z : Number) :
    z.equal x = z.equal y := by
  unfold equal at *
  simp only [Bool.and_eq_true, Bool.or_eq_true, Bool.not_eq_true', beq_iff_eq] at h
  obtain ⟨⟨hx, hy⟩, hbits | ⟨hx', hy'⟩⟩ := h
  · obtain ⟨x⟩ := x
    obtain ⟨y⟩ := y
    obtain rfl : x = y := hbits
    rfl
  · have hzero : ∀ {w : Number}, w.isZero = true → (z.bits == w.bits || z.isZero && w.isZero) = z.isZero := by
      intro w hw
      cases hz : z.isZero with
      | true => simp [hw]
      | false =>
        have hne : z.bits ≠ w.bits := by
          rintro hbits
          obtain ⟨z⟩ := z
          obtain ⟨w⟩ := w
          obtain rfl : z = w := hbits
          exact absurd (hz.symm.trans hw) Bool.false_ne_true
        simpa [hw] using hne
    rw [hx, hy, hzero hx', hzero hy']

/-- Equal constants are equal to the same data. -/
theorem Datum.equal_right {x y : Datum} (h : x.equal y = true) (z : Datum) : z.equal x = z.equal y := by
  cases x with
  | number x =>
    cases y with
    | number y =>
      cases z with
      | number z => exact Number.equal_right h z
      | _ => rfl
    | _ => simp [equal] at h
  | _ => cases y <;> simp_all [equal]

/-- A test that fails does nothing. -/
theorem Plain.step_of_unequal {f : Activation} {below : List Activation} {s : Store} {ins : Instruction}
    (htest : ins.IsTest) {x y : Value} (hx : f.register? ins.a = some x)
    (hy : f.register? ins.b = some y) (hequal : s.heap.equal x y = false) :
    step f below s ins = .ok ⟨s, f :: below⟩ := by
  have hnot : areEqual f s ins.a ins.b = .ok false := by
    unfold areEqual
    rw [Activation.register_of_some hx, Activation.register_of_some hy]
    exact congrArg Except.ok hequal
  unfold step
  rcases htest with hop | hop <;> rw [hop] <;> dsimp only <;> rw [hnot] <;> rfl

namespace Pruning

/-- No string that is a pattern of a choice can change before a later test of the choice for the same
subject. -/
def KeepsPatterns (b : Block) : Prop :=
  ∀ (j i : Nat) (earlier ins : Instruction), b.code[j]? = some earlier → b.code[i]? = some ins →
    earlier.IsTest → ins.IsTest → earlier.a = ins.a → earlier.target = ins.target → j < i →
    ∀ (d : Nat) (load : Instruction) (text : Text), b.code[d]? = some load → load.op = .loadConstant →
      b.constant? load.k = some (.string text) → load.dest = earlier.b ∨ load.dest = ins.b →
      b.Calm d i

variable {b t t' : Block} {f : Activation} {s : Plain} {below : List Activation} {flow : Flow}
  {ins earlier : Instruction} {K : Block → Prop} {j : Nat}

theorem isTest_eq_true (h : isTest ins.op = true) : ins.IsTest := by
  simpa [isTest, Instruction.IsTest] using h

section Shadowed

variable {other value : Datum} (h : Stage (·.op = .nop) b f.block f.counter t t')
  (hflow : flow.Describes b) (hb : b.Loadable) (hpatterns : KeepsPatterns b)
  (hshadows : Shadows flow t j earlier f.counter ins other value)
include h hflow hb hpatterns hshadows

/-- Nothing changes a string that is a pattern of one of the tests. -/
theorem calm_of_shadows {r k : Int} {i d : Nat} {load : Instruction} {constant : Datum}
    (hloads : flow.LoadsAt t r i constant k d load) (hi : i ≤ f.counter)
    (hr : r = earlier.b ∨ r = ins.b) (hstring : constant.isString = true) :
    f.block.Calm d f.counter := by
  have hold : ∀ {o : Nat} {x : Instruction}, o < f.counter → t.code[o]? = some x → x.op ≠ .nop →
      b.code[o]? = some x := fun ho hx hop =>
    (h.changed _ _ ((h.front _ ho).trans hx)).resolve_right hop
  have hdom := (h.describes hflow).dominates hloads.dominates
  have hjlt := ((h.describes hflow).dominates hshadows.dominates).1
  have hload := hold (Nat.lt_of_lt_of_le hdom.1 hi) hloads.code (by rw [hloads.op]; simp)
  have htest := isTest_eq_true hshadows.test
  have htest' := isTest_eq_true hshadows.earlierTest
  have hearlier := hold hjlt hshadows.earlierCode (by rcases htest' with hop | hop <;> rw [hop] <;> simp)
  obtain ⟨text, rfl⟩ : ∃ text, constant = .string text := by
    cases constant <;> first | exact ⟨_, rfl⟩ | cases hstring
  have hconstant : b.constant? load.k = some (.string text) := by
    obtain ⟨found, hfound⟩ := isSome_iff_exists.1 (hb d load hload (.inl hloads.op))
    have hkept := h.before.kept _ _ hfound
    rw [hloads.place, hloads.constant] at hkept
    rw [hfound, ← hkept]
  have hcalm := hpatterns j f.counter earlier ins hearlier (h.behind ▸ hshadows.code) htest' htest
    hshadows.subject hshadows.target hjlt d load text hload hloads.op hconstant
    (hloads.dest (h.before.describes hflow) ▸ hr)
  intro o x hx hdo hoc hstirs
  rcases h.changed o x hx with hsame | hop
  · exact hcalm o x hsame hdo hoc hstirs
  · rcases hstirs with hcase | hcase | hcase | ⟨hcase | hcase, -⟩ <;> rw [hop] at hcase <;> cases hcase

/-- The test that is taken out would fail. -/
theorem step_of_shadows (hforward : b.Forward) (hs : s.Informed K) (hframes : s.frames = f :: below) :
    Plain.step (Plain.passing f) below s.store ins = .ok ⟨s.store, Plain.passing f :: below⟩ := by
  have hflow' := h.describes hflow
  have htest := isTest_eq_true hshadows.test
  have htest' := isTest_eq_true hshadows.earlierTest
  have hdom := hflow'.dominates hshadows.dominates
  obtain ⟨k, hconstant⟩ := hshadows.constant
  obtain ⟨⟨d, load, hloads⟩, -⟩ := Flow.constantAt_eq_some hconstant
  obtain ⟨k', hconstant'⟩ := hshadows.earlierConstant
  obtain ⟨⟨d', load', hloads'⟩, -⟩ := Flow.constantAt_eq_some hconstant'
  obtain ⟨w, hw, -, hpattern⟩ := h.loaded hs hframes hshadows.code hflow hloads (.inl rfl)
  obtain ⟨y, hy, hkind, hpattern'⟩ := h.loaded hs hframes hshadows.code hflow hloads' (.inr hdom)
  have hvalue := hpattern fun hstring =>
    calm_of_shadows h hflow hb hpatterns hshadows hloads (Nat.le_refl _) (.inr rfl) hstring
  have hcalm : other.isString = true → f.block.Calm d' f.counter := fun hstring =>
    calm_of_shadows h hflow hb hpatterns hshadows hloads' (Nat.le_of_lt hdom.1) (.inl rfl) hstring
  have hother := hpattern' hcalm
  have htarget : (f.counter : Int) < earlier.target := by
    rw [hshadows.target]
    refine hforward.targets _ _ (h.behind ▸ hshadows.code) ?_
    rcases htest with hop | hop <;> rw [hop] <;> rfl
  have hdom' := hflow'.dominates hloads'.dominates
  obtain ⟨x, y', hx, hy', hunequal⟩ :=
    (h.known hs hframes hshadows.code hshadows.earlierCode hdom fun _ => htarget).tested htest'
      (hflow'.stableAt hshadows.stable) (.inr ⟨d', hflow'.onlyWriter hloads'.writer, hdom'⟩)
  cases hy.symm.trans hy'
  have hfailed : s.store.heap.equal x y = false := by
    refine hunequal fun ⟨buffer, hbuffer⟩ => ?_
    have hstring : other.isString = true := by rw [← hkind, hbuffer]; rfl
    exact fun o ins hins hjo => hcalm hstring o ins hins (Nat.lt_trans hdom'.1 hjo)
  refine Plain.step_of_unequal (f := Plain.passing f) htest (hshadows.subject ▸ hx) hw ?_
  have hindistinct : value.equal other = true := by
    have hyes := hshadows.indistinct
    rw [isIndistinct, Bool.and_eq_true] at hyes
    exact hyes.2
  unfold Heap.equal at hfailed ⊢
  rw [hvalue, Datum.equal_right hindistinct, ← hother]
  exact hfailed

end Shadowed

theorem revision_removeShadowed (flow : Flow) : Revision (·.op = .nop) (removeShadowed flow) :=
  fun s i s' h => by
    refine ⟨revises_removeShadowed flow s i s' h, (removeShadowed_cases h).imp_right ?_⟩
    rintro ⟨j, earlier, ins, other, value, -, hb⟩
    exact ⟨_, by rfl, congrArg Block.code hb⟩

theorem exists_removeShadowed (hflow : flow.Describes b) (hb : b.Loadable) {i : Nat}
    (hi : i < b.code.size) (changed : Bool) : ∃ s', removeShadowed flow (b, changed) i = some s' := by
  have hconstant : ∀ r i, ∃ found, flow.constantAt b r i = some found := fun r i =>
    Flow.exists_constantAt hflow fun o ins hins hop => hb o ins hins (.inl hop)
  have hany : ∀ (ins : Instruction) (value : Datum) (places : List Nat), (∀ j ∈ places, j < i) →
      ∃ found, places.anyM (isShadowing flow b i ins value) = some found := by
    intro ins value places hplaces
    induction places with
    | nil => exact ⟨_, rfl⟩
    | cons j rest ih =>
      obtain ⟨later, hlater⟩ := ih fun j hj => hplaces j (List.mem_cons_of_mem _ hj)
      have hj := hplaces j List.mem_cons_self
      obtain ⟨found, hfound⟩ : ∃ found, isShadowing flow b i ins value j = some found := by
        have hlt : j < b.code.size := by omega
        obtain ⟨constant, hconstant⟩ := hconstant b.code[j].b j
        unfold isShadowing
        rw [Array.getElem?_eq_getElem hlt]
        dsimp only [bind_eq_bind, bind_some]
        rw [hconstant]
        split
        · cases constant <;> exact ⟨_, rfl⟩
        · exact ⟨_, rfl⟩
      rw [List.anyM_cons, hfound, hlater]
      cases found <;> exact ⟨_, rfl⟩
  obtain ⟨constant, hfound⟩ := hconstant b.code[i].b i
  unfold removeShadowed
  dsimp only
  rw [Array.getElem?_eq_getElem hi]
  dsimp only [bind_eq_bind, bind_some]
  rw [hfound]
  split
  · exact ⟨_, rfl⟩
  · cases constant with
    | none => exact ⟨_, rfl⟩
    | some found =>
      obtain ⟨shadowed, hshadowed⟩ := hany b.code[i] found.1 (List.range i)
        fun j hj => List.mem_range.1 hj
      dsimp only [bind_some]
      rw [hshadowed]
      dsimp only [bind_some]
      split <;> exact ⟨_, rfl⟩

/-- Taking shadowed tests out of all blocks of a program keeps every outcome of it, if no string that
is a pattern can change before a later test of the choice. -/
theorem sameRuns_removeAllShadowed {p : Program} (hp : p.Sourced)
    (hpatterns : ∀ b ∈ p.blocks, KeepsPatterns b) :
    ∃ q, p.rewrite (fun b => removeAllShadowed (.ofBlock p b) b) = some q ∧ p.SameRuns q := by
  refine hp.sameRuns_loop revision_removeShadowed
    (fun flow s i hflow hb hi => exists_removeShadowed hflow hb hi s.2) ?_
  intro b hb s f below t t' ins new hs hframes ht hstage hins hnew hchanged
  obtain ⟨j, earlier, old, other, value, hshadows, hb'⟩ :=
    (removeShadowed_cases ht).resolve_left hchanged
  cases hshadows.code.symm.trans hins
  rw [hb', Block.getElem?_setInstruction _ hins] at hnew
  cases hnew
  obtain ⟨hforward, hloadable, -⟩ := hp.block hb
  exact (step_of_shadows hstage (Flow.describes_ofBlock p b) hloadable (hpatterns b hb) hshadows
    hforward hs hframes).symm

theorem keepsPatterns_chosen : ∀ b ∈ chosenCode.blocks, KeepsPatterns b := by
  intro b hb j i _ _ _ _ _ _ _ _ _ _ _ _ _ _ _ _ _ other hother _ _
  obtain rfl := Array.mem_singleton.1 hb
  have hcalm : ∀ ins ∈ chosenCode.root.code, ¬ ins.Stirs i := by
    simp [chosenCode, Program.root, Program.block, Instruction.Stirs]
  exact hcalm other (Array.mem_of_getElem? hother)

theorem sameRuns_removeAllShadowed_chosen : chosenCode.Sourced ∧
    (∀ b ∈ chosenCode.blocks, KeepsPatterns b) ∧
    ∃ q, chosenCode.rewrite (fun b => removeAllShadowed (.ofBlock chosenCode b) b) = some q ∧
      chosenCode.SameRuns q :=
  ⟨sourced_chosen, keepsPatterns_chosen,
    sameRuns_removeAllShadowed sourced_chosen keepsPatterns_chosen⟩

end Pruning

end Inkwell
