import Mathlib
import Inkwell.Proofs.Optimizer.Flows
import Inkwell.Proofs.Plain.Strokes

/-!
# What is known about the registers of an activation

Control only moves forward in a block. So when every way to an instruction passes another one in front
of it (`Block.Dominates`), that one has been done, and what it did to registers that no other
instruction writes still shows: a constant is where it was loaded, a copy is equal to what it was
copied from, a result is what the operation gives, and a test that did not leave the choice has failed
(`Activation.Known`).

Strings can change in place. What depends on the text of a string is known only as long as nothing
that may change one has been done in between (`Block.Calm`).
-/

namespace Inkwell

theorem Instruction.Stirs.mono {ins : Instruction} {c c' : Nat} (h : ins.Stirs c) (hle : c ≤ c') :
    ins.Stirs c' := by
  rcases h with hop | hop | hop | ⟨hop, htarget⟩
  · exact .inl hop
  · exact .inr (.inl hop)
  · exact .inr (.inr (.inl hop))
  · exact .inr (.inr (.inr ⟨hop, by omega⟩))

namespace Block

variable {b : Block}

/-- Nothing between `d` and `c` may have changed a string. -/
def Calm (b : Block) (d c : Nat) : Prop :=
  ∀ (o : Nat) ins, b.code[o]? = some ins → d < o → o < c → ¬ ins.Stirs c

theorem Calm.mono {d c c' : Nat} (h : b.Calm d c') (hle : c ≤ c') : b.Calm d c :=
  fun o ins hins hdo hoc hstirs => h o ins hins hdo (by omega) (hstirs.mono hle)

end Block

/-! ## Texts -/

namespace Heap

variable {h h' : Heap}

theorem datum_of_not_string {v : Value} (hv : (h.datum v).isString = false) :
    h'.datum v = h.datum v := by
  cases v <;> first | rfl | cases hv

/-- What is no string is loaded as itself. -/
theorem load_datum {v : Value} (hv : (h.datum v).isString = false) : h.load (h.datum v) = (v, h) := by
  cases v <;> first | rfl | cases hv

/-- A value is not equal to one that is no string, whatever the texts are. -/
theorem equal_eq_false {x y : Value} (hy : ∀ buffer, y ≠ .string buffer)
    (hequal : h.equal x y = false) : h'.equal x y = false := by
  unfold equal at *
  cases x <;> cases y <;> first | exact hequal | exact absurd rfl (hy _)

end Heap

/-! ## Facts -/

namespace Activation

variable {f g : Activation} {h h' : Heap} {d c : Nat} {ins : Instruction} {calm calm' : Prop}

/-- What is known because the instruction `ins` at `d` has been done. -/
structure Known (f : Activation) (h : Heap) (calm : Prop) (d : Nat) (ins : Instruction) : Prop where
  loaded : ins.op = .loadConstant → f.block.OnlyWriter ins.dest d →
    ∀ value, f.block.constant? ins.k = some value → ∃ v, f.register? ins.dest = some v ∧
      (h.datum v).isString = value.isString ∧ ((value.isString = true → calm) → h.datum v = value)
  copied : ins.op = .move → f.block.OnlyWriter ins.dest d → f.block.StableAt ins.a d →
    ∃ v, f.register? ins.dest = some v ∧ f.register? ins.a = some v
  computed : ins.op.isPure = true → f.block.OnlyWriter ins.dest d → f.block.StableAt ins.a d →
    (ins.op = .negate ∨ f.block.StableAt ins.b d) → calm →
    ∃ v value, f.register? ins.dest = some v ∧ f.result? h ins = some (.ok value) ∧
      (value.isString = false → h.datum v = value)
  tested : ins.IsTest → f.block.StableAt ins.a d →
    f.block.StableAt ins.b d → ∃ x y, f.register? ins.a = some x ∧ f.register? ins.b = some y ∧
      (((∃ buffer, y = .string buffer) → calm) → h.equal x y = false)

/-- A register whose value at `d` is its value from then on. -/
def Settles (b : Block) (d : Nat) (r : Int) : Prop := b.OnlyWriter r d ∨ b.StableAt r d

theorem result?_congr (ha : g.register? ins.a = f.register? ins.a)
    (hb : ins.op = .negate ∨ g.register? ins.b = f.register? ins.b)
    (hdatum : ∀ r x, f.register? r = some x → h'.datum x = h.datum x) :
    g.result? h' ins = f.result? h ins := by
  unfold result?
  cases hop : ins.op with
  | negate =>
    dsimp only
    rw [ha]
    cases hx : f.register? ins.a with
    | none => rfl
    | some x => simp only [Option.map_some, hdatum _ x hx]
  | operate op =>
    have hb' : g.register? ins.b = f.register? ins.b := by
      rcases hb with hneg | hb
      · rw [hop] at hneg
        cases hneg
      · exact hb
    dsimp only
    rw [ha, hb']
    cases hx : f.register? ins.a with
    | none => rfl
    | some x =>
      cases hy : f.register? ins.b with
      | none => rfl
      | some y =>
        simp only [Option.bind_some, Option.map_some, hdatum _ x hx, hdatum _ y hy]
  | _ => rfl

/-- What is known stays known while the registers that matter keep their values and, as far as it is
still calm, the strings their texts. -/
theorem Known.mono (hknown : f.Known h calm d ins) (hblock : g.block = f.block)
    (hregister : ∀ r, Settles f.block d r → g.register? r = f.register? r)
    (hcalm : calm' → calm ∧ ∀ r x, f.register? r = some x → h'.datum x = h.datum x) :
    g.Known h' calm' d ins where
  loaded hop honly value hvalue := by
    rw [hblock] at honly hvalue
    obtain ⟨v, hv, hkind, hdatum⟩ := hknown.loaded hop honly value hvalue
    refine ⟨v, (hregister _ (.inl honly)).trans hv, ?_, fun hstring => ?_⟩
    · rw [← hkind]
      cases v <;> rfl
    · have hwas := hdatum fun hs => (hcalm (hstring hs)).1
      cases hs : value.isString with
      | false => rw [Heap.datum_of_not_string (h := h) (by rw [hwas, hs]), hwas]
      | true => rw [(hcalm (hstring hs)).2 _ v hv, hwas]
  copied hop honly hstable := by
    rw [hblock] at honly hstable
    rw [hregister _ (.inl honly), hregister _ (.inr hstable)]
    exact hknown.copied hop honly hstable
  computed hpure honly ha hb hstill := by
    rw [hblock] at honly ha hb
    obtain ⟨hwas, hdatum⟩ := hcalm hstill
    obtain ⟨v, value, hv, hresult, hvalue⟩ := hknown.computed hpure honly ha hb hwas
    refine ⟨v, value, (hregister _ (.inl honly)).trans hv, ?_, fun hs => ?_⟩
    · rw [result?_congr (hregister _ (.inr ha))
        (hb.imp_right fun hb => hregister _ (.inr hb)) hdatum, hresult]
    · rw [hdatum _ v hv, hvalue hs]
  tested hop ha hb := by
    rw [hblock] at ha hb
    obtain ⟨x, y, hx, hy, hequal⟩ := hknown.tested hop ha hb
    refine ⟨x, y, (hregister _ (.inr ha)).trans hx, (hregister _ (.inr hb)).trans hy, fun hstring => ?_⟩
    by_cases hs : ∃ buffer, y = .string buffer
    · obtain ⟨hwas, hdatum⟩ := hcalm (hstring hs)
      have hstill := hequal fun _ => hwas
      unfold Heap.equal at hstill ⊢
      rw [hdatum _ x hx, hdatum _ y hy]
      exact hstill
    · exact Heap.equal_eq_false (fun buffer hbuffer => hs ⟨buffer, hbuffer⟩)
        (hequal fun h => absurd h hs)

/-- Everything is known that the instructions in front have done. An activation that has ended
need not know anything. -/
def Knows (f : Activation) (h : Heap) : Prop :=
  f.counter < f.block.code.size → ∀ (d : Nat) ins, f.block.code[d]? = some ins →
    f.block.Dominates d f.counter → (ins.IsTest → (f.counter : Int) < ins.target) →
    f.Known h (f.block.Calm d f.counter) d ins

/-- At the start nothing is known. -/
theorem knows_of_start (hstart : f.counter = 0) : f.Knows h := by
  intro _ d ins _ hdom
  have hlt := hdom.1
  omega

/-- An activation goes on behind an instruction. What the instruction has done becomes known, and what was
known stays known. -/
theorem Knows.advance (hknows : f.Knows h) (hforward : f.block.Forward)
    (hins : f.block.code[f.counter]? = some ins) (hblock : g.block = f.block)
    (hleads : g.counter = f.counter + 1 ∨ ins.op.isBranch = true ∧ g.counter = ins.target.toNat)
    (hregister : ins.op ≠ .tailCall → ∀ r, ins.writes? ≠ some r → g.register? r = f.register? r)
    (hdatum : ¬ ins.Stirs g.counter → ∀ r x, f.register? r = some x → h'.datum x = h.datum x)
    (hnew : ins.op ≠ .tailCall → (ins.IsTest → (g.counter : Int) < ins.target) →
      g.Known h' (f.block.Calm f.counter g.counter) f.counter ins) :
    g.Knows h' := by
  intro hlt d other hother hdom htest
  rw [hblock] at hlt hother hdom ⊢
  have hcounter := (Array.getElem?_eq_some_iff.1 hins).1
  have htail : ins.op ≠ .tailCall := by
    intro hop
    have hlast := (hforward.tailCall _ _ hins hop).1
    rcases hleads with hnext | ⟨hbranch, -⟩
    · omega
    · rw [hop] at hbranch
      cases hbranch
  have hle : f.counter < g.counter := by
    rcases hleads with hnext | ⟨hbranch, hnext⟩
    · omega
    · have htarget := hforward.targets _ _ hins hbranch
      omega
  rcases hdom.step hforward hins hleads with rfl | hdom'
  · obtain rfl : ins = other := Option.some.inj (hins.symm.trans hother)
    exact hnew htail htest
  · have hknown := hknows hcounter d other hother hdom' fun hop => by
      have hbefore := htest hop
      omega
    refine hknown.mono hblock (fun r hr => hregister htail r ?_) fun hcalm => ?_
    · rcases hr with honly | hstable
      · intro hwrites
        have hsame := honly.2 _ _ hins hwrites
        have hlt' := hdom'.1
        omega
      · exact hstable.not_writes hins (Nat.le_of_lt hdom'.1)
    · exact ⟨hcalm.mono (Nat.le_of_lt hle), hdatum (hcalm _ _ hins hdom'.1 hle)⟩

end Activation

end Inkwell
