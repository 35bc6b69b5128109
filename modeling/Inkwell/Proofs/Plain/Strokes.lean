import Mathlib
import Inkwell.Proofs.Code.Sound
import Inkwell.Proofs.Heap.Contents
import Inkwell.Proofs.Machine.Standard
import Inkwell.Proofs.Plain.Basic

/-!
# What one instruction can do

An instruction that succeeds changes the activations of a machine in one of three ways (`Stroke`): the
innermost one goes on, with a new value in a register or not; another comes on top of it; or another
takes its place.

Strings are shared by reference, so it matters which of them a value or an object can refer to.
Nothing makes up a reference: the strings that get into registers and objects were in the registers
that the instruction looks at, were in objects, or are new (`Heap.Comes`). And only the instruction
that sets an element changes a text (`Plain.Strikes`).
-/

namespace Inkwell

open List Option Program Heap

variable {s s' : Store} {arguments : List Value} {container key v : Value} {buffer place : Nat}
  {d : Datum}

/-! ## The code stays the same -/

theorem Deed.code_perform {deed : Deed} {reply : Reply} (h : deed.perform s = .ok reply s') :
    s'.code = s.code := by
  cases deed with
  | write t v =>
    obtain ⟨code, heap, text, refusal⟩ := s
    cases refusal <;> cases h
    rfl
  | _ =>
    cases h
    try rfl

/-- What a standard function answers is what comes of its deed. -/
theorem Store.exists_of_ask {id : Int} (h : s.ask id arguments = .ok (v, s')) :
    ∃ deed : Deed, deed.Passes (s.sight (Native.argument arguments)) ∧
      deed.perform s = .ok (.answer v) s' := by
  unfold Store.ask at h
  split at h
  · cases h
  · rename_i n hn
    obtain ⟨deed, hdoes, hpasses⟩ := Native.does_of_standard hn
    refine ⟨_, hpasses _, ?_⟩
    split at h
    · rename_i hrun
      cases h
      exact (hdoes.run ..).symm.trans hrun
    · cases h
    · cases h

theorem Store.code_ask {id : Int} (h : s.ask id arguments = .ok (v, s')) : s'.code = s.code := by
  obtain ⟨deed, -, hrun⟩ := s.exists_of_ask h
  exact Deed.code_perform hrun

theorem Store.code_element (h : s.element container key = .ok (v, s')) : s'.code = s.code := by
  cases container with
  | composite place =>
    obtain ⟨w, -, hw⟩ := except_bind_ok h
    cases hw
    rfl
  | string buffer =>
    obtain ⟨d, -, hd⟩ := except_bind_ok h
    cases hd
    rfl
  | _ => cases h

theorem Store.code_assign (h : s.assign container key v = .ok s') : s'.code = s.code := by
  cases container with
  | composite place =>
    obtain ⟨c, -, hc⟩ := except_bind_ok h
    obtain ⟨label, -, hlabel⟩ := except_bind_ok hc
    cases hlabel
    rfl
  | string buffer =>
    obtain ⟨found, -, hfound⟩ := except_bind_ok h
    cases hfound
    rfl
  | _ => cases h

/-! ## Where strings come from -/

namespace Heap

/-- Some object holds the string in a buffer. -/
def Holds (h : Heap) (buffer : Nat) : Prop :=
  ∃ (place : Nat) (o : Object), h.objects[place]? = some o ∧ .string buffer ∈ o.body.owned

/-- Where a string comes from once the heap `h` has become `h'`: an object held it, it is one of the
`sources`, or it is new. -/
def Comes (sources : List Value) (h h' : Heap) (buffer : Nat) : Prop :=
  h.Holds buffer ∨ .string buffer ∈ sources ∨ h.strings.size ≤ buffer ∧ buffer < h'.strings.size

/-- All strings of the heap `h'` come from `h` and from `sources`, and the texts of `h` are still
there. -/
structure Spreads (sources : List Value) (h h' : Heap) : Prop where
  held : ∀ buffer, h'.Holds buffer → Comes sources h h' buffer
  grows : h.strings.size ≤ h'.strings.size
  texts : ∀ buffer < h.strings.size, h'.text buffer = h.text buffer

variable {h h' h'' : Heap} {sources sources' : List Value}

theorem Spreads.refl (sources : List Value) (h : Heap) : Spreads sources h h :=
  ⟨fun _ hheld => .inl hheld, Nat.le_refl _, fun _ _ => rfl⟩

/-- One change after the other; what goes in later may have been made by the first. -/
theorem Spreads.trans (first : Spreads sources h h') (second : Spreads sources' h' h'')
    (hsources : ∀ buffer, .string buffer ∈ sources' →
      .string buffer ∈ sources ∨ h.strings.size ≤ buffer ∧ buffer < h''.strings.size) :
    Spreads sources h h'' where
  held buffer hheld := by
    have hgrows := first.grows
    have hgrows' := second.grows
    rcases second.held buffer hheld with hheld | hsource | ⟨hle, hlt⟩
    · rcases first.held buffer hheld with hheld | hsource | ⟨hle, hlt⟩
      · exact .inl hheld
      · exact .inr (.inl hsource)
      · exact .inr (.inr ⟨hle, by omega⟩)
    · exact .inr (hsources buffer hsource)
    · exact .inr (.inr ⟨by omega, hlt⟩)
  grows := Nat.le_trans first.grows second.grows
  texts buffer hlt := by
    rw [second.texts buffer (Nat.lt_of_lt_of_le hlt first.grows), first.texts buffer hlt]

theorem Spreads.mono (hspreads : Spreads sources h h')
    (hsources : ∀ buffer, .string buffer ∈ sources → .string buffer ∈ sources') :
    Spreads sources' h h' where
  held buffer hheld := (hspreads.held buffer hheld).imp_right (Or.imp_left (hsources buffer))
  grows := hspreads.grows
  texts := hspreads.texts

/-- The objects change and the strings stay. -/
theorem spreads_objects {objects : Array Object}
    (hobjects : ∀ (place : Nat) o, objects[place]? = some o →
      ∀ buffer, .string buffer ∈ o.body.owned → h.Holds buffer ∨ .string buffer ∈ sources) :
    Spreads sources h { h with objects } where
  held buffer hheld := by
    obtain ⟨place, o, ho, hmem⟩ := hheld
    exact (hobjects place o ho buffer hmem).imp_right .inl
  grows := Nat.le_refl _
  texts _ _ := rfl

theorem spreads_modify {g : Object → Object}
    (hg : ∀ o buffer, h.objects[place]? = some o → .string buffer ∈ (g o).body.owned → .string
      buffer ∈ o.body.owned ∨ .string buffer ∈ sources) :
    Spreads sources h { h with objects := h.objects.modify place g } := by
  refine spreads_objects fun other o ho buffer hmem => ?_
  rw [Array.getElem?_modify] at ho
  split at ho
  · rename_i hplace
    subst hplace
    obtain ⟨o', ho', rfl⟩ := map_eq_some_iff.mp ho
    exact (hg o' buffer ho' hmem).imp_left fun hheld => ⟨place, o', ho', hheld⟩
  · exact .inl ⟨other, o, ho, hmem⟩

theorem spreads_newObject {body : Body} (hbody : ∀ buffer, .string buffer ∈ body.owned →
    .string buffer ∈ sources) : Spreads sources h (h.newObject body).2 := by
  refine spreads_objects fun place o ho buffer hmem => ?_
  rw [Array.getElem?_push] at ho
  split at ho
  · cases ho
    exact .inr (hbody buffer hmem)
  · exact .inl ⟨place, o, ho, hmem⟩

theorem spreads_releaseAll (h : Heap) (work : List Value) : Spreads [] h (h.releaseAll work) := by
  fun_induction releaseAll h work with
  | case1 h => exact .refl [] h
  | case2 h v rest hfound ih => exact ih
  | case3 h v rest place o hfound ih =>
    refine Spreads.trans (spreads_modify fun o buffer _ hmem => .inl ?_) ih (by simp)
    unfold Object.disown at hmem
    split at hmem
    · cases hbody : o.body <;>
        simp [hbody, Body.cleared, Body.owned, Composite.values] at hmem
    · exact hmem

theorem mem_values_set {c : Composite} {key : Key} {w : Value} (hmem : w ∈ (c.set key v).1.values) :
    w ∈ c.values ∨ w ∈ [v] := by
  have hin := (Composite.values_set c key v).mem_iff.mpr (mem_append_right _ hmem)
  rcases mem_cons.mp hin with rfl | hin
  · exact .inr (mem_singleton_self w)
  · exact .inl hin

theorem spreads_putElement (h : Heap) (place : Nat) (key : Key) (v : Value) :
    Spreads [v] h (h.putElement place key v) := by
  have hput : ∀ o, h.objects[place]? = some o →
      Spreads [v] h { h with objects :=
        (h.objects.setIfInBounds place default).setIfInBounds place (o.setElement key v).1 } := by
    intro o ho
    refine spreads_objects fun other o' ho' buffer hmem => ?_
    simp only [Array.getElem?_setIfInBounds, Array.size_setIfInBounds] at ho'
    split at ho'
    · rename_i hplace
      subst hplace
      split at ho'
      · cases ho'
        obtain ⟨body, owners, released⟩ := o
        cases body with
        | composite c => exact (mem_values_set hmem).imp_left fun hin => ⟨place, _, ho, hin⟩
        | cell | closure => exact .inl ⟨place, _, ho, hmem⟩
      · cases ho'
    · exact .inl ⟨other, o', ho', hmem⟩
  obtain ⟨strings, objects⟩ := h
  unfold putElement
  dsimp only
  split
  · exact .refl _ _
  · rename_i o ho
    split
    · exact (hput o ho).trans (spreads_releaseAll _ _) nofun
    · exact hput o ho

theorem spreads_load (h : Heap) (d : Datum) : Spreads [] h (h.load d).2 := by
  cases d with
  | string t =>
    refine ⟨fun _ hheld => .inl hheld, by simp [load, newString], fun buffer hlt => ?_⟩
    simp [load, newString, text, Array.getElem?_push, Nat.ne_of_lt hlt]
  | _ => exact .refl [] h

/-- A datum that is loaded as a string gets a new buffer. -/
theorem new_of_load (hbuffer : (h.load d).1 = .string buffer) :
    buffer = h.strings.size ∧ buffer < (h.load d).2.strings.size := by
  cases d with
  | string t =>
    cases hbuffer
    exact ⟨rfl, by simp [load, newString]⟩
  | _ => cases hbuffer

theorem datum_load (h : Heap) (d : Datum) : (h.load d).2.datum (h.load d).1 = d := by
  cases d with
  | string t => simp [load, newString, datum, text]
  | _ => rfl

theorem spreads_newList (elements : List Datum) (h : Heap) :
    Spreads [] h (Native.newList elements h).2 := by
  unfold Native.newList
  refine List.foldlRecOn (motive := fun h' => Spreads [] h h') _ _
    (spreads_newObject fun _ hmem => (by simp [Body.owned, Composite.values] at hmem)) ?_
  intro h' hh' pair _
  have hretained : Spreads [] (h'.load pair.1).2 ((h'.load pair.1).2.retain (h'.load pair.1).1) := by
    unfold retain
    split
    · exact spreads_modify fun _ _ _ hmem => .inl hmem
    · exact .refl [] _
  have hput := spreads_putElement ((h'.load pair.1).2.retain (h'.load pair.1).1) h.objects.size
    (.index pair.2) (h'.load pair.1).1
  have hloaded := (hh'.trans (spreads_load h' pair.1) nofun).trans hretained nofun
  refine hloaded.trans hput fun buffer hmem => .inr ?_
  -- the element is a string that has just been made
  obtain ⟨rfl, hlt⟩ := new_of_load (mem_singleton.mp hmem).symm
  exact ⟨hh'.grows, Nat.lt_of_lt_of_le hlt (Nat.le_trans hretained.grows hput.grows)⟩

end Heap

/-- A standard function that answers with a string gives an argument or makes a new one. -/
theorem Store.spreads_ask {id : Int} (h : s.ask id arguments = .ok (v, s')) :
    Heap.Spreads [] s.heap s'.heap ∧ ∀ buffer, v = .string buffer → .string buffer ∈ arguments ∨
      s.heap.strings.size ≤ buffer ∧ buffer < s'.heap.strings.size := by
  obtain ⟨deed, hpass, h⟩ := s.exists_of_ask h
  cases deed with
  | answer w =>
    cases h
    exact ⟨.refl _ _, fun buffer hbuffer => absurd hbuffer (hpass buffer)⟩
  | spell t =>
    cases h
    refine ⟨spreads_load _ (.string t), fun buffer hbuffer => .inr ?_⟩
    obtain ⟨rfl, hlt⟩ := new_of_load (d := .string t) hbuffer
    exact ⟨Nat.le_refl _, hlt⟩
  | write t w =>
    obtain ⟨code, heap, text, refusal⟩ := s
    cases refusal with
    | some reason => cases h
    | none =>
      cases h
      refine ⟨.refl _ _, fun buffer hbuffer => .inl ?_⟩
      have hkind : (Native.argument arguments).kind = .string buffer := hpass.symm.trans hbuffer
      cases arguments with
      | nil => cases hkind
      | cons x rest =>
        cases x <;> cases hkind
        exact mem_cons_self
  | list elements =>
    cases h
    exact ⟨spreads_newList _ _, nofun⟩
  | refuse cause => cases h

/-! ## Instructions -/

/-- The registers whose values an instruction looks at. -/
def Instruction.sources (ins : Instruction) : List Int :=
  match ins.op with
  | .move | .loadCell | .negate | .matchFail => [ins.a]
  | .storeEscaped => [ins.b]
  | .makeCell => if 0 ≤ ins.a then [ins.a] else []
  | .storeCell | .getElement | .constantIfEqual | .callIfEqual | .operate _ => [ins.a, ins.b]
  | .setElement => [ins.a, ins.b, ins.c]
  | .call | .tailCall => ins.a :: ins.args
  | .nop | .loadConstant | .loadEscaped | .jump | .makeComposite | .closure | .callArm
  | .unknown _ => []

/-- An instruction reads the registers that it looks at. -/
theorem Instruction.sources_subset (p : Program) (b : Block) (ins : Instruction) :
    ins.sources ⊆ p.reads b ins := by
  intro r hr
  unfold sources at hr
  unfold Program.reads
  cases hop : ins.op with
  | callIfEqual =>
    simp only [hop, mem_cons, not_mem_nil, or_false] at hr ⊢
    tauto
  | nop | loadConstant | loadEscaped | jump | makeComposite | closure | callArm | unknown =>
    simp [hop] at hr
  | _ => simpa only [hop] using hr

/-- An instruction on a way to `c` may have changed a string: it sets an element, or it calls
something and control has come back. An arm comes back at the target. -/
def Instruction.Stirs (ins : Instruction) (c : Nat) : Prop :=
  ins.op = .setElement ∨ ins.op = .call ∨ ins.op = .tailCall ∨
    (ins.op = .callIfEqual ∨ ins.op = .callArm) ∧ ins.target ≤ c

/-- An instruction is the test of an arm. -/
def Instruction.IsTest (ins : Instruction) : Prop :=
  ins.op = .constantIfEqual ∨ ins.op = .callIfEqual

/-- An instruction copies a value, loads a constant or computes. -/
def Instruction.Makes (ins : Instruction) : Prop :=
  ins.op = .move ∨ ins.op = .loadConstant ∨ ins.op.isPure = true

namespace Activation

/-- The values that an instruction looks at. -/
def looked (f : Activation) (ins : Instruction) : List Value := ins.sources.filterMap f.register?

/-- What the operation of an instruction gives for the registers of an activation. -/
def result? (f : Activation) (h : Heap) (ins : Instruction) : Option (Except Fault Datum) :=
  match ins.op with
  | .negate => (f.register? ins.a).map fun x => (h.datum x).negate
  | .operate op =>
    (f.register? ins.a).bind fun x => (f.register? ins.b).map fun y =>
      op.apply (h.datum x) (h.datum y)
  | _ => none

/-- The value that an instruction puts into a register, when the heap `h` becomes `h'`: a copy, a
constant, or the result of an operation. -/
structure Gives (f : Activation) (h h' : Heap) (ins : Instruction) (v : Value) : Prop where
  move : ins.op = .move → f.register? ins.a = some v
  load : ins.op = .loadConstant → ∃ d, f.block.constant? ins.k = some d ∧ h.load d = (v, h')
  result : ins.op.isPure = true → ∃ d, f.result? h ins = some (.ok d) ∧ h.load d = (v, h')

/-- The test of an arm has failed. -/
def Fails (f : Activation) (h : Heap) (ins : Instruction) : Prop :=
  ∃ x y, f.register? ins.a = some x ∧ f.register? ins.b = some y ∧ h.equal x y = false

/-- The activation that goes on at `c`, with a new value in a register if there is one. -/
def moved (f : Activation) (r : Int) (c : Nat) : Option Value → Activation
  | none => { f with counter := c }
  | some v => { f with counter := c }.put r v

/-- An activation at the start of a loaded block. The strings in `buffers` are all that its registers
hold, and they are in its parameters. -/
structure Begins (g : Activation) (s : Store) (buffers : Nat → Prop) : Prop where
  counter : g.counter = 0
  known : ∃ place, g.block = s.block place
  strings : ∀ r buffer, g.register? r = some (.string buffer) → r < g.block.params ∧ buffers buffer

end Activation

namespace Plain

/-- The activations that an instruction leaves in place of `f`, which already goes on behind the
instruction. The heap of `s` has become `h`. -/
inductive Stroke (s : Store) (h : Heap) (f : Activation) (ins : Instruction) : List Activation → Prop
  | moves (c : Nat) (value : Option Value)
      (leads : c = f.counter ∨ ins.op.isBranch = true ∧ c = ins.target.toNat)
      (inside : ∀ v, value = some v → (f.register? ins.dest).isSome = true ∧
        (ins.writes? = some ins.dest ∨ ins.op = .tailCall))
      (gives : ins.Makes → ∃ v, value = some v ∧ f.Gives s.heap h ins v)
      (fails : ins.IsTest → (c : Int) < ins.target → f.Fails s.heap ins)
      (comes : ∀ buffer, value = some (.string buffer) →
        Heap.Comes (f.looked ins) s.heap h buffer) : Stroke s h f ins [f.moved ins.dest c value]
  | pushes (g : Activation) (c : Nat)
      (leads : c = f.counter ∨ ins.op.isBranch = true ∧ c = ins.target.toNat) (stirs : ins.Stirs c)
      (writes : ins.writes? = some ins.dest) (destination : g.destination = ins.dest)
      (begins : g.Begins s (Heap.Comes (f.looked ins) s.heap h)) :
      Stroke s h f ins [g, { f with counter := c }]
  | replaces (g : Activation) (destination : g.destination = f.destination)
      (begins : g.Begins s (Heap.Comes (f.looked ins) s.heap h)) : Stroke s h f ins [g]

/-- What an instruction has made of a machine whose innermost activation was `f`. -/
structure Strikes (s : Store) (f : Activation) (below : List Activation) (ins : Instruction)
    (t : Plain) : Prop where
  code : t.store.code = s.code
  frames : ∃ own, t.frames = own ++ below ∧ Stroke s t.store.heap f ins own
  held : ∀ buffer, t.store.heap.Holds buffer → Heap.Comes (f.looked ins) s.heap t.store.heap buffer
  grows : s.heap.strings.size ≤ t.store.heap.strings.size
  texts : ∀ buffer < s.heap.strings.size,
    (ins.op = .setElement → f.register? ins.a ≠ some (.string buffer)) →
    t.store.heap.text buffer = s.heap.text buffer

variable {s s' : Store} {f : Activation} {below : List Activation} {ins : Instruction} {t : Plain}

theorem register_eq_ok {r : Int} (h : f.register r = .ok v) : f.register? r = some v := by
  unfold Activation.register orOutside at h
  split at h
  · rename_i hv
    rw [hv, Except.ok.inj h]
  · cases h

theorem mem_looked {r : Int} (hr : r ∈ ins.sources) (hv : f.register r = .ok v) :
    v ∈ f.looked ins :=
  mem_filterMap.mpr ⟨r, hr, register_eq_ok hv⟩

theorem Strikes.of_spreads (own : List Activation) (hcode : s'.code = s.code)
    (hstroke : Stroke s s'.heap f ins own)
    (hspreads : Heap.Spreads (f.looked ins) s.heap s'.heap) :
    Strikes s f below ins ⟨s', own ++ below⟩ :=
  ⟨hcode, ⟨own, rfl, hstroke⟩, hspreads.held, hspreads.grows,
    fun buffer hbuffer _ => hspreads.texts buffer hbuffer⟩

/-- The innermost activation goes on as it is. -/
theorem Stroke.stays {h : Heap} (hmakes : ¬ ins.Makes) (hfails : ins.IsTest → f.Fails s.heap ins) :
    Stroke s h f ins [f] :=
  .moves f.counter none (.inl rfl) (nofun) (fun hop => absurd hop hmakes)
    (fun htest _ => hfails htest) nofun

/-- A value has been found, and the heap has spread; now the value goes into a register. -/
theorem strikes_give (h : give f below ins.dest (v, s') = .ok t) (htest : ¬ ins.IsTest)
    (hwrites : ins.writes? = some ins.dest ∨ ins.op = .tailCall) (hcode : s'.code = s.code)
    (hspreads : Heap.Spreads (f.looked ins) s.heap s'.heap)
    (hgives : ins.Makes → f.Gives s.heap s'.heap ins v)
    (hcomes : ∀ buffer, v = .string buffer → Heap.Comes (f.looked ins) s.heap s'.heap buffer) :
    Strikes s f below ins t := by
  obtain ⟨old, hold, ht⟩ := except_bind_ok h
  cases ht
  refine .of_spreads [_] hcode (.moves f.counter (some v) (.inl rfl) ?_
    (fun hop => ⟨v, rfl, hgives hop⟩) (fun hop => absurd hop htest) fun buffer hv => ?_) hspreads
  · exact fun _ _ => ⟨by rw [register_eq_ok hold]; rfl, hwrites⟩
  · exact hcomes buffer (Option.some.inj hv)

/-- A string that is loaded is new. -/
theorem comes_load (hbuffer : (s.heap.load d).1 = .string buffer) (sources : List Value) :
    Heap.Comes sources s.heap (s.heap.load d).2 buffer := by
  obtain ⟨rfl, hlt⟩ := new_of_load hbuffer
  exact .inr (.inr ⟨Nat.le_refl _, hlt⟩)

theorem strikes_load (h : give f below ins.dest (s.load d) = .ok t) (htest : ¬ ins.IsTest)
    (hwrites : ins.writes? = some ins.dest)
    (hgives : f.Gives s.heap (s.heap.load d).2 ins (s.heap.load d).1) : Strikes s f below ins t :=
    by
  have hspreads : Heap.Spreads (f.looked ins) s.heap (s.load d).2.heap :=
    (spreads_load _ d).mono nofun
  exact strikes_give h htest (.inl hwrites) rfl hspreads (fun _ => hgives)
    fun _ hbuffer => comes_load hbuffer _

/-- What is in a cell is held by an object. -/
theorem holds_of_cell (h : s.cell place = .ok v) (hbuffer : v = .string buffer) :
    s.heap.Holds buffer := by
  unfold Store.cell at h
  split at h
  · rename_i content owners ho
    cases h
    exact ⟨place, _, ho, hbuffer ▸ mem_singleton_self _⟩
  · cases h

theorem begins_begin {cells : List Nat} {destination : Int} {h : Heap}
    (hlooked : ∀ v ∈ arguments, v ∈ f.looked ins) :
    (Activation.begin (s.block place) cells arguments destination).Begins s
      (Heap.Comes (f.looked ins) s.heap h) where
  counter := rfl
  known := ⟨place, rfl⟩
  strings r buffer hr := by
    have hplaced : ∀ (values : List Value) (i : Nat) (registers : Array Value) (j : Nat),
        (values.foldl (fun acc v => (acc.1.setIfInBounds acc.2 v, acc.2 + 1))
          (registers, i)).1[j]? = some (.string buffer) →
        registers[j]? = some (.string buffer) ∨ j < i + values.length ∧ .string buffer ∈ values := by
      intro values
      induction values with
      | nil => exact fun _ _ _ hj => .inl hj
      | cons v rest ih =>
        intro i registers j hj
        rw [foldl_cons] at hj
        rcases ih _ _ j hj with hj | ⟨hlt, hmem⟩
        · rw [Array.getElem?_setIfInBounds] at hj
          split at hj
          · split at hj
            · cases hj
              exact .inr ⟨by simp; omega, mem_cons_self⟩
            · cases hj
          · exact .inl hj
        · exact .inr ⟨by simp at hlt ⊢; omega, mem_cons_of_mem _ hmem⟩
    unfold Activation.register? at hr
    split at hr
    · cases hr
    · rcases hplaced _ 0 _ _ hr with hempty | ⟨hlt, hmem⟩
      · cases (Array.mem_replicate.mp (Array.mem_of_getElem? hempty)).2
      · refine ⟨?_, .inr (.inl (hlooked _ (mem_of_mem_take hmem)))⟩
        show r < (s.block place).params
        simp only [length_take] at hlt
        omega

/-- A block is entered from an activation that goes on at `c`. -/
theorem strikes_enter {cells : List Nat} {tail : Bool} {c : Nat}
    (hlooked : ∀ v ∈ arguments, v ∈ f.looked ins)
    (hleads : c = f.counter ∨ ins.op.isBranch = true ∧ c = ins.target.toNat)
    (hpushes : tail = false → ins.Stirs c ∧ ins.writes? = some ins.dest) :
    Strikes s f below ins
      (enter { f with counter := c } below s ins.dest tail (s.block place) cells arguments) := by
  unfold enter
  cases tail with
  | true => exact .of_spreads [_] rfl (.replaces _ rfl (begins_begin hlooked)) (.refl _ _)
  | false =>
    obtain ⟨hstirs, hwrites⟩ := hpushes rfl
    exact .of_spreads [_, _] rfl (.pushes _ c hleads hstirs hwrites rfl (begins_begin hlooked))
      (.refl _ _)

-- what an instruction of a given opcode makes, tests and writes
attribute [local simp] Instruction.Makes Opcode.isPure Instruction.IsTest Instruction.writes?

theorem strikes_call {callee : Value} {tail : Bool}
    (hop : ins.op = .call ∨ ins.op = .tailCall ∧ tail = true)
    (hlooked : ∀ v ∈ arguments, v ∈ f.looked ins)
    (h : call f below s ins.dest callee arguments tail = .ok t) : Strikes s f below ins t := by
  have hmakes : ¬ ins.Makes := by
    rcases hop with hop | ⟨hop, -⟩ <;> simp [hop]
  have htest : ¬ ins.IsTest := by
    rcases hop with hop | ⟨hop, -⟩ <;> simp [hop]
  have hwrites : ins.op = .call → ins.writes? = some ins.dest := fun hop => by
    simp [hop]
  unfold call at h
  cases callee with
  | native id =>
    obtain ⟨⟨v, s'⟩, hask, h⟩ := except_bind_ok h
    obtain ⟨hspreads, hstring⟩ := Store.spreads_ask hask
    have hspreads' : Heap.Spreads (f.looked ins) s.heap s'.heap :=
      hspreads.mono nofun
    dsimp only at h
    split at h
    · exact strikes_give h htest (hop.imp hwrites And.left) (Store.code_ask hask) hspreads'
        (fun hop => absurd hop hmakes) fun buffer hbuffer =>
          .inr ((hstring buffer hbuffer).imp_left (hlooked _))
    · cases h
      exact .of_spreads [f] (Store.code_ask hask) (.stays hmakes fun hop => absurd hop htest) hspreads'
  | function place =>
    obtain ⟨⟨block, cells⟩, -, h⟩ := except_bind_ok h
    cases h
    refine strikes_enter (c := f.counter) hlooked (.inl rfl) fun htail => ?_
    have hcall := hop.resolve_right fun h => by rw [htail] at h; cases h.2
    exact ⟨.inr (.inl hcall), hwrites hcall⟩
  | _ => cases h

theorem strikes_callArm (hop : ins.op = .callIfEqual ∨ ins.op = .callArm)
    (h : callArm (f.goTo ins.target) below s ins.dest ins.k ins.tail = .ok t) :
    Strikes s f below ins t := by
  obtain ⟨⟨place, cells⟩, -, h⟩ := except_bind_ok h
  cases h
  refine strikes_enter (by simp) (.inr ⟨?_, rfl⟩) fun _ => ⟨.inr (.inr (.inr ⟨hop, by omega⟩)), ?_⟩
  · rcases hop with hop | hop <;> rw [hop] <;> rfl
  · rcases hop with hop | hop <;> simp [hop]

theorem mem_of_arguments (h : orOutside (ins.args.mapM f.register?) = .ok arguments)
    (hsub : ins.args ⊆ ins.sources) (v : Value) (hv : v ∈ arguments) : v ∈ f.looked ins := by
  obtain ⟨r, hr, hv⟩ := f.exists_register? h v hv
  exact mem_filterMap.mpr ⟨r, hsub hr, hv⟩

theorem areEqual_eq_ok {a b : Int} {equal : Bool} (h : areEqual f s a b = .ok equal) :
    ∃ x y, f.register? a = some x ∧ f.register? b = some y ∧ s.heap.equal x y = equal := by
  obtain ⟨x, hx, h⟩ := except_bind_ok h
  obtain ⟨y, hy, h⟩ := except_bind_ok h
  exact ⟨x, y, register_eq_ok hx, register_eq_ok hy, Except.ok.inj h⟩

theorem strikes_setElement (hop : ins.op = .setElement)
    (hcontainer : f.register ins.a = .ok container) (hv : f.register ins.c = .ok v)
    (h : s.assign container key v = .ok s') : Strikes s f below ins ⟨s', f :: below⟩ := by
  have hstays : ∀ h, Stroke s h f ins [f] := fun h =>
    .stays (by simp [hop]) (by simp [hop])
  have hsource : v ∈ f.looked ins := mem_looked (by simp [Instruction.sources, hop]) hv
  cases container with
  | composite place =>
    obtain ⟨c, hc, h⟩ := except_bind_ok h
    obtain ⟨label, -, h⟩ := except_bind_ok h
    cases h
    refine .of_spreads [f] rfl (hstays _) (spreads_modify fun o buffer ho hmem => ?_)
    rcases mem_values_set hmem with hin | hin
    · refine .inl ?_
      unfold Heap.composite at hc
      rw [ho] at hc
      obtain ⟨body, owners, released⟩ := o
      cases body <;> cases released <;> cases hc
      exact hin
    · exact .inr (mem_singleton.mp hin ▸ hsource)
  | string buffer =>
    obtain ⟨⟨offset, bytes⟩, -, h⟩ := except_bind_ok h
    cases h
    refine ⟨rfl, ⟨[f], rfl, hstays _⟩, fun _ hheld => .inl hheld, by simp [Heap.writeBytes],
      fun other _ hother => ?_⟩
    have hne : buffer ≠ other := by
      rintro rfl
      exact hother hop (register_eq_ok hcontainer)
    simp [Heap.writeBytes, Heap.text, Array.getElem?_modify, hne]
  | _ => cases h

/-- An element is held by a composite, or it is a new string. -/
theorem spreads_element (h : s.element container key = .ok (v, s')) :
    Heap.Spreads [] s.heap s'.heap ∧
      ∀ buffer, v = .string buffer → ∀ sources, Heap.Comes sources s.heap s'.heap buffer := by
  cases container with
  | composite place =>
    obtain ⟨w, hw, h⟩ := except_bind_ok h
    cases h
    refine ⟨.refl _ _, fun buffer hbuffer _ => .inl ?_⟩
    obtain ⟨c, hc, hget⟩ := except_bind_ok (ok_of_orFault hw)
    obtain ⟨label, -, hget⟩ := except_bind_ok hget
    cases hget
    unfold Heap.composite at hc
    split at hc
    · rename_i c' owners ho
      cases hc
      rcases Composite.get_mem c label with hempty | hmem
      · rw [hempty] at hbuffer
        cases hbuffer
      · exact ⟨place, _, ho, hbuffer ▸ hmem⟩
    · cases hc
  | string buffer =>
    obtain ⟨d, -, h⟩ := except_bind_ok h
    cases h
    exact ⟨spreads_load _ d, fun buffer hbuffer _ => comes_load hbuffer _⟩
  | _ => cases h

/-- A new object is put into a register. -/
theorem strikes_create {body : Body} (value : Nat → Value)
    (hvalue : ∀ n buffer, value n ≠ .string buffer) (hmakes : ¬ ins.Makes) (htest : ¬ ins.IsTest)
    (hwrites : ins.writes? = some ins.dest)
    (hbody : ∀ buffer, .string buffer ∈ body.owned → .string buffer ∈ f.looked ins)
    (h : give f below ins.dest (value (s.create body).1, (s.create body).2) = .ok t) :
    Strikes s f below ins t :=
  strikes_give h htest (.inl hwrites) rfl (spreads_newObject hbody)
    (fun hop => absurd hop hmakes) fun buffer hbuffer => absurd hbuffer (hvalue _ buffer)

/-- What an instruction that succeeds can have done. -/
theorem strikes_of_step (h : step f below s ins = .ok t) : Strikes s f below ins t := by
  have hstays : ¬ ins.Makes → (ins.IsTest → f.Fails s.heap ins) →
      Strikes s f below ins ⟨s, f :: below⟩ := fun hmakes hfails =>
    .of_spreads [f] rfl (.stays hmakes hfails) (.refl _ _)
  unfold step at h
  cases hop : ins.op <;> rw [hop] at h <;> dsimp only at h
  case nop =>
    cases h
    exact hstays (by simp [hop]) (by simp [hop])
  case move =>
    obtain ⟨v, hv, h⟩ := except_bind_ok h
    have hsource : v ∈ f.looked ins := mem_looked (by simp [Instruction.sources, hop]) hv
    exact strikes_give h (by simp [hop]) (.inl (by simp [hop]))
      rfl (.refl _ _) (fun _ => ⟨fun _ => register_eq_ok hv, by simp [hop], by simp [hop]⟩)
      fun _ hbuffer => .inr (.inl (hbuffer ▸ hsource))
  case loadConstant =>
    obtain ⟨d, hd, h⟩ := except_bind_ok h
    have hconstant : f.block.constant? ins.k = some d := by
      cases hk : f.block.constant? ins.k <;> rw [hk] at hd <;> cases hd
      rfl
    exact strikes_load h (by simp [hop]) (by simp [hop])
      ⟨by simp [hop], fun _ => ⟨d, hconstant, rfl⟩, by simp [hop]⟩
  case loadEscaped | loadCell =>
    obtain ⟨place, -, h⟩ := except_bind_ok h
    obtain ⟨v, hv, h⟩ := except_bind_ok h
    exact strikes_give h (by simp [hop]) (.inl (by simp [hop]))
      rfl (.refl _ _) (fun hmakes => by simp [hop] at hmakes)
      fun _ hbuffer => .inl (holds_of_cell hv hbuffer)
  case storeEscaped | storeCell =>
    obtain ⟨place, -, h⟩ := except_bind_ok h
    obtain ⟨v, hv, h⟩ := except_bind_ok h
    obtain ⟨_, -, h⟩ := except_bind_ok h
    cases h
    refine .of_spreads [f] rfl (.stays (by simp [hop])
      (by simp [hop])) (spreads_modify fun _ _ _ hmem => .inr ?_)
    rw [mem_singleton.mp hmem]
    exact mem_looked (by simp [Instruction.sources, hop]) hv
  case makeCell =>
    have hcreate : ∀ content, (∀ buffer, content = .string buffer → .string buffer ∈ f.looked ins) →
        give f below ins.dest (.cell (s.create (.cell content)).1, (s.create (.cell content)).2) = .ok t →
        Strikes s f below ins t := fun content hcontent =>
      strikes_create .cell (by simp) (by simp [hop])
        (by simp [hop]) (by simp [hop])
        fun buffer hmem => hcontent buffer (mem_singleton.mp hmem).symm
    split at h
    · rename_i hnonneg
      obtain ⟨content, hcontent, h⟩ := except_bind_ok h
      refine hcreate content (fun buffer hbuffer => hbuffer ▸ ?_) h
      exact mem_looked (by simp [Instruction.sources, hop, hnonneg]) hcontent
    · exact hcreate .empty (nofun) h
  case closure =>
    obtain ⟨⟨block, cells⟩, -, h⟩ := except_bind_ok h
    exact strikes_create .function (by simp) (by simp [hop])
      (by simp [hop]) (by simp [hop])
      (fun buffer hmem => by simp [Body.owned] at hmem) h
  case call | tailCall =>
    obtain ⟨arguments, harguments, h⟩ := except_bind_ok h
    obtain ⟨callee, -, h⟩ := except_bind_ok h
    exact strikes_call (by simp [hop]) (mem_of_arguments harguments fun r hr => by
      simp [Instruction.sources, hop, hr]) h
  case callIfEqual =>
    obtain ⟨equal, hequal, h⟩ := except_bind_ok h
    cases equal with
    | true => exact strikes_callArm (.inl hop) h
    | false =>
      cases h
      exact hstays (by simp [hop]) fun _ => areEqual_eq_ok hequal
  case constantIfEqual =>
    obtain ⟨equal, hequal, h⟩ := except_bind_ok h
    cases equal with
    | true =>
      obtain ⟨d, -, h⟩ := except_bind_ok h
      obtain ⟨old, hold, h⟩ := except_bind_ok h
      cases h
      refine .of_spreads [_] rfl (.moves ins.target.toNat (some _) (.inr ⟨by rw [hop]; rfl, rfl⟩)
        (fun _ _ => ⟨?_, .inl (by simp [hop])⟩) (fun hmakes => ?_)
        (fun _ hlt => by omega) fun buffer hbuffer => comes_load (Option.some.inj hbuffer) _)
        ((spreads_load s.heap d).mono nofun)
      · rw [show f.register? ins.dest = some old from register_eq_ok hold]
        rfl
      · simp [hop] at hmakes
    | false =>
      cases h
      exact hstays (by simp [hop]) fun _ => areEqual_eq_ok hequal
  case callArm => exact strikes_callArm (.inr hop) h
  case jump =>
    cases h
    exact .of_spreads [_] rfl (.moves ins.target.toNat none (.inr ⟨by rw [hop]; rfl, rfl⟩) (by simp)
      (by simp [hop]) (by simp [hop]) (by simp))
      (.refl _ _)
  case matchFail =>
    obtain ⟨_, -, h⟩ := except_bind_ok h
    cases h
  case makeComposite =>
    exact strikes_create .composite (by simp) (by simp [hop])
      (by simp [hop]) (by simp [hop])
      (fun buffer hmem => by simp [Body.owned, Composite.values] at hmem) h
  case setElement =>
    obtain ⟨container, hcontainer, h⟩ := except_bind_ok h
    obtain ⟨key, -, h⟩ := except_bind_ok h
    obtain ⟨v, hv, h⟩ := except_bind_ok h
    obtain ⟨s', hassign, h⟩ := except_bind_ok h
    cases h
    exact strikes_setElement hop hcontainer hv hassign
  case getElement =>
    obtain ⟨container, -, h⟩ := except_bind_ok h
    obtain ⟨key, -, h⟩ := except_bind_ok h
    obtain ⟨⟨v, s'⟩, helement, h⟩ := except_bind_ok h
    obtain ⟨hspreads, hcomes⟩ := spreads_element helement
    exact strikes_give h (by simp [hop]) (.inl (by simp [hop]))
      (Store.code_element helement) (hspreads.mono nofun)
      (fun hmakes => by simp [hop] at hmakes)
      fun buffer hbuffer => hcomes buffer hbuffer _
  case negate =>
    obtain ⟨x, hx, h⟩ := except_bind_ok h
    obtain ⟨d, hd, h⟩ := except_bind_ok h
    refine strikes_load h (by simp [hop]) (by simp [hop])
      ⟨by simp [hop], by simp [hop], fun _ => ⟨d, ?_, rfl⟩⟩
    simp only [Activation.result?, hop, register_eq_ok hx, map_some, ok_of_orFault hd]
  case operate op =>
    obtain ⟨x, hx, h⟩ := except_bind_ok h
    obtain ⟨y, hy, h⟩ := except_bind_ok h
    obtain ⟨d, hd, h⟩ := except_bind_ok h
    refine strikes_load h (by simp [hop]) (by simp [hop])
      ⟨by simp [hop], by simp [hop], fun _ => ⟨d, ?_, rfl⟩⟩
    simp only [Activation.result?, hop, register_eq_ok hx, register_eq_ok hy, bind_some,
      map_some, ok_of_orFault hd]
  case unknown => cases h

/-- Something always runs, and an instruction adds at most one activation. -/
theorem length_of_step (h : step f below s ins = .ok t) :
    0 < t.frames.length ∧ t.frames.length ≤ below.length + 2 := by
  obtain ⟨own, hframes, hstroke⟩ := (strikes_of_step h).frames
  rw [hframes]
  cases hstroke <;> simp

end Plain

end Inkwell
