import Mathlib
import Inkwell.Proofs.Machine.Safety
import Inkwell.Proofs.Plain.Rounds

/-!
# Runs on both machines

A machine that rests has a mirror image as soon as it starts a program or calls a function for the
host, and both stay together round by round until the run ends. So a run of the host leaves a machine
that rests again.
-/

namespace Inkwell

/-! ## Starting -/

/-- A heap in which nothing has been released. -/
def Heap.restored (h : Heap) : Heap :=
  { h with objects := h.objects.map fun o => { o with released := false } }

theorem Heap.restored_shadows (h : Heap) : h.restored.Shadows h where
  strings := rfl
  size := by simp [restored]
  bodies := fun place o ho _ => ⟨{ o with released := false }, by simp [restored, ho], rfl⟩
  unreleased := by
    intro place o ho
    simp only [restored, Array.getElem?_map] at ho
    obtain ⟨o', -, rfl⟩ := Option.map_eq_some_iff.mp ho
    rfl

theorem Block.Tidy.moved {b : Block} (hb : b.Tidy) (base : Nat) : (b.moved base).Tidy where
  constants := by
    intro d hd
    obtain ⟨d', hd', rfl⟩ := Array.mem_map.mp hd
    have hplain := hb.constants d' hd'
    cases d' <;> exact hplain
  params_nonneg := hb.params_nonneg
  params_le := hb.params_le

namespace Rested

variable {held : List Value} {m : Machine}

/-- A machine that rests, beside one without owners. -/
theorem mirrors (hm : Rested held m) {s : Store} (hshadows : s.heap.Shadows m.store.heap)
    (hcode : s.code = m.store.code) (houtput : s.output = m.store.output) :
    Mirrors held m ⟨s, []⟩ where
  paired := by
    rw [hm.idle]
    exact ⟨hm.exact, hshadows, hm.labelled⟩
  code := hcode
  output := houtput
  frames := by
    rw [hm.idle]
    rfl
  rooted := by
    rw [hm.idle]
    exact nofun
  tidy := hm.tidy
  natives := hm.natives
  depth := by
    rw [hm.depth, hm.idle]
    rfl

/-- A machine that has run nothing yet rests. -/
theorem fresh (output : Output) (limit : Nat) (cancelled : Bool) :
    Rested [] { store := { output }, maxFrames := limit, natives := Natives.standard, cancelled } where
  idle := rfl
  exact := ⟨fun _ _ ho => (by cases ho), fun _ hv => (by cases hv)⟩
  labelled := fun _ _ ho => (by cases ho)
  tidy := fun _ hb => absurd hb (Array.not_mem_empty _)
  natives := rfl
  depth := rfl

theorem exists_mirrors (hm : Rested held m) : ∃ s, Mirrors held m ⟨s, []⟩ :=
  ⟨{ m.store with heap := m.store.heap.restored }, hm.mirrors m.store.heap.restored_shadows rfl rfl⟩

theorem loaded (hm : Rested held m) {p : Program} (hp : ∀ b ∈ p.blocks, b.Tidy) :
    Rested held (m.loaded p) where
  idle := hm.idle
  exact := hm.exact
  labelled := hm.labelled
  tidy := by
    intro b hb
    rcases Array.mem_append.mp (show b ∈ m.store.code ++ p.blocks.map _ from hb) with hb | hb
    · exact hm.tidy b hb
    · obtain ⟨b', hb', rfl⟩ := Array.mem_map.mp hb
      exact (hp b' hb').moved _
  natives := hm.natives
  depth := hm.depth

end Rested

/-- The activation of the root of a program behind the code that is there already. -/
def Plain.root (code : Array Block) (p : Program) : Activation :=
  .begin ((code ++ p.blocks.map (Block.moved code.size))[code.size]?.getD default) [] [] (-1)

theorem Machine.startProgram_eq {m : Machine} (hm : m.depth = 0) (p : Program) :
    startProgram p m = pushFrame {
      block := (m.loaded p).store.block m.store.code.size
      registers := emptyRegisters ((m.loaded p).store.block m.store.code.size).slots }
        (m.loaded p) := by
  unfold startProgram
  rw [bind_of_ok (get_eq m), if_neg (by simp [hm])]
  show (loadProgram p >>= _) m = _
  rw [bind_of_ok (loadProgram_eq p m), bind_of_ok (blockAt_eq _ _)]

/-- A machine that starts a program goes on together with its mirror image, unless there may be no
frame at all. -/
theorem Rested.startProgram {held : List Value} {m : Machine} (hm : Rested held m) {p : Program}
    (hp : ∀ b ∈ p.blocks, b.Tidy) {s : Store} (hshadows : s.heap.Shadows m.store.heap)
    (houtput : s.output = m.store.output) :
    Matches held (m.loaded p) (Machine.startProgram p m)
      (.ok ⟨{ s with code := m.codeWith p }, [Plain.root m.store.code p]⟩) := by
  have hloaded := (hm.loaded hp).mirrors (s := { s with code := m.codeWith p }) hshadows rfl houtput
  have htidy := hloaded.tidy_block m.store.code.size
  rw [Machine.startProgram_eq hm.depth]
  have hpaired := hloaded.paired
  have hbegin : Plain.root m.store.code p = Frame.activation {
      block := (m.loaded p).store.block m.store.code.size
      registers := Machine.emptyRegisters ((m.loaded p).store.block m.store.code.size).slots } := by
    simp only [Plain.root, Activation.begin, List.take_nil]
    rfl
  rw [hbegin]
  refine matches_pushFrame (h := m.store.heap) hloaded ?_
    ⟨by simp, fun _ => .inr rfl, htidy⟩
  exact paired_begin [] [] (Nat.zero_le _) hpaired

/-! ## Running to the end -/

section Ends

variable {held : List Value} {m : Machine}

/-- What is left when a run of the host is over, unless it takes too many steps or names what is not
there. -/
def Leaves (held : List Value) : EStateM.Result Failure Machine Value → Prop :=
  After (fun v m' => Rested (v :: held) m')
    fun failure m' => failure ≠ .outOfRange → failure ≠ .unfinished → Rested held m'

theorem Mirrors.execute {s : Plain} (hm : Mirrors held m s) (hrunning : m.frames ≠ [])
    (fuel since : Nat) : Leaves held (Machine.execute fuel 0 since m) := by
  induction fuel generalizing m s since with
  | zero => exact fun _ hfuel => absurd rfl hfuel
  | succ fuel ih =>
    have hturned := hm.turned hrunning fuel since
    rw [Machine.execute_succ]
    cases hturn : Machine.turn (Machine.perform fuel) 0 since m with
    | ok turned m' =>
      rw [hturn] at hturned
      rw [Machine.bind_of_ok hturn]
      generalize s.turn = round at hturned
      cases hturned with
      | goesOn mirrors running => exact ih mirrors running _
      | ended rested => exact rested
    | error failure m' =>
      rw [hturn] at hturned
      rw [Machine.bind_of_error hturn]
      generalize s.turn = round at hturned
      cases hturned with
      | failed rested => exact fun _ _ => rested
      | strays => exact fun hrange => absurd rfl hrange
      | overflows rested => exact fun _ _ => rested
      | cancelled rested => exact fun _ _ => rested

/-- A machine at rest after a failed start. -/
theorem Kept.rested_of_idle {start m' : Machine} (hm : Rested held start)
    (hkept : Kept held start m') (hsteady : Machine.Steady start.settings m') (hidle : m'.frames = []) :
    Rested held m' where
  idle := hidle
  exact := by
    have hexact := hkept.exact
    rw [hidle] at hexact
    exact hexact
  labelled := hkept.labelled
  tidy := by
    rw [hkept.code]
    exact hm.tidy
  natives := (congrArg Machine.Settings.natives hsteady.settings).trans hm.natives
  depth := by
    rw [hsteady.depth, hidle]
    rfl

end Ends

end Inkwell
