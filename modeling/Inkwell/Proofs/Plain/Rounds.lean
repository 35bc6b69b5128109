import Mathlib
import Inkwell.Proofs.Machine.Fuel
import Inkwell.Proofs.Plain.Steps
import Inkwell.Proofs.Plain.Strokes

/-!
# Rounds on both machines

One round of a run does the same on a machine and on its mirror image, unless the machine has too
many frames or the host has called the run off. However a run ends, the machine it leaves rests: no
frame is left, and the counts are exact for what the host owns.
-/

namespace Inkwell

open List Machine

/-! ## The highest number of frames -/

namespace Machine

/-- The number of frames is within the limit, and the peak has seen it. -/
structure Level (m : Machine) : Prop where
  depth_le : m.depth ≤ m.maxFrames
  depth_le_peak : m.depth ≤ m.peak

/-- A machine with the standard functions that never had more than `n` frames before it came to the
present number. -/
structure Rises (n : Nat) (m : Machine) : Prop where
  natives : m.natives = Natives.standard
  depth_le : m.depth ≤ m.maxFrames
  peak_eq : m.peak = max n m.depth

theorem Level.rises {m : Machine} (hm : m.Level) (hnatives : m.natives = Natives.standard) :
    m.Rises m.peak :=
  ⟨hnatives, hm.depth_le, (Nat.max_eq_left hm.depth_le_peak).symm⟩

theorem Rises.level {n : Nat} {m : Machine} (hm : m.Rises n) : m.Level :=
  ⟨hm.depth_le, hm.peak_eq ▸ Nat.le_max_right _ _⟩

theorem sturdy_rises (n : Nat) : Sturdy (Rises n) where
  store _ _ hm := ⟨hm.natives, hm.depth_le, hm.peak_eq⟩
  frames _ _ _ hm := ⟨hm.natives, hm.depth_le, hm.peak_eq⟩
  pushFrame f m hm := by
    by_cases hfull : m.maxFrames ≤ m.depth
    · rw [pushFrame_of_le hfull]
      exact ⟨hm.natives, hm.depth_le, hm.peak_eq⟩
    · rw [pushFrame_of_lt (Nat.lt_of_not_le hfull)]
      refine ⟨hm.natives, Nat.lt_of_not_le hfull, ?_⟩
      show max m.peak (m.depth + 1) = max n (m.depth + 1)
      rw [hm.peak_eq]
      omega

/-- The standard functions start no runs of their own, so a call of one adds no frame. -/
theorem keeps_callNative_rises (n : Nat) {perform : Reply → Action Value}
    (hperform : ∀ v, perform (.answer v) = pure v) (id : Int) (arguments : List Value) :
    Keeps (Rises n) (callNative perform id arguments) := by
  intro m hm
  unfold callNative
  rcases nativeAt_cases id m with ⟨native, hnative, hat, -⟩ | hat
  · rw [bind_of_ok hat]
    have hrun := native_eq native arguments m
    rw [hm.natives] at hnative
    rcases Native.answers_of_mem hnative arguments m.store with ⟨v, s, hanswer⟩ | ⟨cause, hrefuse⟩
    · rw [hanswer] at hrun
      rw [bind_of_ok hrun, hperform]
      exact (sturdy_rises n).store m s hm
    · rw [hrefuse] at hrun
      rw [bind_of_error hrun]
      exact hm
  · rw [bind_of_error hat]
    exact hm

end Machine

/-! ## Rounds -/

/-- A machine that runs nothing, with exact counts for what the host owns. -/
structure Rested (held : List Value) (m : Machine) : Prop where
  idle : m.frames = []
  exact : m.store.heap.Exact held
  labelled : m.store.heap.Labelled
  tidy : ∀ b ∈ m.store.code, b.Tidy
  natives : m.natives = Natives.standard
  depth : m.depth = 0

/-- What a round leads to on a machine and on its mirror image. -/
inductive Turned (held : List Value) (m : Machine) :
    EStateM.Result Failure Machine Machine.Turn → Plain.Round → Prop
  | goesOn {since : Nat} {m' : Machine} {s : Plain} (mirrors : Mirrors held m' s)
      (running : m'.frames ≠ []) (rises : m.Level → m'.Rises m.peak) :
      Turned held m (.ok (.goesOn since) m') (.goesOn s)
  | ended {result : Value} {m' : Machine} {s : Store} (rested : Rested (result :: held) m')
      (shadows : s.heap.Shadows m'.store.heap) (code : s.code = m'.store.code)
      (output : s.output = m'.store.output) (peak : m'.peak = m.peak) :
      Turned held m (.ok (.ended result) m') (.ended result s)
  | failed {cause : Fault} {error : RunError} {position : Position} {m' : Machine} {s : Store}
      (rested : Rested held m') (noRelease : ¬ cause.IsRelease)
      (message : error.message = cause.message) (place : error.position = position)
      (overflow : error.overflow = decide (cause = .stackOverflow))
      (output : s.output = m'.store.output) (peak : m'.peak = m.peak) :
      Turned held m (.error (.run error) m') (.failed (.fault cause) position s)
  | strays {position : Position} {m' : Machine} {s : Store} (peak : m'.peak = m.peak) :
      Turned held m (.error .outOfRange m') (.failed .outOfRange position s)
  | overflows {error : RunError} {f : Frame} {below : List Frame} {ins : Instruction} {m' : Machine}
      {s : Plain} (rested : Rested held m') (overflow : error.overflow = true)
      (full : m.maxFrames < s.frames.length) (close : s.frames.length ≤ m.depth + 1)
      (frames : m.frames = f :: below)
      (code : f.block.code[f.counter]? = some ins)
      (message : error.message = Fault.stackOverflow.message) (place : error.position = ins.position)
      (output : m'.store.output = m.store.output) (peak : m'.peak = m.peak) :
      Turned held m (.error (.run error) m') (.goesOn s)
  | cancelled {error : RunError} {m' : Machine} {round : Plain.Round} (rested : Rested held m')
      (called : m.cancelled = true) : Turned held m (.error (.run error) m') round

section Turn

open Machine (Steady)

variable {s : Plain} {f : Frame} {below : List Frame}
variable {held : List Value} {m m' : Machine}

/-- Removing all frames leaves a machine that rests. -/
theorem Rested.unwound (hexact : m.store.heap.Exact (m.frames.flatMap Frame.owned ++ held))
    (hlabelled : m.store.heap.Labelled) (htidy : ∀ b ∈ m.store.code, b.Tidy)
    (hnatives : m.natives = Natives.standard) (hdepth : m.depth = m.frames.length) :
    Rested held (m.unwound (m.depth - 0)) where
  idle := by simp [Machine.unwound, hdepth]
  exact := by
    have hall : m.frames.take (m.depth - 0) = m.frames := by simp [hdepth]
    show (m.store.heap.releaseAll ((m.frames.take (m.depth - 0)).flatMap Frame.owned)).Exact held
    rw [hall]
    exact hexact.releaseAll
  labelled := hlabelled.releaseAll _
  tidy := htidy
  natives := hnatives
  depth := by simp [Machine.unwound]

/-- A run that fails with a fault leaves a machine that rests. -/
theorem Kept.rested (hm : Mirrors held m s) (hkept : Kept held m m')
    (hsteady : Steady m.settings m') : Rested held (m'.unwound (m'.depth - 0)) := by
  refine .unwound hkept.exact hkept.labelled ?_ ?_ hsteady.depth
  · rw [hkept.code]
    exact hm.tidy
  · exact (congrArg Machine.Settings.natives hsteady.settings).trans hm.natives

theorem popped_frames (hframes : m.frames = f :: below) (h : Heap) :
    (m.withHeap h).popped.frames = below := by
  simp [Machine.popped, hframes]

/-- The host gives up what it owns. -/
theorem Mirrors.releaseHeld {v : Value} (hm : Mirrors (v :: held) m s) :
    Mirrors held (m.withHeap (m.store.heap.release v)) s := by
  refine ⟨?_, hm.code, hm.output, hm.frames, hm.rooted, hm.tidy, hm.natives, hm.depth⟩
  exact (hm.paired.perm perm_middle).release

/-- The innermost frame goes; its result is on the way, and the host stands in for its owner. -/
theorem Mirrors.popped {s : Store} {result : Value}
    (hm : Mirrors held m ⟨s, (f :: below).map Frame.activation⟩) (hframes : m.frames = f :: below)
    (hlives : m.store.heap.Lives result) :
    Mirrors (result :: held)
      (m.withHeap ((m.store.heap.retain result).releaseAll f.owned)).popped
      ⟨s, below.map Frame.activation⟩ := by
  have hbelow := popped_frames hframes ((m.store.heap.retain result).releaseAll f.owned)
  refine ⟨?_, hm.code, hm.output, ?_, ?_, hm.tidy, hm.natives, ?_⟩
  · rw [hbelow]
    refine Heap.Paired.releaseAll (((hm.top_paired hframes).retain hlives).reorder _ fun v => ?_)
    simp only [Mirrors.others, count_append, count_cons]
    omega
  · rw [hbelow]
  · intro g hg
    rw [hbelow] at hg
    exact hm.rooted g (by rw [hframes]; exact .tail _ hg)
  · rw [hbelow]
    show m.depth - 1 = _
    rw [hm.depth, hframes]
    rfl

/-- The frame that ends hands its result to the frame below. -/
theorem turned_of_end {s : Store} {perform : Reply → Action Value}
    (hm : Mirrors held m ⟨s, (f :: below).map Frame.activation⟩) (hframes : m.frames = f :: below)
    (hend : f.block.code[f.counter]? = none) (since : Nat) :
    Turned held m (Machine.turn perform 0 since m)
      (Plain.turn ⟨s, (f :: below).map Frame.activation⟩) := by
  have hsize : f.block.code.size ≤ f.counter := by simpa using hend
  have hcounter : f.activation.block.code[f.activation.counter]? = none := hend
  cases hret : f.register? f.block.ret with
  | none =>
    have hoff : f.activation.register f.activation.block.ret = .error .outOfRange :=
      Frame.activation_register_of_none hret
    have hnext : Machine.next m = .error .outOfRange m :=
      ofFrame_of_none hframes (by rw [dif_neg (by omega), hret]; rfl)
    unfold Machine.turn
    rw [bind_of_error hnext]
    simp only [map_cons, Plain.turn, hcounter, hoff]
    exact .strays rfl
  | some result =>
    have hon : f.activation.register f.activation.block.ret = .ok result :=
      Activation.register_of_some (f := f.activation) hret
    have hm' := hm.popped hframes (hm.lives_register hframes hon)
    rw [turn_of_end hframes hsize hret, bind_of_ok (get_eq _)]
    simp only [map_cons, Plain.turn, hcounter, hon]
    have hbelow := popped_frames hframes ((m.store.heap.retain result).releaseAll f.owned)
    have hdepth := hm'.depth
    rw [hbelow] at hdepth
    have hpeak : (m.withHeap ((m.store.heap.retain result).releaseAll f.owned)).popped.peak =
        m.peak := rfl
    have hlevel : m.Level → Machine.Rises m.peak
        (m.withHeap ((m.store.heap.retain result).releaseAll f.owned)).popped := fun hm =>
      ⟨hm'.natives, Nat.le_trans (Nat.sub_le _ _) hm.depth_le, (Nat.max_eq_left
        (Nat.le_trans (Nat.sub_le _ _) hm.depth_le_peak)).symm⟩
    generalize (m.withHeap ((m.store.heap.retain result).releaseAll f.owned)).popped = m₁ at *
    cases below with
    | nil =>
      rw [if_pos (show m₁.depth = 0 from hdepth)]
      have hpaired := hm'.paired
      rw [hbelow] at hpaired
      exact .ended ⟨hbelow, hpaired.exact, hpaired.labelled, hm'.tidy, hm'.natives, hdepth⟩
        hpaired.shadows hm'.code hm'.output hpeak
    | cons g rest =>
      have hlives := hm'.paired.exact.root_lives
        (mem_append_right _ (.head held) : result ∈ _ ++ (result :: held))
      rw [if_neg (by simp [hdepth])]
      simp only [map_cons]
      cases hr : g.register? f.destination with
      | none =>
        rw [bind_of_error (setRegister_of_none hbelow hr)]
        rw [show f.activation.destination = f.destination from rfl, Plain.handOn,
          Frame.give_of_none hr]
        exact .strays hpeak
      | some old =>
        have hput := hm'.put hbelow hlives hr
        rw [bind_of_ok (setRegister_of_some hbelow hr),
          bind_of_ok (release_eq _ _)]
        rw [show f.activation.destination = f.destination from rfl, Plain.handOn,
          Frame.give_of_some hr]
        exact .goesOn hput.releaseHeld (cons_ne_nil _ _) fun hm =>
          ⟨hm'.natives, (hlevel hm).depth_le, (hlevel hm).peak_eq⟩

/-- The innermost frame of a machine that runs. -/
theorem Mirrors.exists_top {s : Plain} (hm : Mirrors held m s) (hrunning : m.frames ≠ []) :
    ∃ store f below, m.frames = f :: below ∧ s = ⟨store, (f :: below).map Frame.activation⟩ := by
  obtain ⟨f, below, hframes⟩ := exists_cons_of_ne_nil hrunning
  obtain ⟨store, frames⟩ := s
  exact ⟨store, f, below, hframes, by rw [← hframes, ← hm.frames]⟩

/-- A round does the same on a machine and on its mirror image. -/
theorem Mirrors.turned (hm : Mirrors held m s) (hrunning : m.frames ≠ []) (fuel since : Nat) :
    Turned held m (Machine.turn (Machine.perform fuel) 0 since m) s.turn := by
  obtain ⟨s, f, below, hframes, rfl⟩ := hm.exists_top hrunning
  cases hins : f.block.code[f.counter]? with
  | none => exact turned_of_end hm hframes hins since
  | some ins =>
    have hcounter : f.activation.block.code[f.activation.counter]? = some ins := hins
    have hsteady : Steady m.settings m := ⟨rfl, hm.depth⟩
    rw [turn_of_instruction hframes hins]
    simp only [map_cons, Plain.turn, hcounter]
    split
    · rename_i hcancel
      rw [Bool.and_eq_true] at hcancel
      rw [fail_eq hm.depth]
      exact .cancelled (hm.kept.rested hm hsteady) hcancel.2
    · have hadvanced := hm.goTo hframes (f.counter + 1)
      have hperform : ∀ v, Machine.perform fuel (.answer v) = pure v := fun v => by
        cases fuel <;> rfl
      have hstep : Matches held m _ (Plain.step
          { f.activation with counter := f.activation.counter + 1 }
          (below.map Frame.activation) s ins) :=
        (matches_step hadvanced rfl hperform ins).of_start rfl rfl (by rw [hframes]; rfl) rfl rfl
      have hsteady' : Steady m.settings
          (m.withFrames ({ f with counter := f.counter + 1 } :: below)) :=
        ⟨rfl, hadvanced.depth⟩
      have hkept := (sturdy_steady _).keeps_step ((sturdy_steady _).keeps_callNative
        (keeps_perform fuel)) ins _ hsteady'
      have hrises := fun hlevel : m.Level => (sturdy_rises m.peak).keeps_step
        (keeps_callNative_rises m.peak hperform) ins
        (m.withFrames ({ f with counter := f.counter + 1 } :: below))
        ⟨hm.natives, hlevel.depth_le, (hlevel.rises hm.natives).peak_eq⟩
      have hlength := fun t => @Plain.length_of_step s
        { f.activation with counter := f.activation.counter + 1 } (below.map Frame.activation) ins t
      generalize Machine.step (Machine.perform fuel) ins
        (m.withFrames ({ f with counter := f.counter + 1 } :: below)) = result at hstep hkept hrises ⊢
      generalize Plain.step { f.activation with counter := f.activation.counter + 1 }
        (below.map Frame.activation) s ins = result' at hstep hlength ⊢
      cases hstep with
      | goesOn mirrors =>
        refine .goesOn mirrors (fun hnone => ?_) hrises
        have hsome := (hlength _ rfl).1
        rw [mirrors.frames, hnone] at hsome
        cases hsome
      | @fails cause m' kept noRelease =>
        dsimp only
        rw [fail_eq hkept.depth]
        exact .failed (kept.rested hm hkept) noRelease rfl rfl rfl
          (hm.output.trans kept.output.symm) kept.peak
      | @strays m' peak =>
        dsimp only
        rw [fail_eq hkept.depth]
        exact .strays peak
      | @overflows m' s' kept full =>
        dsimp only
        rw [fail_eq hkept.depth]
        refine .overflows (kept.rested hm hkept) rfl full ?_ hframes hins rfl rfl kept.output kept.peak
        have hle := (hlength _ rfl).2
        rw [hm.depth, hframes, length_cons]
        rwa [length_map] at hle

end Turn

end Inkwell
