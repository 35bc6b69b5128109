import Mathlib
import Inkwell.Proofs.Machine.Turn

/-!
# What every action keeps

Actions change a machine in four ways only: they change the store, they change the innermost frame,
they add a frame unless there are too many, and they remove one. A statement about machines that the
first three keep is kept by every instruction (`Sturdy`), as long as what a function of the host asks for
keeps it.

No action changes the settings of the host, and every action keeps the number of frames right,
whether it fails or not (`Steady`).
-/

namespace Inkwell

namespace Machine

variable {I : Machine → Prop}

/-- Whatever an action does, a property of machines still holds afterwards. -/
def Keeps {α : Type} (I : Machine → Prop) (x : Action α) : Prop :=
  ∀ m, I m → After (fun _ m' => I m') (fun _ m' => I m') (x m)

variable {α β : Type}

theorem Keeps.bind {x : Action α} {next : α → Action β} (hx : Keeps I x)
    (hnext : ∀ a, Keeps I (next a)) : Keeps I (x >>= next) := by
  intro m hm
  exact .bind ((hx m hm).mono (fun a m' hm' => hnext a m' hm') fun _ _ hm' => hm')

theorem Keeps.pure (I : Machine → Prop) (a : α) : Keeps I (pure a : Action α) := fun _ hm => hm

theorem Keeps.fault (I : Machine → Prop) (cause : Fault) : Keeps I (fault cause : Action α) :=
  fun _ hm => hm

theorem Keeps.get (I : Machine → Prop) : Keeps I (get : Action Machine) := fun _ hm => hm

theorem Keeps.ofFrame (I : Machine → Prop) (f : Frame → Option α) : Keeps I (ofFrame f) := by
  intro m hm
  unfold Machine.ofFrame
  split
  · split <;> exact hm
  · exact hm

theorem Keeps.ofStore (I : Machine → Prop) (f : Store → Except Fault α) : Keeps I (ofStore f) := by
  intro m hm
  unfold Machine.ofStore
  split <;> exact hm

theorem Keeps.readCell (I : Machine → Prop) (place : Nat) : Keeps I (Machine.readCell place) := .ofStore _ _

theorem Keeps.cellIn (I : Machine → Prop) (r : Int) : Keeps I (Machine.cellIn r) := by
  refine .bind (.ofFrame _ _) fun v => ?_
  cases v <;> first | exact .pure _ _ | exact .fault _ _

theorem Keeps.takeCells (I : Machine → Prop) (binds : List Bind) : Keeps I (Machine.takeCells binds) := by
  induction binds with
  | nil => exact .pure _ _
  | cons bind rest ih =>
    have hrest : ∀ place, Keeps I (do return place :: (← Machine.takeCells rest)) :=
      fun place => .bind ih fun _ => .pure _ _
    unfold Machine.takeCells
    dsimp only
    split
    · exact .bind (Keeps.cellIn I _) hrest
    · refine .bind (.ofFrame _ _) fun size => ?_
      split
      · exact .bind (.fault _ _) hrest
      · exact .bind (.ofFrame _ _) hrest

theorem Keeps.nativeAt (I : Machine → Prop) (id : Int) : Keeps I (Machine.nativeAt id) := by
  refine .bind (.get _) fun m => ?_
  dsimp only
  split
  · exact .pure _ _
  · exact .fault _ _

theorem Keeps.attempt {x : Action α} (hx : Keeps I x) : Keeps I (Machine.attempt x) := by
  intro m hm
  have hafter := hx m hm
  unfold Machine.attempt
  cases hresult : x m <;> rw [hresult] at hafter <;> exact hafter

theorem Keeps.unplaced {x : Action α} (hx : Keeps I x) :
    Keeps I (Machine.unplaced x) := by
  intro m hm
  have hafter := hx m hm
  unfold Machine.unplaced
  cases hresult : x m <;> rw [hresult] at hafter <;> exact hafter

/-! ## Single instructions -/

/-- A statement about machines that does not depend on the store and on the contents of frames, and
that holds after a frame is added or turned away. -/
structure Sturdy (I : Machine → Prop) : Prop where
  store : ∀ (m : Machine) (store : Store), I m → I { m with store }
  frames : ∀ (m : Machine) (frames : List Frame), frames.length = m.frames.length → I m →
    I (m.withFrames frames)
  pushFrame : ∀ f, Keeps I (pushFrame f)

namespace Sturdy

variable {I : Machine → Prop}

section

variable (h : Sturdy I)

include h

theorem heap (m : Machine) (heap : Heap) (hm : I m) : I (m.withHeap heap) := h.store m _ hm

theorem keeps_modifyHeap (g : Heap → Heap) : Keeps I (modifyHeap g) :=
  fun _ hm => h.heap _ _ hm

theorem keeps_retain (v : Value) : Keeps I (retain v) := by
  intro m hm
  rw [retain_eq]
  exact h.heap _ _ hm

theorem keeps_release (v : Value) : Keeps I (release v) := by
  intro m hm
  rw [release_eq]
  exact h.heap _ _ hm

theorem keeps_modifyFrame (g : Frame → Frame) : Keeps I (modifyFrame g) := by
  intro m hm
  cases hframes : m.frames with
  | nil =>
    have hsame : modifyFrame g m = .ok () m := by
      obtain ⟨store, frames, depth, peak, maxFrames, natives, cancelled⟩ := m
      simp only at hframes
      subst hframes
      rfl
    rw [hsame]
    exact hm
  | cons f below =>
    rw [modifyFrame_eq g hframes]
    exact h.frames m _ (by rw [hframes]; rfl) hm

theorem keeps_setRegister (r : Int) (v : Value) : Keeps I (setRegister r v) :=
  .bind (.ofFrame _ _) fun _ => .bind (h.keeps_retain v) fun _ =>
    .bind (h.keeps_modifyFrame _) fun _ => h.keeps_release _

theorem keeps_load (d : Datum) : Keeps I (load d) := fun _ hm => h.heap _ _ hm

theorem keeps_loadConstant (k : Int) : Keeps I (loadConstant k) :=
  .bind (.ofFrame _ _) fun d => h.keeps_load d

theorem keeps_writeCell (place : Nat) (v : Value) : Keeps I (writeCell place v) :=
  .bind (Keeps.readCell I place) fun _ => .bind (h.keeps_retain v) fun _ =>
    .bind (h.keeps_modifyHeap _) fun _ => h.keeps_release _

theorem keeps_newCell (v : Value) : Keeps I (newCell v) := fun _ hm => h.heap _ _ hm

theorem keeps_enterNested (k : Int) : Keeps I (enterNested k) := by
  refine .bind (.ofFrame _ _) fun found => ?_
  cases found with
  | none => exact .fault _ _
  | some place =>
    exact .bind (.ofStore _ _) fun binds => .bind (Keeps.takeCells I binds) fun cells =>
      .bind (h.keeps_modifyHeap _) fun _ => .pure _ _

theorem keeps_newFunction (k : Int) : Keeps I (newFunction k) :=
  .bind (h.keeps_enterNested k) fun _ => fun _ hm => h.heap _ _ hm

theorem keeps_callFunction (dest : Int) (place : Nat) (arguments : List Value) :
    Keeps I (callFunction dest place arguments) :=
  .bind (.ofStore _ _) fun _ => .bind (.ofStore _ _) fun _ => .bind (h.keeps_modifyHeap _) fun _ =>
    h.pushFrame _

theorem keeps_resetRegisters (n : Int) : Keeps I (resetRegisters n) :=
  .bind (.ofFrame _ _) fun _ => .bind (h.keeps_modifyFrame _) fun _ => h.keeps_modifyHeap _

theorem keeps_leaveEnvironment : Keeps I leaveEnvironment :=
  .bind (.ofFrame _ _) fun _ => .bind (h.keeps_modifyFrame _) fun _ => h.keeps_modifyHeap _

theorem keeps_replaceFunction (place : Nat) (arguments : List Value) :
    Keeps I (replaceFunction place arguments) := by
  refine .bind (.ofStore _ _) fun _ => .bind (.ofStore _ _) fun _ =>
    .bind (h.keeps_modifyHeap _) fun _ => .bind (.ofFrame _ _) fun same => ?_
  have hlast : ∀ (g : Frame → Frame) (surplus : List Value), Keeps I (do
      modifyFrame g
      releaseAll surplus) := fun _ _ =>
    .bind (h.keeps_modifyFrame _) fun _ => h.keeps_modifyHeap _
  dsimp only
  split
  · exact .bind (h.keeps_resetRegisters _) fun _ => hlast _ _
  · exact .bind (h.keeps_modifyHeap _) fun _ => .bind (h.keeps_resetRegisters _) fun _ =>
      .bind h.keeps_leaveEnvironment fun _ => .bind (h.keeps_modifyFrame _) fun _ => hlast _ _

theorem keeps_give (dest : Int) (result : Value) : Keeps I (give dest result) := by
  unfold give
  split
  · exact h.keeps_setRegister dest result
  · exact .bind (h.keeps_retain result) fun _ => h.keeps_release result

theorem keeps_callArm (dest k : Int) (tail : Bool) : Keeps I (callArm dest k tail) := by
  refine .bind (h.keeps_enterNested k) fun _ => .bind (.ofStore _ _) fun _ => ?_
  split
  · exact .bind (h.keeps_resetRegisters _) fun _ => .bind h.keeps_leaveEnvironment fun _ =>
      h.keeps_modifyFrame _
  · exact h.pushFrame _

theorem keeps_element (container key : Value) : Keeps I (element container key) := by
  refine .bind (.ofStore _ _) fun k => ?_
  cases container with
  | composite place => exact .ofStore _ _
  | string buffer => exact .bind (.ofStore _ _) fun d => h.keeps_load d
  | _ => exact .bind (.ofStore _ _) fun _ => .ofStore _ _

theorem keeps_assign (container key v : Value) : Keeps I (assign container key v) := by
  refine .bind (.ofStore _ _) fun k => ?_
  cases container with
  | composite | string => exact .bind (.ofStore _ _) fun _ => h.keeps_modifyHeap _
  | _ => exact .bind (.ofStore _ _) fun _ => .ofStore _ _

theorem keeps_setResult (dest : Int) (result : Except Fault Datum) :
    Keeps I (setResult dest result) := by
  cases result with
  | ok d => exact .bind (h.keeps_load d) fun _ => h.keeps_setRegister dest _
  | error cause => exact .fault _ _

theorem keeps_startProgram (p : Program) : Keeps I (startProgram p) := by
  have hstart : Keeps I (do
      let block ← blockAt (← loadProgram p)
      Machine.pushFrame { block, registers := emptyRegisters block.slots }) :=
    .bind (fun _ hm => h.store _ _ hm) fun _ => .bind (.ofStore _ _) fun _ => h.pushFrame _
  refine .bind (.get _) fun m => ?_
  split
  · exact .bind (.fault _ _) fun _ => hstart
  · exact hstart

theorem keeps_native (n : Native) (arguments : List Value) : Keeps I (native n arguments) := by
  intro m hm
  unfold native
  split
  rename_i store frames depth peak maxFrames natives cancelled
  split <;> exact h.store _ _ hm

theorem keeps_callNative {perform : Reply → Action Value} (hperform : ∀ reply, Keeps I (perform reply))
    (id : Int) (arguments : List Value) : Keeps I (callNative perform id arguments) := by
  rw [callNative_eq]
  exact .bind (.bind (Keeps.nativeAt I id) fun n => h.keeps_native n arguments) hperform

end

section

variable {perform : Reply → Action Value}
  (hnative : ∀ id arguments, Keeps I (callNative perform id arguments))
include hnative

theorem keeps_call (h : Sturdy I) (dest : Int) (callee : Value) (arguments : List Value) (tail : Bool) :
    Keeps I (call perform dest callee arguments tail) := by
  cases callee with
  | native id =>
    exact .bind (hnative id arguments) fun result => h.keeps_give dest result
  | function place =>
    cases tail with
    | true => exact h.keeps_replaceFunction place arguments
    | false => exact h.keeps_callFunction dest place arguments
  | _ => exact .bind (.ofStore _ _) fun _ => .fault _ _

theorem keeps_step (h : Sturdy I) (ins : Instruction) : Keeps I (step perform ins) := by
  have hregister : ∀ r, Keeps I (register r) := fun r => .ofFrame _ _
  have hcell : ∀ i, Keeps I (cellOf i) := fun i => .ofFrame _ _
  have hequal : Keeps I (areEqual ins.a ins.b) :=
    .bind (hregister _) fun _ => .bind (hregister _) fun _ => .ofStore _ _
  have hset : ∀ v, Keeps I (setRegister ins.dest v) := fun v => h.keeps_setRegister _ v
  unfold step
  cases ins.op with
  | nop => exact .pure _ _
  | move => exact .bind (hregister _) hset
  | loadConstant => exact .bind (h.keeps_loadConstant _) hset
  | loadEscaped => exact .bind (hcell _) fun _ => .bind (Keeps.readCell I _) hset
  | storeEscaped => exact .bind (hcell _) fun _ => .bind (hregister _) fun _ => h.keeps_writeCell _ _
  | makeCell =>
    have hnew : ∀ content, Keeps I (do setRegister ins.dest (← newCell content)) :=
      fun content => .bind (h.keeps_newCell content) hset
    dsimp only
    split
    · exact .bind (hregister _) hnew
    · exact hnew _
  | loadCell => exact .bind (Keeps.cellIn I _) fun _ => .bind (Keeps.readCell I _) hset
  | storeCell =>
    exact .bind (Keeps.cellIn I _) fun _ => .bind (hregister _) fun _ => h.keeps_writeCell _ _
  | closure => exact .bind (h.keeps_newFunction _) hset
  | call | tailCall =>
    exact .bind (.ofFrame _ _) fun _ => .bind (hregister _) fun _ => h.keeps_call hnative _ _ _ _
  | callIfEqual =>
    refine .bind hequal fun equal => ?_
    cases equal with
    | true => exact .bind (h.keeps_modifyFrame _) fun _ => h.keeps_callArm _ _ _
    | false => exact .pure _ _
  | constantIfEqual =>
    refine .bind hequal fun equal => ?_
    cases equal with
    | true =>
      exact .bind (h.keeps_loadConstant _) fun v => .bind (hset v) fun _ => h.keeps_modifyFrame _
    | false => exact .pure _ _
  | callArm => exact .bind (h.keeps_modifyFrame _) fun _ => h.keeps_callArm _ _ _
  | jump => exact h.keeps_modifyFrame _
  | matchFail => exact .bind (hregister _) fun _ => .ofStore _ _
  | makeComposite => exact .bind (fun _ hm => h.heap _ _ hm) hset
  | setElement =>
    exact .bind (hregister _) fun _ => .bind (hregister _) fun _ => .bind (hregister _) fun _ =>
      h.keeps_assign _ _ _
  | getElement =>
    exact .bind (hregister _) fun _ => .bind (hregister _) fun _ =>
      .bind (h.keeps_element _ _) hset
  | negate =>
    exact .bind (hregister _) fun _ => .bind (.ofStore _ _) fun _ => h.keeps_setResult _ _
  | operate op =>
    exact .bind (hregister _) fun _ => .bind (.ofStore _ _) fun _ => .bind (hregister _) fun _ =>
      .bind (.ofStore _ _) fun _ => h.keeps_setResult _ _
  | unknown code => exact .fault _ _

end

end Sturdy

/-! ## Settings and the number of frames -/

/-- The settings of the host. -/
structure Settings where
  natives : Natives
  maxFrames : Nat
  cancelled : Bool

/-- The settings of a machine. -/
def settings (m : Machine) : Settings := ⟨m.natives, m.maxFrames, m.cancelled⟩

/-- The machine has the given settings, and `depth` is the number of its frames. -/
structure Steady (s : Settings) (m : Machine) : Prop where
  settings : m.settings = s
  depth : m.depth = m.frames.length

theorem sturdy_steady (s : Settings) : Sturdy (Steady s) where
  store _ _ hm := ⟨hm.settings, hm.depth⟩
  frames m frames hlength hm := ⟨hm.settings, hm.depth.trans hlength.symm⟩
  pushFrame f m hm := by
    by_cases hfull : m.maxFrames ≤ m.depth
    · rw [pushFrame_of_le hfull]
      exact ⟨hm.settings, hm.depth⟩
    · rw [pushFrame_of_lt (Nat.lt_of_not_le hfull)]
      exact ⟨hm.settings, congrArg (· + 1) hm.depth⟩

variable {s : Settings}

theorem keeps_popFrame : Keeps (Steady s) popFrame := by
  intro m hm
  cases hframes : m.frames with
  | nil =>
    have hfails : popFrame m = .error .outOfRange m := by
      unfold popFrame
      exact bind_of_error (by simp only [Machine.ofFrame, hframes])
    rw [hfails]
    exact hm
  | cons f below =>
    rw [popFrame_eq hframes]
    refine ⟨hm.settings, ?_⟩
    show m.depth - 1 = m.frames.tail.length
    rw [hm.depth, List.length_tail]

theorem keeps_fail (base : Nat) (position : Position) (failure : Failure) :
    Keeps (Steady s) (fail base position failure : Action α) := by
  have hunwind : ∀ n, Keeps (Steady s) (unwind n) := by
    intro n
    induction n with
    | zero => exact .pure _ _
    | succ n ih => exact .bind keeps_popFrame fun _ => ih
  exact .bind (.get _) fun _ => .bind (hunwind _) fun _ => fun _ hm => hm

end Machine

end Inkwell
