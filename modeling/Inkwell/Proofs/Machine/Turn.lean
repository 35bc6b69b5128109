import Inkwell.Proofs.Machine.Results

/-!
# One round of a run

A run is the repetition of `turn`: the innermost frame either ends and gives its result to the frame
below, or does one instruction. The states between two instructions are those between two rounds, so
whatever holds there is stated of `turn`.
-/

namespace Inkwell

namespace Machine

variable {m : Machine} {f : Frame} {below : List Frame}

/-- What a round of a run leads to. -/
inductive Turn where
  /-- The frame that the run started with has ended. -/
  | ended (result : Value)
  /-- The run goes on; `since` counts the instructions since the last look at whether it has been
  called off. -/
  | goesOn (since : Nat)

/-- The number of instructions since the last look, after one more. -/
def tick (since : Nat) : Nat := if since + 1 < checkInterval then since + 1 else 0

/-- One round of a run above the first `base` frames. -/
def turn (perform : Reply → Action Value) (base since : Nat) : Action Turn := do
  match ← next with
  | .finish result destination =>
    retain result
    popFrame
    if (← get).depth = base then return .ended result
    setRegister destination result
    release result
    return .goesOn since
  | .perform ins =>
    if tick since = 0 && (← get).cancelled then fail base ins.position (.fault .cancelled)
    modifyFrame fun f => { f with counter := f.counter + 1 }
    match ← attempt (step perform ins) with
    | .ok () => return .goesOn (tick since)
    | .error failure => fail base ins.position failure

/-- Nothing comes behind the end of a run. -/
theorem fail_bind {α β : Type} (base : Nat) (position : Position) (failure : Failure)
    (next : α → Action β) : (fail base position failure >>= next) = fail base position failure := by
  unfold fail
  simp only [bind_assoc]
  rfl

/-- The machine after the innermost `n` frames have been removed. -/
def unwound (m : Machine) (n : Nat) : Machine :=
  { m with
    store.heap := m.store.heap.releaseAll ((m.frames.take n).flatMap Frame.owned)
    frames := m.frames.drop n
    depth := m.depth - n }

theorem unwind_eq {n : Nat} (hn : n ≤ m.frames.length) :
    unwind n m = .ok () (m.unwound n) := by
  induction n generalizing m with
  | zero => simp [unwind, unwound]
  | succ n ih =>
    cases hframes : m.frames with
    | nil =>
      rw [hframes] at hn
      simp at hn
    | cons f below =>
      have hrest : n ≤ (m.popped.withHeap (m.store.heap.releaseAll f.owned)).frames.length := by
        rw [hframes] at hn
        show n ≤ m.frames.tail.length
        rw [hframes]
        simpa using hn
      unfold unwind
      rw [bind_of_ok (popFrame_eq hframes), ih hrest]
      simp [unwound, popped, withHeap, hframes, Heap.releaseAll_append, Nat.sub_sub,
        Nat.add_comm 1 n]

/-- A failed run leaves the frames below it. -/
theorem fail_eq {α : Type} {base : Nat} {position : Position} {failure : Failure}
    (hm : m.depth = m.frames.length) :
    (fail base position failure : Action α) m =
      .error (m.runError base position failure) (m.unwound (m.depth - base)) := by
  unfold fail
  rw [bind_of_ok (get_eq m),
    bind_of_ok (unwind_eq (by omega))]
  rfl

theorem next_of_lt {ins : Instruction} (hm : m.frames = f :: below)
    (hins : f.block.code[f.counter]? = some ins) : next m = .ok (.perform ins) m := by
  obtain ⟨hlt, hget⟩ := Array.getElem?_eq_some_iff.mp hins
  exact ofFrame_of_some hm (by rw [dif_pos hlt, hget])

theorem next_of_le {result : Value} (hm : m.frames = f :: below)
    (hend : f.block.code.size ≤ f.counter) (hret : f.register? f.block.ret = some result) :
    next m = .ok (.finish result f.destination) m :=
  ofFrame_of_some hm (by rw [dif_neg (by omega), hret]; rfl)

/-- A round of a frame that has an instruction to do. -/
theorem turn_of_instruction {perform : Reply → Action Value} {base since : Nat} {ins : Instruction}
    (hm : m.frames = f :: below) (hins : f.block.code[f.counter]? = some ins) :
    turn perform base since m =
      if tick since = 0 && m.cancelled then fail base ins.position (.fault .cancelled) m
      else
        match step perform ins (m.withFrames ({ f with counter := f.counter + 1 } :: below)) with
        | .ok () m' => .ok (.goesOn (tick since)) m'
        | .error failure m' => fail base ins.position failure m' := by
  unfold turn
  rw [bind_of_ok (next_of_lt hm hins)]
  dsimp only
  rw [bind_of_ok (get_eq m)]
  split
  · rw [fail_bind]
  · rw [bind_of_ok (modifyFrame_eq _ hm)]
    cases hresult : step perform ins
        (m.withFrames ({ f with counter := f.counter + 1 } :: below)) with
    | ok _ m' => rw [bind_of_ok (attempt_of_ok hresult)]; rfl
    | error failure m' => rw [bind_of_ok (attempt_of_error hresult)]

/-- A round of a frame that has ended: its result goes to the frame below, or it is the result of
the run. -/
theorem turn_of_end {perform : Reply → Action Value} {base since : Nat} {m : Machine} {f : Frame}
    {below : List Frame} {result : Value} (hm : m.frames = f :: below)
    (hend : f.block.code.size ≤ f.counter) (hret : f.register? f.block.ret = some result) :
    turn perform base since m = (do
      if (← get).depth = base then return .ended result
      setRegister f.destination result
      release result
      return .goesOn since : Action Turn)
        ((m.withHeap ((m.store.heap.retain result).releaseAll f.owned)).popped) := by
  have hretained : (m.withHeap (m.store.heap.retain result)).frames = f :: below := hm
  unfold turn
  rw [bind_of_ok (next_of_le hm hend hret)]
  dsimp only
  rw [bind_of_ok (retain_eq result m), bind_of_ok (popFrame_eq hretained)]
  rfl

/-- A run repeats rounds until one ends it. -/
theorem execute_succ (fuel base since : Nat) :
    execute (fuel + 1) base since = (do
      match ← turn (perform fuel) base since with
      | .ended result => return result
      | .goesOn since => execute fuel base since) := by
  rw [execute]
  unfold turn
  simp only [bind_assoc]
  congr 1
  funext found
  cases found with
  | finish result destination =>
    simp only [bind_assoc]
    congr 1; funext _
    congr 1; funext _
    congr 1; funext m
    split
    · simp only [pure_bind]
    · simp only [bind_assoc, pure_bind]
  | perform ins =>
    simp only [bind_assoc]
    congr 1; funext m
    unfold tick
    generalize (if since + 1 < checkInterval then since + 1 else 0) = later
    split
    · simp only [fail_bind]
    · simp only [bind_assoc]
      congr 1; funext _
      congr 1; funext outcome
      cases outcome with
      | ok _ => simp only [pure_bind]
      | error failure => simp only [fail_bind]

end Machine

end Inkwell
