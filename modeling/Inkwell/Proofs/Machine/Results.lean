import Inkwell.Machine.Run

/-!
# What the actions of a machine give

An action is a function from machines to results, so what it does can be written down as an
equation. The equations here say what each of the small actions gives on a machine whose innermost
frame is `f`. Everything proved about single instructions rests on them, and nothing unfolds the
actions again.

Predicates on results are lifted by `After`, which says what holds when an action has succeeded and
what holds when it has failed.
-/

namespace Inkwell

variable {failure : Failure} {v : Value} {place : Nat} {o : Object}

/-- What holds after an action: `Q` of its value and the machine it leaves if it succeeds, `E` of
the failure and the machine it leaves if it fails. -/
def After {α : Type} (Q : α → Machine → Prop) (E : Failure → Machine → Prop) :
    EStateM.Result Failure Machine α → Prop
  | .ok a m => Q a m
  | .error failure m => E failure m

namespace After

variable {α β : Type} {Q : α → Machine → Prop} {R : β → Machine → Prop}
  {E : Failure → Machine → Prop} {m : Machine}

/-- Two actions one after the other. -/
theorem bind {x : Action α} {next : α → Action β}
    (h : After (fun a m' => After R E (next a m')) E (x m)) : After R E ((x >>= next) m) := by
  show After R E (EStateM.bind x next m)
  unfold EStateM.bind
  cases hx : x m <;> rw [hx] at h <;> exact h

theorem mono {Q' : α → Machine → Prop} {E' : Failure → Machine → Prop}
    {result : EStateM.Result Failure Machine α} (h : After Q E result)
    (hQ : ∀ a m, Q a m → Q' a m) (hE : ∀ failure m, E failure m → E' failure m) :
    After Q' E' result := by
  cases result with
  | ok a m => exact hQ a m h
  | error failure m => exact hE failure m h

end After

/-- The heap of a machine replaced. -/
def Machine.withHeap (m : Machine) (h : Heap) : Machine := { m with store.heap := h }

/-- The frames of a machine replaced; their number is not looked at. -/
def Machine.withFrames (m : Machine) (frames : List Frame) : Machine := { m with frames := frames }

/-- The machine with one more frame. -/
def Machine.pushed (m : Machine) (f : Frame) : Machine :=
  { m with frames := f :: m.frames, depth := m.depth + 1, peak := max m.peak (m.depth + 1) }

/-- The machine without its innermost frame. -/
def Machine.popped (m : Machine) : Machine :=
  { m with frames := m.frames.tail, depth := m.depth - 1 }

/-- A frame with another value in a register. -/
def Frame.put (f : Frame) (r : Int) (v : Value) : Frame :=
  { f with registers := f.registers.setIfInBounds r.toNat v }

namespace Machine

@[simp] theorem withHeap_frames (m : Machine) (h : Heap) : (m.withHeap h).frames = m.frames := rfl
@[simp] theorem withHeap_depth (m : Machine) (h : Heap) : (m.withHeap h).depth = m.depth := rfl
@[simp] theorem withHeap_heap (m : Machine) (h : Heap) : (m.withHeap h).store.heap = h := rfl
@[simp] theorem withHeap_code (m : Machine) (h : Heap) :
    (m.withHeap h).store.code = m.store.code := rfl
@[simp] theorem withHeap_withHeap (m : Machine) (h h' : Heap) :
    (m.withHeap h).withHeap h' = m.withHeap h' := rfl
@[simp] theorem withFrames_depth (m : Machine) (frames : List Frame) :
    (m.withFrames frames).depth = m.depth := rfl
variable {α β : Type} {m m' : Machine} {f : Frame} {below : List Frame}

theorem bind_of_ok {x : Action α} {next : α → Action β} {a : α} (h : x m = .ok a m') :
    (x >>= next) m = next a m' := by
  show EStateM.bind x next m = next a m'
  simp only [EStateM.bind, h]

theorem bind_of_error {x : Action α} {next : α → Action β} (h : x m = .error failure m') :
    (x >>= next) m = .error failure m' := by
  show EStateM.bind x next m = _
  simp only [EStateM.bind, h]

theorem bind_congr {x y : Action α} {next : α → Action β} (h : x m = y m) :
    (x >>= next) m = (y >>= next) m := by
  show EStateM.bind x next m = EStateM.bind y next m
  simp only [EStateM.bind, h]

@[simp] theorem pure_eq (a : α) (m : Machine) : (pure a : Action α) m = .ok a m := rfl

theorem get_eq (m : Machine) : (get : Action Machine) m = .ok m m := rfl

theorem unplaced_of_ok {x : Action α} {a : α} (h : x m = .ok a m') : unplaced x m = .ok a m' := by
  simp only [unplaced, h]

theorem unplaced_of_error {x : Action α} (h : x m = .error failure m') :
    unplaced x m = .error failure.unplaced m' := by
  simp only [unplaced, h]

theorem attempt_of_ok {x : Action α} {a : α} (h : x m = .ok a m') :
    attempt x m = .ok (.ok a) m' := by
  simp only [attempt, h]

theorem attempt_of_error {x : Action α} (h : x m = .error failure m') :
    attempt x m = .ok (.error failure) m' := by
  simp only [attempt, h]

/-! ## The heap -/

theorem modifyHeap_eq (g : Heap → Heap) (m : Machine) :
    modifyHeap g m = .ok () (m.withHeap (g m.store.heap)) := rfl

end Machine

namespace Heap

variable {h : Heap}

@[simp] theorem releaseAll_nil (h : Heap) : h.releaseAll [] = h := by rw [releaseAll]

theorem releaseAll_cons_of_none {rest : List Value} (hv : h.disownable? v = none) :
    h.releaseAll (v :: rest) = h.releaseAll rest := by
  rw [releaseAll]
  split
  · rfl
  · rename_i hfound
    cases hv.symm.trans hfound

theorem releaseAll_cons_of_some {rest : List Value} (hv : h.disownable? v = some (place, o)) :
    h.releaseAll (v :: rest) = (h.disown place).releaseAll (o.passedOn ++ rest) := by
  rw [releaseAll]
  split
  · rename_i hfound
    cases hv.symm.trans hfound
  · rename_i hfound
    cases hv.symm.trans hfound
    rfl

/-- Everything that is released on account of a value is released before the next value is. -/
theorem releaseAll_append (h : Heap) (work rest : List Value) :
    h.releaseAll (work ++ rest) = (h.releaseAll work).releaseAll rest := by
  fun_induction releaseAll h work with
  | case1 h => rfl
  | case2 h v others hfound ih => rw [List.cons_append, releaseAll_cons_of_none hfound, ih]
  | case3 h v others place o hfound ih =>
    rw [List.cons_append, releaseAll_cons_of_some hfound, ← List.append_assoc, ih]

theorem retain_of_none (hv : v.object? = none) : h.retain v = h := by
  simp only [retain, hv]

theorem release_of_none (hv : v.object? = none) : h.release v = h := by
  have hnone : h.disownable? v = none := by simp only [disownable?, hv]
  rw [release, releaseAll_cons_of_none hnone, releaseAll_nil]

end Heap

namespace Machine

variable {k r : Int} {block : Nat} {cells : List Nat} {arguments : List Value}
variable {α β : Type} {m m' : Machine} {f : Frame} {below : List Frame}

theorem retain_eq (v : Value) (m : Machine) :
    retain v m = .ok () (m.withHeap (m.store.heap.retain v)) := by
  unfold retain
  cases v <;> rfl

theorem release_eq (v : Value) (m : Machine) :
    release v m = .ok () (m.withHeap (m.store.heap.release v)) := by
  cases hv : v.object? with
  | none =>
    rw [Heap.release_of_none hv]
    cases v <;> first | rfl | cases hv
  | some place => cases v <;> first | rfl | cases hv

/-! ## The innermost frame -/

theorem modifyFrame_eq (g : Frame → Frame) (hm : m.frames = f :: below) :
    modifyFrame g m = .ok () (m.withFrames (g f :: below)) := by
  obtain ⟨store, frames, depth, peak, maxFrames, natives, cancelled⟩ := m
  simp only at hm
  subst hm
  rfl

section

variable (hm : m.frames = f :: below)

include hm

theorem ofFrame_of_some {g : Frame → Option α} {a : α} (hg : g f = some a) :
    ofFrame g m = .ok a m := by
  simp only [ofFrame, hm, hg]

theorem ofFrame_of_none {g : Frame → Option α} (hg : g f = none) :
    ofFrame g m = .error .outOfRange m := by
  simp only [ofFrame, hm, hg]

theorem register_of_some (hr : f.register? r = some v) : register r m = .ok v m :=
  ofFrame_of_some hm hr

theorem register_of_none (hr : f.register? r = none) : register r m = .error .outOfRange m :=
  ofFrame_of_none hm hr

theorem registers_of_some {rs : List Int} {vs : List Value} (hr : rs.mapM f.register? = some vs) :
    registers rs m = .ok vs m := ofFrame_of_some hm hr

theorem setRegister_of_some {old : Value} (hr : f.register? r = some old) :
    setRegister r v m =
      .ok () ((m.withHeap ((m.store.heap.retain v).release old)).withFrames (f.put r v :: below)) := by
  unfold setRegister
  rw [bind_of_ok (register_of_some hm hr), bind_of_ok (retain_eq v m),
    bind_of_ok (modifyFrame_eq _ (by rw [withHeap_frames, hm])), release_eq]
  rfl

theorem setRegister_of_none (hr : f.register? r = none) : setRegister r v m = .error .outOfRange m := by
  unfold setRegister
  exact bind_of_error (register_of_none hm hr)

end

theorem ofFrame_total (g : Frame → α) (hm : m.frames = f :: below) :
    ofFrame (fun f => some (g f)) m = .ok (g f) m := ofFrame_of_some hm rfl

theorem pushFrame_of_lt (hm : m.depth < m.maxFrames) : pushFrame f m = .ok () (m.pushed f) := by
  unfold pushFrame
  rw [bind_of_ok (get_eq m), if_neg (by omega)]
  rfl

theorem pushFrame_of_le (hm : m.maxFrames ≤ m.depth) :
    pushFrame f m =
      .error (.fault .stackOverflow) (m.withHeap (m.store.heap.releaseAll f.owned)) := by
  unfold pushFrame
  rw [bind_of_ok (get_eq m), if_pos hm]
  rfl

theorem popFrame_eq (hm : m.frames = f :: below) :
    popFrame m = .ok () (m.popped.withHeap (m.store.heap.releaseAll f.owned)) := by
  unfold popFrame
  rw [bind_of_ok (ofFrame_total Frame.owned hm)]
  rfl

theorem goTo_eq (target : Int) (hm : m.frames = f :: below) :
    goTo target m = .ok () (m.withFrames ({ f with counter := target.toNat } :: below)) :=
  modifyFrame_eq _ hm

/-! ## The store -/

theorem ofStore_of_ok {g : Store → Except Fault α} {a : α} (hg : g m.store = .ok a) :
    ofStore g m = .ok a m := by
  simp only [ofStore, hg]

theorem ofStore_total (g : Store → α) (m : Machine) :
    ofStore (fun s => .ok (g s)) m = .ok (g m.store) m := rfl

theorem ofStore_of_error {g : Store → Except Fault α} {cause : Fault}
    (hg : g m.store = .error cause) : ofStore g m = .error (.fault cause) m := by
  simp only [ofStore, hg]

theorem datum_eq (v : Value) (m : Machine) : datum v m = .ok (m.store.heap.datum v) m := rfl

theorem load_eq (d : Datum) (m : Machine) :
    load d m = .ok (m.store.heap.load d).1 (m.withHeap (m.store.heap.load d).2) := rfl

theorem blockAt_eq (place : Nat) (m : Machine) : blockAt place m = .ok (m.store.block place) m := rfl

theorem loadConstant_of_some {d : Datum} (hm : m.frames = f :: below)
    (hk : f.block.constant? k = some d) :
    loadConstant k m = .ok (m.store.heap.load d).1 (m.withHeap (m.store.heap.load d).2) := by
  unfold loadConstant
  rw [bind_of_ok (ofFrame_of_some hm hk)]
  rfl

/-! ## Cells and calls -/

/-- What a cell that has not been released holds. -/
theorem readCell_of_live {content : Value} (ho : m.store.heap.objects[place]? = some o)
    (hreleased : o.released = false) (hbody : o.body = .cell content) :
    readCell place m = .ok content m := by
  obtain ⟨body, owners, released⟩ := o
  simp only at hreleased hbody
  subst hreleased hbody
  exact ofStore_of_ok (by simp only [ho])

theorem enterNested_of_some (hm : m.frames = f :: below)
    (hnested : f.block.nested? k = some place) :
    enterNested k m = (do
      let cells ← takeCells (m.store.block place).binds.toList
      modifyHeap fun h => cells.foldl Heap.retainObject h
      return (place, cells) : Action (Nat × List Nat)) m := by
  unfold enterNested
  rw [bind_of_ok (ofFrame_total (fun f => f.block.nested? k) hm)]
  simp only [hnested]
  rw [bind_of_ok (ofStore_total (fun s => (s.block place).binds.toList) m)]

theorem functionAt_of_live (ho : m.store.heap.objects[place]? = some o)
    (hreleased : o.released = false) (hbody : o.body = .closure block cells) : functionAt place m =
    .ok (block, cells) m := by
  obtain ⟨body, owners, released⟩ := o
  simp only at hreleased hbody
  subst hreleased hbody
  exact ofStore_of_ok (by simp only [ho])

/-- A function is found where one that has not been released stands, and nowhere else. -/
theorem functionAt_cases (place : Nat) (m : Machine) :
    (∃ o block cells, m.store.heap.objects[place]? = some o ∧ o.released = false ∧
      o.body = .closure block cells ∧ functionAt place m = .ok (block, cells) m) ∨
      functionAt place m = .error (.fault .releasedFunction) m := by
  unfold functionAt ofStore
  dsimp only
  split
  · rename_i found hfound
    split at hfound
    · rename_i block cells owners ho
      cases hfound
      exact .inl ⟨_, block, cells, ho, rfl, rfl, rfl⟩
    · cases hfound
  · rename_i cause hfound
    split at hfound
    · cases hfound
    · cases hfound
      exact .inr rfl

theorem resetRegisters_eq (n : Int) (hm : m.frames = f :: below) :
    resetRegisters n m =
      .ok () ((m.withHeap (m.store.heap.releaseAll f.registers.toList)).withFrames
        ({ f with registers := emptyRegisters n } :: below)) := by
  unfold resetRegisters
  rw [bind_of_ok (ofFrame_total (·.registers.toList) hm), bind_of_ok (modifyFrame_eq _ hm)]
  rfl

theorem leaveEnvironment_eq (hm : m.frames = f :: below) :
    leaveEnvironment m =
      .ok () ((m.withHeap (m.store.heap.releaseAll f.environment)).withFrames
        ({ f with function := none, cells := [], ownsCells := false } :: below)) := by
  unfold leaveEnvironment
  rw [bind_of_ok (ofFrame_total Frame.environment hm), bind_of_ok (modifyFrame_eq _ hm)]
  rfl

theorem callFunction_eq {dest : Int} (hfunction : functionAt place m = .ok (block, cells) m) :
    callFunction dest place arguments m =
      pushFrame {
        block := m.store.block block
        cells
        function := some place
        registers := placeArguments (emptyRegisters (m.store.block block).slots)
          (arguments.take (m.store.block block).params.toNat)
        destination := dest }
        (m.withHeap ((m.store.heap.retainAll
          (arguments.take (m.store.block block).params.toNat)).retainObject place)) := by
  unfold callFunction
  rw [bind_of_ok hfunction]
  rfl

/-- A function that calls itself in tail position gets new registers and nothing else. Another one
takes over the frame. -/
theorem replaceFunction_eq (hm : m.frames = f :: below)
    (hfunction : functionAt place m = .ok (block, cells) m) :
    replaceFunction place arguments m = .ok ()
      (if f.function = some place then
        (m.withHeap (((m.store.heap.retainAll arguments).releaseAll
          f.registers.toList).releaseAll
            (arguments.drop (m.store.block block).params.toNat))).withFrames
          ({ f with
            registers := placeArguments (emptyRegisters (m.store.block block).slots)
              (arguments.take (m.store.block block).params.toNat)
            counter := 0 } :: below)
      else
        (m.withHeap (((((m.store.heap.retainAll arguments).retainObject place).releaseAll
          f.registers.toList).releaseAll f.environment).releaseAll
            (arguments.drop (m.store.block block).params.toNat))).withFrames
          ({ f with
            block := m.store.block block
            function := some place
            cells
            ownsCells := false
            registers := placeArguments (emptyRegisters (m.store.block block).slots)
              (arguments.take (m.store.block block).params.toNat)
            counter := 0 } :: below)) := by
  unfold replaceFunction
  rw [bind_of_ok hfunction]
  dsimp only
  rw [bind_of_ok (blockAt_eq block m), bind_of_ok (modifyHeap_eq _ m)]
  have hframes : ∀ heap, (m.withHeap heap).frames = f :: below := fun _ => hm
  rw [bind_of_ok (ofFrame_total (fun g => g.function == some place) (hframes _))]
  simp only [beq_iff_eq]
  split
  · rw [bind_of_ok (resetRegisters_eq _ (hframes _)), bind_of_ok (modifyFrame_eq _ rfl)]
    rfl
  · rw [bind_of_ok (modifyHeap_eq _ _)]
    simp only [withHeap_heap, withHeap_withHeap]
    rw [bind_of_ok (resetRegisters_eq _ (hframes _)), bind_of_ok (leaveEnvironment_eq rfl),
      bind_of_ok (modifyFrame_eq _ rfl), bind_of_ok (modifyFrame_eq _ rfl)]
    rfl

/-! ## Functions of the host -/

theorem nativeAt_eq (id : Int) (m : Machine) :
    nativeAt id m =
      match if id < 0 then none else m.natives[id.toNat]? with
      | some n => .ok n m
      | none => .error (.fault (.unknownNative id)) m := by
  unfold nativeAt
  rw [bind_of_ok (get_eq m)]
  generalize (if id < 0 then none else m.natives[id.toNat]?) = found
  cases found <;> rfl

theorem native_eq (n : Native) (arguments : List Value) (m : Machine) :
    native n arguments m =
      match n.run arguments m.store with
      | .ok reply s => .ok reply { m with store := s }
      | .error cause s => .error (.fault cause) { m with store := s } := rfl

/-- What the function of the host with a number asks for. -/
def ask (id : Int) (arguments : List Value) : Action Reply := do native (← nativeAt id) arguments

theorem callNative_eq (perform : Reply → Action Value) (id : Int) (arguments : List Value) :
    callNative perform id arguments = ask id arguments >>= perform := by
  unfold callNative ask
  rw [bind_assoc]

theorem nativeAt_cases (id : Int) (m : Machine) :
    (∃ n ∈ m.natives, nativeAt id m = .ok n m ∧
      ∀ arguments, ask id arguments m = native n arguments m) ∨
      nativeAt id m = .error (.fault (.unknownNative id)) m := by
  have hat := nativeAt_eq id m
  cases hn : (if id < 0 then none else m.natives[id.toNat]?) with
  | none =>
    rw [hn] at hat
    exact .inr hat
  | some n =>
    rw [hn] at hat
    refine .inl ⟨n, ?_, hat, fun arguments => bind_of_ok hat⟩
    split at hn
    · cases hn
    · exact Array.mem_of_getElem? hn

end Machine

end Inkwell
