import Mathlib
import Inkwell.Proofs.Code.Sound
import Inkwell.Proofs.Heap.Functions
import Inkwell.Proofs.Machine.Fuel

/-!
# Sound blocks stay within their frames

While sound blocks run, everything that an instruction names is there: the frames of the run have as
many registers and cells as their blocks say (`Frame.Fits`), each hands its result to a register of
the frame below (`Linked`), and the functions in the heap have as many cells as their blocks take
(`FunctionsFit`). Every instruction keeps this (`Runs`).

There is one exception. The register for the result of a call in tail position is not looked at when
a program is checked, because a function that takes over the frame never writes it. A function of the
host does not take over the frame, so its result goes to that register (`Blames.strays`).

The frames below a run are out of its reach, so the invariant says nothing of them but that they
stay: a run is above the frames `lower`, and the frames `upper` are its own.
-/

namespace Inkwell

variable {f : Frame} {r : Int} {lower : List Frame} {m : Machine} {heap : Heap} {cells : List Nat}
  {place : Nat}

/-- The functions in the heap have sound blocks and the cells that their blocks take. -/
def Store.FunctionsFit (s : Store) : Prop :=
  ∀ place block cells, s.heap.HasFunction place block cells →
    (s.block block).Sound s.code ∧ cells.length = (s.block block).binds.size

/-- A frame has the registers and cells that its block says. The frame of a function runs the block
of that function. -/
structure Frame.Fits (s : Store) (f : Frame) : Prop where
  sound : f.block.Sound s.code
  registers : (f.registers.size : Int) = f.block.slots
  cells : f.cells.length = f.block.binds.size
  known : ∀ place, f.function = some place → place < s.heap.objects.size
  runs : ∀ place block cells, f.function = some place → s.heap.HasFunction place block cells →
    s.block block = f.block

/-- Each frame but the last hands its result to a register of the next one. -/
def Linked : List Frame → Prop
  | f :: g :: below => (g.register? f.destination).isSome ∧ Linked (g :: below)
  | _ => True

namespace Frame

theorem register?_isSome (h : 0 ≤ r ∧ r < f.registers.size) :
    (f.register? r).isSome := by
  unfold register?
  rw [if_neg (by omega), Array.getElem?_eq_getElem (by omega)]
  rfl

theorem register?_eq_none (h : f.register? r = none) :
    r < 0 ∨ (f.registers.size : Int) ≤ r := by
  unfold register? at h
  split at h
  · left; assumption
  · right
    rw [Array.getElem?_eq_none_iff] at h
    omega

namespace Fits

variable {s s' : Store} {f : Frame}

theorem register? (h : f.Fits s) (hr : 0 ≤ r ∧ r < f.block.slots) :
    ∃ v, f.register? r = some v :=
  Option.isSome_iff_exists.mp (register?_isSome (by rw [h.registers]; exact hr))

theorem put (h : f.Fits s) (r : Int) (v : Value) : (f.put r v).Fits s :=
  ⟨h.sound, by simpa [Frame.put] using h.registers, h.cells, h.known, h.runs⟩

theorem counter (h : f.Fits s) (n : Nat) : ({ f with counter := n } : Frame).Fits s :=
  ⟨h.sound, h.registers, h.cells, h.known, h.runs⟩

/-- A frame still fits when the heap changes, as long as no function appears where one was. -/
theorem of_functions (h : f.Fits s) (hcode : s'.code = s.code)
    (hgrows : s.heap.objects.size ≤ s'.heap.objects.size)
    (hold : ∀ place block cells, place < s.heap.objects.size →
      s'.heap.HasFunction place block cells → s.heap.HasFunction place block cells) :
    f.Fits s' where
  sound := by rw [hcode]; exact h.sound
  registers := h.registers
  cells := h.cells
  known := fun place hplace => Nat.lt_of_lt_of_le (h.known place hplace) hgrows
  runs := by
    intro place block cells hplace hfunction
    have hblock := h.runs place block cells hplace
      (hold place block cells (h.known place hplace) hfunction)
    simpa [Store.block, hcode] using hblock

end Fits

end Frame

namespace Linked

variable {f g : Frame} {below : List Frame}

theorem tail (h : Linked (f :: below)) : Linked below := by
  cases below with
  | nil => trivial
  | cons g rest => exact h.2

/-- Only where the innermost frame hands its result to matters. -/
theorem replace (h : Linked (f :: below)) (hsame : g.destination = f.destination) :
    Linked (g :: below) := by
  cases below with
  | nil => trivial
  | cons next rest => exact ⟨by rw [hsame]; exact h.1, h.2⟩

end Linked

namespace Machine

/-- The frames are the given ones, all of them fit, and so do the functions in the heap. -/
structure Rests (code : Array Block) (stack : List Frame) (m : Machine) : Prop where
  code : m.store.code = code
  frames : m.frames = stack
  fit : ∀ f ∈ stack, f.Fits m.store
  functions : m.store.FunctionsFit

/-- A run above the frames `lower` whose own frames are `upper`. -/
structure Runs (code : Array Block) (upper lower : List Frame) (m : Machine) : Prop extends
    Rests code (upper ++ lower) m where
  linked : Linked upper

/-- A run above the frames `lower` that has failed; its own frames have not been removed yet. -/
structure Stands (code : Array Block) (lower : List Frame) (m : Machine) : Prop where
  code : m.store.code = code
  frames : ∃ upper, m.frames = upper ++ lower
  fit : ∀ f ∈ lower, f.Fits m.store
  functions : m.store.FunctionsFit

/-- Own frames of a run may be counted as those below it. -/
theorem Stands.below {code : Array Block} (upper : List Frame)
    (h : Stands code (upper ++ lower) m) : Stands code lower m := by
  obtain ⟨more, hframes⟩ := h.frames
  exact ⟨h.code, ⟨more ++ upper, by rw [hframes, List.append_assoc]⟩,
    fun f hf => h.fit f (List.mem_append_right upper hf), h.functions⟩

namespace Rests

variable {code : Array Block} {frames : List Frame} {m : Machine}

theorem withHeap (h : Rests code frames m) (hadds : m.store.heap.AddsNoFunction heap) :
    Rests code frames (m.withHeap heap) where
  code := h.code
  frames := h.frames
  fit := fun f hf => (h.fit f hf).of_functions rfl hadds.grows fun place block cells _ hfunction =>
    hadds.old place block cells hfunction
  functions := fun place block cells hfunction =>
    h.functions place block cells (hadds.old place block cells hfunction)

theorem stands (upper : List Frame) (h : Rests code (upper ++ lower) m) :
    Stands code lower m :=
  ⟨h.code, ⟨upper, h.frames⟩, fun f hf => h.fit f (List.mem_append_right upper hf), h.functions⟩

/-- A new function whose block is sound and takes as many cells keeps everything that fits. -/
theorem newFunction (h : Rests code frames m) {block : Nat}
    (hsound : (m.store.block block).Sound code)
    (hcells : cells.length = (m.store.block block).binds.size) :
    Rests code frames (m.withHeap (m.store.heap.newObject (.closure block cells)).2) where
  code := h.code
  frames := h.frames
  fit := by
    intro f hf
    refine (h.fit f hf).of_functions rfl (by simp [Heap.newObject]) ?_
    rintro place block' cells' hlt ⟨o, ho, hlive⟩
    simp only [withHeap_heap, Heap.newObject, Array.getElem?_push] at ho
    rw [if_neg (by omega)] at ho
    exact ⟨o, ho, hlive⟩
  functions := by
    rintro place block' cells' ⟨o, ho, hreleased, hbody⟩
    simp only [withHeap_heap, Heap.newObject, Array.getElem?_push] at ho
    split at ho
    · cases ho
      cases hbody
      rw [withHeap_code, h.code]
      exact ⟨hsound, hcells⟩
    · exact h.functions place block' cells' ⟨o, ho, hreleased, hbody⟩

end Rests

namespace Runs

variable {code : Array Block} {f g : Frame} {upper lower : List Frame} {m : Machine}

theorem stands (h : Runs code upper lower m) : Stands code lower m := h.toRests.stands upper

theorem top (h : Runs code (f :: upper) lower m) : f.Fits m.store := h.fit f (.head _)

theorem withHeap (h : Runs code upper lower m) (hadds : m.store.heap.AddsNoFunction heap) :
    Runs code upper lower (m.withHeap heap) :=
  ⟨h.toRests.withHeap hadds, h.linked⟩

/-- The innermost frame may change as long as it fits and hands its result to the same register. -/
theorem replace (h : Runs code (f :: upper) lower m) (hfits : g.Fits m.store)
    (hsame : g.destination = f.destination) :
    Runs code (g :: upper) lower (m.withFrames (g :: (upper ++ lower))) where
  code := h.code
  frames := rfl
  fit := by
    intro other hother
    rcases List.mem_cons.mp hother with rfl | hother
    · exact hfits
    · exact h.fit other (.tail _ hother)
  linked := h.linked.replace hsame
  functions := h.functions

theorem setRegister (h : Runs code (f :: upper) lower m) (hr : (f.register? r).isSome) (v : Value) :
    ∃ m', Machine.setRegister r v m = .ok () m' ∧
      Runs code (f.put r v :: upper) lower m' := by
  obtain ⟨old, hold⟩ := Option.isSome_iff_exists.mp hr
  refine ⟨_, setRegister_of_some h.frames hold, ?_⟩
  have hheap := h.withHeap ((Heap.addsNoFunction_retain m.store.heap v).trans
    (Heap.addsNoFunction_release _ old))
  exact hheap.replace (hheap.top.put r v) rfl

end Runs

/-! ## Actions on the heap alone -/

/-- The action fails for a reason of its own or succeeds, and touches nothing but the heap, to which
it adds no function. -/
def Tame {α : Type} (m : Machine) : EStateM.Result Failure Machine α → Prop :=
  After (fun _ m' => ∃ h, m.store.heap.AddsNoFunction h ∧ m' = m.withHeap h)
    fun failure m' => (∃ cause, failure = .fault cause) ∧
      ∃ h, m.store.heap.AddsNoFunction h ∧ m' = m.withHeap h

theorem tame_ofStore {α : Type} (g : Store → Except Fault α) (m : Machine) :
    Tame m (ofStore g m) := by
  unfold ofStore
  cases g m.store with
  | ok a => exact ⟨_, .refl _, rfl⟩
  | error cause => exact ⟨⟨cause, rfl⟩, _, .refl _, rfl⟩

theorem Tame.bind {α β : Type} {x : Action α} {next : α → Action β} (hx : Tame m (x m))
    (hnext : ∀ a h, Tame (m.withHeap h) (next a (m.withHeap h))) :
    Tame m ((x >>= next) m) := by
  refine After.bind (After.mono hx ?_ fun _ _ hE => hE)
  rintro a m' ⟨h, hadds, rfl⟩
  refine After.mono (hnext a h) ?_ ?_
  · rintro b m' ⟨h', hadds', rfl⟩
    exact ⟨h', hadds.trans hadds', rfl⟩
  · rintro failure m' ⟨hcause, h', hadds', rfl⟩
    exact ⟨hcause, h', hadds.trans hadds', rfl⟩

theorem tame_modifyHeap {g : Heap → Heap} (hg : m.store.heap.AddsNoFunction (g m.store.heap)) :
    Tame m (modifyHeap g m) := ⟨_, hg, rfl⟩

theorem tame_load (d : Datum) (m : Machine) : Tame m (load d m) :=
  ⟨_, Heap.addsNoFunction_load _ d, rfl⟩

theorem tame_retain (v : Value) (m : Machine) : Tame m (retain v m) := by
  rw [retain_eq]
  exact ⟨_, Heap.addsNoFunction_retain _ v, rfl⟩

theorem tame_release (v : Value) (m : Machine) : Tame m (release v m) := by
  rw [release_eq]
  exact ⟨_, Heap.addsNoFunction_release _ v, rfl⟩

theorem tame_newCell (v : Value) (m : Machine) : Tame m (newCell v m) :=
  ⟨_, (Heap.addsNoFunction_retain _ v).trans (Heap.addsNoFunction_push fun _ _ h => by cases h), rfl⟩

theorem tame_writeCell (place : Nat) (v : Value) (m : Machine) : Tame m (writeCell place v m) :=
  .bind (tame_ofStore _ m) fun old _ => .bind (tame_retain v _) fun _ _ =>
    .bind (tame_modifyHeap (Heap.addsNoFunction_modify nofun)) fun _ _ => tame_release old _

theorem tame_element (container key : Value) (m : Machine) : Tame m (element container key m) := by
  refine .bind (tame_ofStore _ m) fun k h => ?_
  cases container with
  | composite place => exact tame_ofStore _ _
  | string buffer => exact .bind (tame_ofStore _ _) fun d h' => tame_load d _
  | _ => exact .bind (tame_ofStore _ _) fun _ h' => tame_ofStore _ _

theorem tame_assign (container key v : Value) (m : Machine) : Tame m (assign container key v m) := by
  refine .bind (tame_ofStore _ m) fun k h => ?_
  cases container with
  | composite place =>
    exact .bind (tame_ofStore _ _) fun label h' => tame_modifyHeap
      ((Heap.addsNoFunction_retain _ v).trans (Heap.addsNoFunction_putElement _ place label v))
  | string buffer =>
    exact .bind (tame_ofStore _ _) fun _ h' => tame_modifyHeap (Heap.addsNoFunction_strings rfl)
  | _ => exact .bind (tame_ofStore _ _) fun _ h' => tame_ofStore _ _

/-! ## Frames of functions and arms -/

@[simp] theorem size_emptyRegisters (n : Int) : (emptyRegisters n).size = n.toNat := by
  simp [emptyRegisters]

@[simp] theorem size_placeArguments (registers : Array Value) (arguments : List Value) :
    (placeArguments registers arguments).size = registers.size := by
  unfold placeArguments
  refine List.foldlRecOn (motive := fun acc : Array Value × Nat => acc.1.size = registers.size)
    arguments _ rfl ?_
  intro acc hacc v _
  rw [← hacc, Array.size_setIfInBounds]

section

variable {code : Array Block} {stack : List Frame} {m : Machine} {g : Frame}

/-- The action fails for a reason of its own or succeeds; then `Q` holds of its value and the
machine. Either way the frames are still `stack`, apart from what `Q` says. -/
def Settles {α : Type} (code : Array Block) (stack : List Frame) (Q : α → Machine → Prop) :
    EStateM.Result Failure Machine α → Prop :=
  After Q fun failure m' => (∃ cause, failure = .fault cause) ∧ Rests code stack m'

theorem Tame.settles {α : Type} {result : EStateM.Result Failure Machine α} (hm : Rests code stack m)
    (hresult : Tame m result) : Settles code stack (fun _ m' => Rests code stack m') result := by
  refine After.mono hresult ?_ ?_
  · rintro a m' ⟨h, hadds, rfl⟩
    exact hm.withHeap hadds
  · rintro failure m' ⟨hcause, h, hadds, rfl⟩
    exact ⟨hcause, hm.withHeap hadds⟩

theorem settles_pushFrame (hm : Rests code stack m) (hg : g.Fits m.store) :
    Settles code stack (fun _ m' => Rests code (g :: stack) m') (pushFrame g m) := by
  by_cases hfull : m.maxFrames ≤ m.depth
  · rw [pushFrame_of_le hfull]
    exact ⟨⟨_, rfl⟩, hm.withHeap (Heap.addsNoFunction_releaseAll _ _)⟩
  · rw [pushFrame_of_lt (Nat.lt_of_not_le hfull)]
    refine ⟨hm.code, congrArg (g :: ·) hm.frames, ?_, hm.functions⟩
    intro f hf
    rcases List.mem_cons.mp hf with rfl | hf
    · exact hg
    · exact hm.fit f hf

/-- The frame of a function with the registers that its block says. -/
theorem fits_function {block : Nat} (hm : m.store.FunctionsFit)
    (hfunction : m.store.heap.HasFunction place block cells)
    (hblock : g.block = m.store.block block) (hcells : g.cells = cells)
    (hplace : g.function = some place)
    (hregisters : g.registers.size = (m.store.block block).slots.toNat) : g.Fits m.store := by
  obtain ⟨hsound, hcount⟩ := hm place block cells hfunction
  obtain ⟨o, ho, hreleased, hbody⟩ := hfunction
  refine ⟨hblock ▸ hsound, ?_, by rw [hcells, hblock, hcount], ?_, ?_⟩
  · have hpos := hsound.slots_pos
    rw [hregisters, hblock]
    omega
  · intro place' hplace'
    rw [hplace] at hplace'
    cases hplace'
    exact (Array.getElem?_eq_some_iff.mp ho).1
  · rintro place' block' cells' hplace' ⟨o', ho', -, hbody'⟩
    rw [hplace] at hplace'
    cases hplace'
    rw [ho] at ho'
    cases ho'
    rw [hbody] at hbody'
    cases hbody'
    exact hblock.symm

/-- The frame of an arm with the registers that its block says. -/
theorem fits_arm (hblock : g.block = m.store.block place)
    (hsound : (m.store.block place).Sound m.store.code)
    (hcells : g.cells.length = (m.store.block place).binds.size) (hnone : g.function = none)
    (hregisters : g.registers.size = (m.store.block place).slots.toNat) : g.Fits m.store := by
  have hpos := hsound.slots_pos
  refine ⟨hblock ▸ hsound, by rw [hregisters, hblock]; omega, by rw [hcells, hblock], ?_, ?_⟩
  · intro place' hplace'
    rw [hnone] at hplace'
    cases hplace'
  · intro place' block' cells' hplace'
    rw [hnone] at hplace'
    cases hplace'

theorem fits_withHeap (h : g.Fits m.store) (hadds : m.store.heap.AddsNoFunction heap) :
    g.Fits (m.withHeap heap).store :=
  h.of_functions rfl hadds.grows fun place block cells _ hfunction =>
    hadds.old place block cells hfunction

theorem settles_callFunction (hm : Rests code stack m) (dest : Int) (place : Nat)
    (arguments : List Value) :
    Settles code stack (fun _ m' => ∃ g, g.destination = dest ∧ Rests code (g :: stack) m')
      (callFunction dest place arguments m) := by
  rcases functionAt_cases place m with ⟨o, block, cells, ho, hreleased, hbody, hfound⟩ | hfound
  · rw [callFunction_eq hfound]
    have hadds : m.store.heap.AddsNoFunction ((m.store.heap.retainAll
        (arguments.take (m.store.block block).params.toNat)).retainObject place) :=
      (Heap.addsNoFunction_retainAll _ _).trans (Heap.addsNoFunction_retainObject _ _)
    refine (settles_pushFrame (hm.withHeap hadds) (fits_withHeap ?_ hadds)).mono
      (fun _ m' hm' => ⟨_, rfl, hm'⟩) fun _ _ hE => hE
    exact fits_function hm.functions ⟨o, ho, hreleased, hbody⟩ rfl rfl rfl (by simp)
  · unfold callFunction
    rw [bind_of_error hfound]
    exact ⟨⟨_, rfl⟩, hm⟩

end

section

variable {below : List Frame}
variable {code : Array Block} {f : Frame} {upper lower : List Frame} {m : Machine}

section

variable (hm : m.frames = f :: below)

include hm

theorem tame_register (hr : (f.register? r).isSome) : Tame m (register r m) := by
  obtain ⟨v, hv⟩ := Option.isSome_iff_exists.mp hr
  rw [register_of_some hm hv]
  exact ⟨_, .refl _, rfl⟩

theorem tame_cellIn (hr : (f.register? r).isSome) : Tame m (cellIn r m) := by
  refine .bind (tame_register hm hr) fun v h => ?_
  cases v <;> first | exact ⟨_, .refl _, rfl⟩ | exact ⟨⟨_, rfl⟩, _, .refl _, rfl⟩

theorem tame_cellOf {i : Int} (hi : 0 ≤ i ∧ i < f.cells.length) : Tame m (cellOf i m) := by
  have hsome : (if i < 0 then none else f.cells[i.toNat]?) = some (f.cells[i.toNat]) := by
    rw [if_neg (by omega), List.getElem?_eq_getElem (by omega)]
  unfold cellOf
  rw [ofFrame_of_some hm hsome]
  exact ⟨_, .refl _, rfl⟩

/-- The cells that a block takes are found when each of them is there. -/
theorem tame_takeCells {binds : List Bind} (hregisters : (f.registers.size : Int) = f.block.slots)
    (hcells : f.cells.length = f.block.binds.size) (hbinds : ∀ bind ∈ binds, bind.Within f.block) :
    Tame m (takeCells binds m) := by
  induction binds generalizing m with
  | nil => exact ⟨_, .refl _, rfl⟩
  | cons bind rest ih =>
    have hrest : ∀ (place : Nat) (h : Heap),
        Tame (m.withHeap h) ((do return place :: (← takeCells rest)) (m.withHeap h)) :=
      fun place h => .bind (ih hm fun b hb => hbinds b (.tail _ hb)) fun _ h' => ⟨_, .refl _, rfl⟩
    have hbind := hbinds bind (.head _)
    unfold Bind.Within at hbind
    unfold takeCells
    dsimp only
    split
    · rename_i hlocal
      rw [if_pos hlocal, ← hregisters] at hbind
      exact .bind (tame_cellIn hm (Frame.register?_isSome hbind)) hrest
    · rename_i hlocal
      rw [if_neg hlocal, ← hcells] at hbind
      rw [bind_of_ok (ofFrame_total (·.cells.length) hm), if_neg (by omega)]
      exact .bind (tame_cellOf hm hbind) hrest

end

theorem length_takeCells {binds : List Bind} {m' : Machine} (h : takeCells binds m = .ok cells m') :
    cells.length = binds.length := by
  induction binds generalizing cells m m' with
  | nil =>
    cases h
    rfl
  | cons bind rest ih =>
    have hrest : ∀ (place : Nat) (m : Machine),
        (do return place :: (← takeCells rest) : Action (List Nat)) m = .ok cells m' →
        cells.length = (bind :: rest).length := by
      intro place m h
      cases hfound : takeCells rest m with
      | error failure m'' =>
        rw [bind_of_error hfound] at h
        cases h
      | ok others m'' =>
        rw [bind_of_ok hfound] at h
        cases h
        simp [ih hfound]
    have hbind : ∀ (x : Action Nat) (m : Machine),
        (do let place ← x; return place :: (← takeCells rest)) m = .ok cells m' →
        cells.length = (bind :: rest).length := by
      intro x m h
      cases hx : x m with
      | error failure m'' =>
        rw [bind_of_error hx] at h
        cases h
      | ok place m'' =>
        rw [bind_of_ok hx] at h
        exact hrest place m'' h
    unfold takeCells at h
    dsimp only at h
    split at h
    · exact hbind _ _ h
    · cases hsize : ofFrame (fun f => some f.cells.length) m with
      | error failure m'' =>
        rw [bind_of_error hsize] at h
        cases h
      | ok size m'' =>
        rw [bind_of_ok hsize] at h
        split at h <;> exact hbind _ _ h

variable (hm : Runs code (f :: upper) lower m)

include hm

/-- What entering a nested block gives: its place, and as many cells as it takes. -/
theorem settles_enterNested {k : Int} (hnested : f.block.nested? k = some place) :
    Settles code (f :: (upper ++ lower)) (fun found m' => found.1 = place ∧
        found.2.length = (m'.store.block place).binds.size ∧ Runs code (f :: upper) lower m')
      (enterNested k m) := by
  have hchild := Block.mem_children_of_nested? hnested
  have htake : Tame m (takeCells (m.store.block place).binds.toList m) :=
    tame_takeCells hm.frames hm.top.registers hm.top.cells (hm.top.sound.takes place hchild)
  rw [enterNested_of_some hm.frames hnested]
  cases hcells : takeCells (m.store.block place).binds.toList m with
  | error failure m' =>
    rw [hcells] at htake
    obtain ⟨hcause, h, hadds, rfl⟩ := htake
    rw [bind_of_error hcells]
    exact ⟨hcause, hm.toRests.withHeap hadds⟩
  | ok cells m' =>
    rw [hcells] at htake
    obtain ⟨h, hadds, rfl⟩ := htake
    rw [bind_of_ok hcells]
    refine ⟨rfl, ?_, hm.withHeap (hadds.trans (Heap.addsNoFunction_retainObjects h cells))⟩
    show cells.length = (m.store.block place).binds.size
    simpa using length_takeCells hcells

/-! ## One instruction -/

/-- What an instruction of a run above the frames `lower` may lead to: the run goes on with a frame
of its own, or the instruction fails; it is out of range only if `Bad` holds. -/
def Safely (code : Array Block) (lower : List Frame) (Bad : Prop) :
    EStateM.Result Failure Machine Unit → Prop :=
  After (fun _ m' => ∃ f upper, Runs code (f :: upper) lower m')
    fun failure m' => Stands code lower m' ∧ (failure = .outOfRange → Bad)

variable {Bad : Prop}

omit hm in
/-- An action that settles, and then the rest of the instruction. -/
theorem Settles.safely {α : Type} (upper : List Frame) {Q : α → Machine → Prop} {x : Action α}
    {next : α → Action Unit} (hx : Settles code (upper ++ lower) Q (x m))
    (hnext : ∀ a m', Q a m' → Safely code lower Bad (next a m')) :
    Safely code lower Bad ((x >>= next) m) := by
  refine After.bind (After.mono hx hnext ?_)
  rintro failure m' ⟨⟨cause, rfl⟩, hm'⟩
  exact ⟨hm'.stands upper, nofun⟩

omit hm in
theorem Tame.safely {α : Type} {x : Action α} {next : α → Action Unit} (hx : Tame m (x m))
    (hm : Runs code (f :: upper) lower m)
    (hnext : ∀ a m', Runs code (f :: upper) lower m' → Safely code lower Bad (next a m')) :
    Safely code lower Bad ((x >>= next) m) :=
  Settles.safely (f :: upper) (Q := fun _ m' => Runs code (f :: upper) lower m')
    ((hx.settles hm.toRests).mono (fun _ _ hm' => ⟨hm', hm.linked⟩) fun _ _ hE => hE) hnext

omit hm in
/-- An action on the heap alone as the end of an instruction. -/
theorem Tame.safely_end {x : Action Unit} (hx : Tame m (x m)) (hm : Runs code (f :: upper) lower m) :
    Safely code lower Bad (x m) := by
  refine (hx.settles hm.toRests).mono (fun _ m' hm' => ⟨f, upper, hm', hm.linked⟩) ?_
  rintro failure m' ⟨⟨cause, rfl⟩, hm'⟩
  exact ⟨hm'.stands (f :: upper), nofun⟩

theorem safely_setRegister (hr : (f.register? r).isSome)
    (v : Value) : Safely code lower Bad (setRegister r v m) := by
  obtain ⟨m', hset, hm'⟩ := hm.setRegister hr v
  rw [hset]
  exact ⟨_, _, hm'⟩

theorem safely_setResult (hr : (f.register? r).isSome) (result : Except Fault Datum) :
    Safely code lower Bad (setResult r result m) := by
  cases result with
  | ok d => exact (tame_load d m).safely hm fun v m' hm' => safely_setRegister hm' hr v
  | error cause => exact ⟨hm.stands, nofun⟩

theorem safely_goTo (target : Int) : Safely code lower Bad (goTo target m) := by
  rw [goTo_eq target hm.frames]
  exact ⟨_, _, hm.replace (hm.top.counter _) rfl⟩

theorem safely_callFunction {dest : Int}
    (hdest : (f.register? dest).isSome) (place : Nat) (arguments : List Value) :
    Safely code lower Bad (callFunction dest place arguments m) := by
  refine (settles_callFunction hm.toRests dest place arguments).mono ?_ ?_
  · rintro _ m' ⟨g, rfl, hm'⟩
    exact ⟨g, f :: upper, hm', hdest, hm.linked⟩
  · rintro failure m' ⟨⟨cause, rfl⟩, hm'⟩
    exact ⟨hm'.stands (f :: upper), nofun⟩

/-- A function that takes over the innermost frame. One that calls itself keeps the block of the
frame, which is its own. -/
theorem safely_replaceFunction (place : Nat)
    (arguments : List Value) : Safely code lower Bad (replaceFunction place arguments m) := by
  rcases functionAt_cases place m with ⟨o, block, cells, ho, hreleased, hbody, hfound⟩ | hfound
  · have hfunction : m.store.heap.HasFunction place block cells := ⟨o, ho, hreleased, hbody⟩
    by_cases hsame : f.function = some place
    · rw [replaceFunction_eq hm.frames hfound, if_pos hsame]
      have hadds := ((Heap.addsNoFunction_retainAll m.store.heap arguments).trans
        (Heap.addsNoFunction_releaseAll _ f.registers.toList)).trans (Heap.addsNoFunction_releaseAll _
          (arguments.drop (m.store.block block).params.toNat))
      have hblock := hm.top.runs place block cells hsame hfunction
      have hpos := hm.top.sound.slots_pos
      refine ⟨_, _, (hm.withHeap hadds).replace (fits_withHeap ?_ hadds) rfl⟩
      refine ⟨hm.top.sound, ?_, hm.top.cells, hm.top.known, hm.top.runs⟩
      simp only [size_placeArguments, size_emptyRegisters, hblock]
      omega
    · rw [replaceFunction_eq hm.frames hfound, if_neg hsame]
      have hadds := ((((Heap.addsNoFunction_retainAll m.store.heap arguments).trans
        (Heap.addsNoFunction_retainObject _ place)).trans
        (Heap.addsNoFunction_releaseAll _ f.registers.toList)).trans
        (Heap.addsNoFunction_releaseAll _ f.environment)).trans (Heap.addsNoFunction_releaseAll _
          (arguments.drop (m.store.block block).params.toNat))
      refine ⟨_, _, (hm.withHeap hadds).replace (fits_withHeap ?_ hadds) rfl⟩
      exact fits_function hm.functions hfunction rfl rfl rfl (by simp)
  · unfold replaceFunction
    rw [bind_of_error hfound]
    exact ⟨hm.stands, nofun⟩

theorem safely_callArm {dest k : Int} {tail : Bool}
    (hdest : (f.register? dest).isSome) (hnested : (f.block.nested? k).isSome) :
    Safely code lower Bad (callArm dest k tail m) := by
  obtain ⟨place, hplace⟩ := Option.isSome_iff_exists.mp hnested
  have hsound := hm.top.sound.nested place (Block.mem_children_of_nested? hplace)
  refine Settles.safely (f :: upper) (settles_enterNested hm hplace) ?_
  rintro ⟨place', cells⟩ m' ⟨rfl, hcells, hm'⟩
  have hsound' : (m'.store.block place').Sound m'.store.code := by
    have hcode : m'.store.code = m.store.code := by rw [hm'.code, hm.code]
    simpa [Store.block, Block.at?, hcode] using hsound
  dsimp only
  rw [bind_of_ok (blockAt_eq place' m')]
  cases tail with
  | true =>
    simp only [if_true]
    rw [bind_of_ok (resetRegisters_eq _ hm'.frames), bind_of_ok (leaveEnvironment_eq rfl),
      modifyFrame_eq _ rfl]
    have hadds := (Heap.addsNoFunction_releaseAll m'.store.heap f.registers.toList).trans
      (Heap.addsNoFunction_releaseAll _
        ({ f with registers := emptyRegisters (m'.store.block place').slots } : Frame).environment)
    refine ⟨_, _, (hm'.withHeap hadds).replace (fits_withHeap ?_ hadds) rfl⟩
    exact fits_arm rfl hsound' hcells rfl (by simp)
  | false =>
    refine (settles_pushFrame hm'.toRests (fits_arm rfl hsound' hcells rfl (by simp))).mono ?_ ?_
    · intro _ m'' hm''
      exact ⟨_, f :: upper, hm'', hdest, hm'.linked⟩
    · rintro failure m'' ⟨⟨cause, rfl⟩, hm''⟩
      exact ⟨hm''.stands (f :: upper), by simp⟩

end

end Machine

/-! ## Functions of the host -/

/-- The store that a function of the host leaves behind, whether it fails or not. -/
def Native.leaves (n : Native) (arguments : List Value) (s : Store) : Store :=
  match n.run arguments s with
  | .ok _ s' => s'
  | .error _ s' => s'

/-- A function of the host neither loads code nor makes functions of its own; it can ask the machine
to run a program or to call a function. -/
def Native.Honest (n : Native) : Prop :=
  ∀ arguments s, (n.leaves arguments s).code = s.code ∧
    s.heap.AddsNoFunction (n.leaves arguments s).heap

namespace Machine

/-- The instruction calls a function of the host. -/
structure CallsNative (m : Machine) (ins : Instruction) (id : Int) (arguments : List Value) :
    Prop where
  isCall : ins.op = .call ∨ ins.op = .tailCall
  callee : register ins.a m = .ok (.native id) m
  given : registers ins.args m = .ok arguments m

/-- Why an instruction is out of range; `Bad` says why what a function of the host asks for is. -/
inductive Blames (perform : Reply → Action Value) (Bad : Reply → Machine → Prop) (m : Machine)
    (ins : Instruction) : Prop
  /-- What a function of the host asks for is out of range. -/
  | asks {id : Int} {arguments : List Value} {reply : Reply} {m' : Machine}
      (calls : m.CallsNative ins id arguments) (asked : ask id arguments m = .ok reply m')
      (bad : Bad reply m')
  /-- The call of a function of the host in tail position gives its result to a register that is not
  there. -/
  | strays {id : Int} {arguments : List Value} {result : Value} {m' : Machine}
      (calls : m.CallsNative ins id arguments) (isTail : ins.op = .tailCall)
      (outside : ∀ f below, m.frames = f :: below → (f.registers.size : Int) ≤ ins.dest)
      (answers : callNative perform id arguments m = .ok result m')

section

variable {upper : List Frame} {ins : Instruction}
variable {code : Array Block} {stack : List Frame} {m : Machine} {s : Settings}

theorem settles_ask (hm : Rests code stack m) (hhonest : ∀ n ∈ m.natives, n.Honest) (id : Int)
    (arguments : List Value) :
    Settles code stack (fun _ m' => Rests code stack m') (ask id arguments m) := by
  rcases nativeAt_cases id m with ⟨n, hn, -, hask⟩ | hat
  · obtain ⟨hcode, hadds⟩ := hhonest n hn arguments m.store
    have hstore : ∀ store, n.leaves arguments m.store = store →
        Rests code stack { m with store } := by
      rintro store rfl
      refine ⟨by rw [← hm.code]; exact hcode, hm.frames, ?_, ?_⟩
      · intro f hf
        exact (hm.fit f hf).of_functions hcode hadds.grows fun place block cells _ hfunction =>
          hadds.old place block cells hfunction
      · intro place block cells hfunction
        have hfit := hm.functions place block cells (hadds.old place block cells hfunction)
        simpa [Store.block, hcode] using hfit
    rw [hask arguments]
    unfold native
    unfold Native.leaves at hstore
    dsimp only
    cases hrun : n.run arguments m.store with
    | ok reply store =>
      rw [hrun] at hstore
      exact hstore store rfl
    | error cause store =>
      rw [hrun] at hstore
      exact ⟨⟨cause, rfl⟩, hstore store rfl⟩
  · unfold ask
    rw [bind_of_error hat]
    exact ⟨⟨_, rfl⟩, hm⟩

/-- What a function of the host asks for leaves the frames as they are unless it fails, and is out of
range only if `Bad` says so. -/
def PerformsWithin (code : Array Block) (s : Settings) (perform : Reply → Action Value)
    (Bad : Reply → Machine → Prop) : Prop :=
  ∀ reply m stack, stack ≠ [] → Steady s m → Rests code stack m →
    After (fun _ m' => Rests code stack m')
      (fun failure m' => Stands code stack m' ∧ (failure = .outOfRange → Bad reply m))
      (perform reply m)

variable {perform : Reply → Action Value} {Bad : Reply → Machine → Prop}

variable (hhonest : ∀ n ∈ s.natives, n.Honest)
  (hperform : PerformsWithin code s perform Bad)

include hhonest hperform

theorem callNative_within (hstack : stack ≠ []) (hsteady : Steady s m)
    (hm : Rests code stack m) (id : Int) (arguments : List Value) :
    After (fun _ m' => Rests code stack m')
      (fun failure m' => Stands code stack m' ∧ (failure = .outOfRange →
        ∃ reply m'', ask id arguments m = .ok reply m'' ∧ Bad reply m''))
      (callNative perform id arguments m) := by
  rw [callNative_eq]
  have hasked := settles_ask hm (by rw [← hsteady.settings] at hhonest; exact hhonest) id arguments
  have hkept : Keeps (Steady s) (ask id arguments) :=
    .bind (Keeps.nativeAt _ id) fun n => (sturdy_steady _).keeps_native n arguments
  cases hask : ask id arguments m with
  | ok reply m' =>
    rw [hask] at hasked
    have hsteady' := hkept m hsteady
    rw [hask] at hsteady'
    rw [bind_of_ok hask]
    refine (hperform reply m' stack hstack hsteady' hasked).mono (fun _ _ hm' => hm') ?_
    rintro failure m'' ⟨hm'', hbad⟩
    exact ⟨hm'', fun hfailure => ⟨reply, m', rfl, hbad hfailure⟩⟩
  | error failure m' =>
    rw [hask] at hasked
    obtain ⟨⟨cause, rfl⟩, hm'⟩ := hasked
    rw [bind_of_error hask]
    exact ⟨hm'.stands [], nofun⟩

/-- The call of a function of the host; a call in tail position may name a register that is not
there for the result. -/
theorem safely_call_native {id : Int} {arguments : List Value} {tail : Bool}
    (hsteady : Steady s m) (hm : Runs code (f :: upper) lower m)
    (hcalls : m.CallsNative ins id arguments)
    (hdest : ins.op = .tailCall ∨ (f.register? ins.dest).isSome) :
    Safely code lower (Blames perform Bad m ins)
      (call perform ins.dest (.native id) arguments tail m) := by
  have hcall := callNative_within hhonest hperform (List.cons_ne_nil f (upper ++ lower)) hsteady
    hm.toRests id arguments
  show Safely code lower _ ((callNative perform id arguments >>= give ins.dest) m)
  cases hresult : callNative perform id arguments m with
  | error failure m' =>
    rw [hresult] at hcall
    obtain ⟨hm', hbad⟩ := hcall
    rw [bind_of_error hresult]
    refine ⟨hm'.below (f :: upper), fun hfailure => ?_⟩
    obtain ⟨reply, m'', hask, hbad⟩ := hbad hfailure
    exact .asks hcalls hask hbad
  | ok result m' =>
    rw [hresult] at hcall
    have hm' : Runs code (f :: upper) lower m' := ⟨hcall, hm.linked⟩
    rw [bind_of_ok hresult]
    unfold give
    split
    · rename_i hnonneg
      cases hregister : f.register? ins.dest with
      | some old => exact safely_setRegister hm' (by rw [hregister]; rfl) result
      | none =>
        rw [setRegister_of_none hm'.frames hregister]
        refine ⟨hm'.stands, fun _ => .strays hcalls ?_ ?_ hresult⟩
        · rcases hdest with htail | hsome
          · exact htail
          · rw [hregister] at hsome
            cases hsome
        · intro g below hframes
          have hframes' := hm.frames
          rw [hframes] at hframes'
          cases hframes'
          rcases Frame.register?_eq_none hregister with hneg | hout
          · omega
          · exact hout
    · exact (tame_retain result m').safely hm' fun _ m'' hm'' =>
        (tame_release result m'').safely_end hm''

omit hhonest hperform in
theorem mapM_register? {rs : List Int} (h : ∀ r ∈ rs, (f.register? r).isSome) :
    ∃ vs, rs.mapM f.register? = some vs := by
  induction rs with
  | nil => exact ⟨[], rfl⟩
  | cons r rest ih =>
    obtain ⟨v, hv⟩ := Option.isSome_iff_exists.mp (h r (.head _))
    obtain ⟨vs, hvs⟩ := ih fun r' hr' => h r' (.tail _ hr')
    exact ⟨v :: vs, by simp [hv, hvs]⟩

theorem safely_call {tail : Bool} (hsteady : Steady s m)
    (hm : Runs code (f :: upper) lower m) (hop : ins.op = .call ∨ ins.op = .tailCall)
    (hreads : ∀ r ∈ ins.a :: ins.args, (f.register? r).isSome)
    (hdest : ins.op = .tailCall ∧ tail = true ∨ (f.register? ins.dest).isSome) :
    Safely code lower (Blames perform Bad m ins) ((do
      let arguments ← registers ins.args
      call perform ins.dest (← register ins.a) arguments tail) m) := by
  obtain ⟨arguments, harguments⟩ := mapM_register? fun r hr => hreads r (.tail _ hr)
  obtain ⟨callee, hcallee⟩ := Option.isSome_iff_exists.mp (hreads ins.a (.head _))
  have hgiven := registers_of_some hm.frames harguments
  have hfound := register_of_some hm.frames hcallee
  rw [bind_of_ok hgiven, bind_of_ok hfound]
  cases callee with
  | native id =>
    exact safely_call_native hhonest hperform hsteady hm ⟨hop, hfound, hgiven⟩
      (hdest.imp And.left fun h => h)
  | function place =>
    cases tail with
    | true => exact safely_replaceFunction hm place arguments
    | false =>
      rcases hdest with ⟨-, htail⟩ | hsome
      · cases htail
      · exact safely_callFunction hm hsome place arguments
  | _ => exact ⟨hm.stands, nofun⟩

-- which registers an instruction of a given opcode reads and writes
attribute [local simp] Program.reads Instruction.writes?

/-- An instruction of a sound block is out of range only for the reasons of `Blames`. -/
theorem step_safely {offset : Nat} (hsteady : Steady s m)
    (hm : Runs code (f :: upper) lower m) (hins : ins.InBounds code f.block offset) :
    Safely code lower (Blames perform Bad m ins) (step perform ins m) := by
  have hdest : ins.writes? = some ins.dest → (f.register? ins.dest).isSome := fun hwrites =>
    Option.isSome_iff_exists.mpr (hm.top.register? (hins.writes _ hwrites))
  have hwrite : ins.writes? = some ins.dest → ∀ v (m' : Machine), Runs code (f :: upper) lower m' →
      Safely code lower (Blames perform Bad m ins) (setRegister ins.dest v m') :=
    fun hwrites v m' hm' => safely_setRegister hm' (hdest hwrites) v
  have hregister : ∀ {r : Int}, r ∈ (⟨code⟩ : Program).reads f.block ins →
      (f.register? r).isSome := fun hr =>
    Option.isSome_iff_exists.mpr (hm.top.register? (hins.reads _ hr))
  have hread : ∀ {r : Int}, r ∈ (⟨code⟩ : Program).reads f.block ins → ∀ {m' : Machine},
      Runs code (f :: upper) lower m' → Tame m' (register r m') := fun hr _ hm' =>
    tame_register hm'.frames (hregister hr)
  have hequal : ins.a ∈ (⟨code⟩ : Program).reads f.block ins →
      ins.b ∈ (⟨code⟩ : Program).reads f.block ins → Tame m (areEqual ins.a ins.b m) :=
    fun ha hb => .bind (tame_register hm.frames (hregister ha)) fun _ _ =>
      .bind (tame_register hm.frames (hregister hb)) fun _ _ => tame_ofStore _ _
  have hcells : ∀ {i : Int}, 0 ≤ i ∧ i < f.block.binds.size → Tame m (cellOf i m) := fun hi =>
    tame_cellOf hm.frames (by rw [hm.top.cells]; exact hi)
  unfold step
  cases hop : ins.op with
  | nop =>
    exact ⟨f, upper, hm⟩
  | move =>
    exact (hread (by simp [hop]) hm).safely hm (hwrite (by simp [hop]))
  | loadConstant =>
    obtain ⟨d, hd⟩ := Option.isSome_iff_exists.mp (hins.constant (.inl hop))
    dsimp only
    rw [bind_of_ok (loadConstant_of_some hm.frames hd)]
    exact hwrite (by simp [hop]) _ _ (hm.withHeap (Heap.addsNoFunction_load _ d))
  | loadEscaped =>
    refine (hcells (hins.bind (.inl hop))).safely hm fun place m' hm' => ?_
    exact (tame_ofStore _ m').safely hm' (hwrite (by simp [hop]))
  | storeEscaped =>
    refine (hcells (hins.bind (.inr hop))).safely hm fun place m' hm' => ?_
    exact (hread (by simp [hop]) hm').safely hm' fun v m'' hm'' =>
      (tame_writeCell place v m'').safely_end hm''
  | makeCell =>
    have hnew : ∀ content (m' : Machine), Runs code (f :: upper) lower m' →
        Safely code lower (Blames perform Bad m ins)
          ((do setRegister ins.dest (← newCell content)) m') := fun content m' hm' =>
      (tame_newCell content m').safely hm' (hwrite (by simp [hop]))
    dsimp only
    split
    · rename_i hnonneg
      exact (hread (by simp [hop, hnonneg]) hm).safely hm hnew
    · exact hnew _ m hm
  | loadCell =>
    refine (tame_cellIn hm.frames (hregister (by simp [hop]))).safely hm fun place m' hm' => ?_
    exact (tame_ofStore _ m').safely hm' (hwrite (by simp [hop]))
  | storeCell =>
    refine (tame_cellIn hm.frames (hregister (by simp [hop]))).safely hm fun place m' hm' => ?_
    exact (hread (by simp [hop]) hm').safely hm' fun v m'' hm'' =>
      (tame_writeCell place v m'').safely_end hm''
  | closure =>
    obtain ⟨place, hplace⟩ := Option.isSome_iff_exists.mp (hins.nested (.inl hop))
    have hsound := hm.top.sound.nested place (Block.mem_children_of_nested? hplace)
    simp only [newFunction, bind_assoc]
    refine Settles.safely (f :: upper) (settles_enterNested hm hplace) ?_
    rintro ⟨place', cells⟩ m' ⟨rfl, hcells', hm'⟩
    have hcode : m'.store.code = m.store.code := by rw [hm'.code, hm.code]
    refine hwrite (by simp [hop]) _ _
      ⟨hm'.toRests.newFunction ?_ hcells', hm'.linked⟩
    simpa [Store.block, Block.at?, hcode, hm.code] using hsound
  | call =>
    refine safely_call hhonest hperform hsteady hm (.inl hop) ?_
      (.inr (hdest (by simp [hop])))
    intro r hr
    exact hregister (by simpa [hop] using hr)
  | tailCall =>
    refine safely_call hhonest hperform hsteady hm (.inr hop) ?_ (.inl ⟨hop, rfl⟩)
    intro r hr
    exact hregister (by simpa [hop] using hr)
  | callIfEqual =>
    refine (hequal (by simp [hop]) (by simp [hop])).safely hm fun equal m' hm' => ?_
    cases equal with
    | true =>
      simp only [if_true]
      rw [bind_of_ok (goTo_eq ins.target hm'.frames)]
      exact safely_callArm (hm'.replace (hm'.top.counter ins.target.toNat) rfl)
        (hdest (by simp [hop])) (hins.nested (.inr (.inr hop)))
    | false => exact ⟨f, upper, hm'⟩
  | constantIfEqual =>
    obtain ⟨d, hd⟩ := Option.isSome_iff_exists.mp (hins.constant (.inr hop))
    refine (hequal (by simp [hop]) (by simp [hop])).safely hm fun equal m' hm' => ?_
    cases equal with
    | true =>
      simp only [if_true]
      rw [bind_of_ok (loadConstant_of_some hm'.frames hd)]
      have hloaded := hm'.withHeap (Heap.addsNoFunction_load _ d)
      obtain ⟨m'', hset, hm''⟩ := hloaded.setRegister
        (hdest (by simp [hop])) (m'.store.heap.load d).1
      rw [bind_of_ok hset]
      exact safely_goTo hm'' ins.target
    | false => exact ⟨f, upper, hm'⟩
  | callArm =>
    dsimp only
    rw [bind_of_ok (goTo_eq ins.target hm.frames)]
    exact safely_callArm (hm.replace (hm.top.counter ins.target.toNat) rfl)
      (hdest (by simp [hop])) (hins.nested (.inr (.inl hop)))
  | jump =>
    exact safely_goTo hm ins.target
  | matchFail =>
    exact (hread (by simp [hop]) hm).safely hm fun v m' hm' =>
      (tame_ofStore _ m').safely_end hm'
  | makeComposite =>
    refine Tame.safely (m := m) ?_ hm (hwrite (by simp [hop]))
    exact ⟨_, Heap.addsNoFunction_push fun _ _ h => (by cases h), rfl⟩
  | setElement =>
    refine (hread (by simp [hop]) hm).safely hm fun container m₁ hm₁ => ?_
    refine (hread (by simp [hop]) hm₁).safely hm₁ fun key m₂ hm₂ => ?_
    exact (hread (by simp [hop]) hm₂).safely hm₂ fun v m₃ hm₃ =>
      (tame_assign container key v m₃).safely_end hm₃
  | getElement =>
    refine (hread (by simp [hop]) hm).safely hm fun container m₁ hm₁ => ?_
    refine (hread (by simp [hop]) hm₁).safely hm₁ fun key m₂ hm₂ => ?_
    exact (tame_element container key m₂).safely hm₂ (hwrite (by simp [hop]))
  | negate =>
    refine (hread (by simp [hop]) hm).safely hm fun v m₁ hm₁ => ?_
    exact (tame_ofStore _ m₁).safely hm₁ fun d m₂ hm₂ =>
      safely_setResult hm₂ (hdest (by simp [hop])) _
  | operate op =>
    refine (hread (by simp [hop]) hm).safely hm fun v m₁ hm₁ => ?_
    refine (tame_ofStore _ m₁).safely hm₁ fun a m₂ hm₂ => ?_
    refine (hread (by simp [hop]) hm₂).safely hm₂ fun w m₃ hm₃ => ?_
    exact (tame_ofStore _ m₃).safely hm₃ fun b m₄ hm₄ =>
      safely_setResult hm₄ (hdest (by simp [hop])) _
  | unknown number => exact absurd hop (hins.known number)

end

end Machine

end Inkwell