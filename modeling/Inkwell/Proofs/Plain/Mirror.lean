import Mathlib
import Inkwell.Proofs.Code.Tidy
import Inkwell.Proofs.Heap.Paired
import Inkwell.Proofs.Machine.Turn
import Inkwell.Proofs.Plain.Basic
import Inkwell.Proofs.Value.Faults

/-!
# Machines and their mirror images

A machine and a machine without owners are at the same place of a run when their code and output
agree, the heap of the one is the shadow of the heap of the other, and the frames are the same
except for what they own (`Mirrors`). This holds after an instruction if it held before, unless the
machine runs out of frames. That the counts of owners are exact is part of it, so that nothing that
an instruction reads has been released.
-/

namespace Inkwell

open List Machine

variable {h : Heap} {place : Nat} {held : List Value} {m : Machine} {s t : Plain} {r : Int}
  {v : Value}

/-! ## Frames -/

/-- A frame without what it is an owner of. -/
def Frame.activation (f : Frame) : Activation where
  block := f.block
  cells := f.cells
  registers := f.registers
  counter := f.counter
  destination := f.destination

/-- The cells of a frame belong to its function, or to the frame itself. -/
structure Frame.Rooted (s : Store) (f : Frame) : Prop where
  function : ∀ place, f.function = some place → f.ownsCells = false ∧
    ∃ block, s.heap.HasFunction place block f.cells ∧ s.block block = f.block
  other : f.function = none → f.ownsCells = true ∨ f.cells = []
  tidy : f.block.Tidy

theorem Heap.HasFunction.unique {block block' : Nat} {cells cells' : List Nat}
    (hf : h.HasFunction place block cells) (hf' : h.HasFunction place block' cells') :
    block = block' ∧ cells = cells' := by
  obtain ⟨o, ho, -, hbody⟩ := hf
  obtain ⟨o', ho', -, hbody'⟩ := hf'
  rw [ho] at ho'
  cases ho'
  rw [hbody] at hbody'
  cases hbody'
  exact ⟨rfl, rfl⟩

namespace Frame.Rooted

variable {s : Store} {f : Frame}

/-- The functions of the store are what matters about it. -/
theorem keeps (hf : f.Rooted s) {t : Store} (hcode : t.code = s.code)
    (hkeeps : s.heap.KeepsFunctions t.heap) : f.Rooted t where
  function := fun place hplace => by
    obtain ⟨howns, block, hfunction, hblock⟩ := hf.function place hplace
    refine ⟨howns, block, hkeeps _ _ _ hfunction, ?_⟩
    rw [← hblock]
    simp [Store.block, hcode]
  other := hf.other
  tidy := hf.tidy

/-- The cells of a frame live because it or its function owns them. -/
theorem lives_cell (hf : f.Rooted s) {roots : List Value} (hpaired : h.Paired s.heap roots)
    (howned : ∀ v ∈ f.environment, v ∈ roots) (hplace : place ∈ f.cells) : h.Lives (.cell place) :=
    by
  cases hfunction : f.function with
  | some fplace =>
    obtain ⟨howns, block, hbehind, -⟩ := hf.function fplace hfunction
    have hmem : Value.function fplace ∈ f.environment := by
      simp [Frame.environment, hfunction]
    obtain ⟨o, block', cells, ho, hreleased, hbody, hbehind'⟩ :=
      hpaired.shadows.function (hpaired.exact.root_lives (howned _ hmem))
    obtain ⟨-, rfl⟩ := hbehind.unique hbehind'
    refine hpaired.exact.held_lives ho hreleased ?_
    rw [hbody]
    exact mem_map_of_mem hplace
  | none =>
    rcases hf.other hfunction with howns | hnone
    · refine hpaired.exact.root_lives (howned _ ?_)
      simp only [Frame.environment, hfunction, howns, if_true]
      exact mem_append_right _ (mem_map_of_mem hplace)
    · rw [hnone] at hplace
      cases hplace

end Frame.Rooted

/-! ## Machines -/

/-- A machine and a machine without owners are at the same place of a run; `held` is what the host
owns. -/
structure Mirrors (held : List Value) (m : Machine) (s : Plain) : Prop where
  paired : m.store.heap.Paired s.store.heap (m.frames.flatMap Frame.owned ++ held)
  code : s.store.code = m.store.code
  output : s.store.output = m.store.output
  frames : s.frames = m.frames.map Frame.activation
  rooted : ∀ f ∈ m.frames, f.Rooted s.store
  tidy : ∀ b ∈ m.store.code, b.Tidy
  natives : m.natives = Natives.standard
  depth : m.depth = m.frames.length

/-- What is left of a machine when an instruction has failed: the counts are exact. -/
structure Kept (held : List Value) (m m' : Machine) : Prop where
  exact : m'.store.heap.Exact (m'.frames.flatMap Frame.owned ++ held)
  labelled : m'.store.heap.Labelled
  code : m'.store.code = m.store.code
  output : m'.store.output = m.store.output
  length : m'.frames.length = m.frames.length
  peak : m'.peak = m.peak

theorem Mirrors.kept (hm : Mirrors held m s) :
    Kept held m m := ⟨hm.paired.exact, hm.paired.labelled, rfl, rfl, rfl, rfl⟩

theorem Mirrors.block_eq (hm : Mirrors held m s) (place : Nat) :
    s.store.block place = m.store.block place := by
  simp [Store.block, hm.code]

theorem Mirrors.tidy_block (hm : Mirrors held m s) (place : Nat) : (m.store.block place).Tidy :=
    Block.Tidy.getD hm.tidy place

/-- An instruction does the same on both machines, or one of them has too many frames. -/
inductive Matches (held : List Value) (m : Machine) :
    EStateM.Result Failure Machine Unit → Except Failure Plain → Prop
  | goesOn {m' : Machine} {s' : Plain} (mirrors : Mirrors held m' s') :
      Matches held m (.ok () m') (.ok s')
  | fails {cause : Fault} {m' : Machine} (kept : Kept held m m') (noRelease : ¬ cause.IsRelease) :
      Matches held m (.error (.fault cause) m') (.error (.fault cause))
  | strays {m' : Machine} (peak : m'.peak = m.peak) :
      Matches held m (.error .outOfRange m') (.error .outOfRange)
  | overflows {m' : Machine} {s' : Plain} (kept : Kept held m m')
      (full : m.maxFrames < s'.frames.length) :
      Matches held m (.error (.fault .stackOverflow) m') (.ok s')

/-- Where an instruction starts matters only for what it must not change. -/
theorem Matches.of_start {start : Machine} {result : EStateM.Result Failure Machine Unit}
    {result' : Except Failure Plain} (h : Matches held m result result')
    (hcode : m.store.code = start.store.code) (houtput : m.store.output = start.store.output)
    (hlength : m.frames.length = start.frames.length) (hlimit : m.maxFrames = start.maxFrames)
    (hpeak : m.peak = start.peak) : Matches held start result result' := by
  have hkept : ∀ m', Kept held m m' → Kept held start m' := fun m' kept =>
    ⟨kept.exact, kept.labelled, kept.code.trans hcode, kept.output.trans houtput,
      kept.length.trans hlength, kept.peak.trans hpeak⟩
  cases h with
  | goesOn mirrors => exact .goesOn mirrors
  | fails kept noRelease => exact .fails (hkept _ kept) noRelease
  | strays peak => exact .strays (peak.trans hpeak)
  | overflows kept full => exact .overflows (hkept _ kept) (hlimit ▸ full)

/-- An action that changes nothing, and what it gives. -/
inductive Reads {α : Type} (m : Machine) :
    EStateM.Result Failure Machine α → Except Failure α → Prop
  | ok (a : α) : Reads m (.ok a m) (.ok a)
  | fault (cause : Fault) (noRelease : ¬ cause.IsRelease) :
      Reads m (.error (.fault cause) m) (.error (.fault cause))
  | outside : Reads m (.error .outOfRange m) (.error .outOfRange)

namespace Reads

variable {α β : Type} {m : Machine} {x : Action α} {e : Except Failure α}

theorem bind {next : α → Action β} {next' : α → Except Failure β} (hx : Reads m (x m) e)
    (hnext : ∀ a, e = .ok a → Reads m (next a m) (next' a)) :
    Reads m ((x >>= next) m) (e >>= next') := by
  show Reads m (EStateM.bind x next m) _
  unfold EStateM.bind
  generalize x m = result at hx
  cases hx with
  | ok a => exact hnext a rfl
  | fault cause noRelease => exact .fault cause noRelease
  | outside => exact .outside

theorem andThen {next : α → Action Unit} {next' : α → Except Failure Plain} (hx : Reads m (x m) e)
    (hm : Mirrors held m s) (hnext : ∀ a, e = .ok a → Matches held m (next a m) (next' a)) :
    Matches held m ((x >>= next) m) (e >>= next') := by
  show Matches held m (EStateM.bind x next m) _
  unfold EStateM.bind
  generalize x m = result at hx
  cases hx with
  | ok a => exact hnext a rfl
  | fault cause noRelease => exact .fails hm.kept noRelease
  | outside => exact .strays rfl

end Reads

/-! ## Changing the heap and the innermost frame -/

namespace Mirrors

variable {held : List Value} {m : Machine} {s : Store} {f g : Frame} {below : List Frame}

/-- What the frames below the innermost one and the host own. -/
def others (below : List Frame) (held : List Value) : List Value :=
  below.flatMap Frame.owned ++ held

theorem top_paired (hm : Mirrors held m t) (hframes : m.frames = f :: below) :
    m.store.heap.Paired t.store.heap (f.owned ++ others below held) := by
  have hpaired := hm.paired
  rw [hframes, flatMap_cons, append_assoc] at hpaired
  exact hpaired

/-- New stores behind the same frames. -/
theorem withStore (hm : Mirrors held m t) {p : Store}
    (hpaired : s.heap.Paired p.heap (m.frames.flatMap Frame.owned ++ held))
    (hcode : s.code = m.store.code) (hcode' : p.code = s.code) (houtput : p.output = s.output)
    (hkeeps : t.store.heap.KeepsFunctions p.heap) :
    Mirrors held { m with store := s } ⟨p, t.frames⟩ where
  paired := hpaired
  code := hcode'
  output := houtput
  frames := hm.frames
  rooted := fun f hf => (hm.rooted f hf).keeps (hcode'.trans (hcode.trans hm.code.symm)) hkeeps
  tidy := by
    rw [show ({ m with store := s } : Machine).store.code = m.store.code from hcode]
    exact hm.tidy
  natives := hm.natives
  depth := hm.depth

/-- New heaps behind the same frames. -/
theorem withHeap (hm : Mirrors held m t) {p : Heap}
    (hpaired : h.Paired p (m.frames.flatMap Frame.owned ++ held))
    (hkeeps : t.store.heap.KeepsFunctions p) :
    Mirrors held (m.withHeap h) ⟨{ t.store with heap := p }, t.frames⟩ :=
  hm.withStore hpaired rfl hm.code hm.output hkeeps

/-- Another innermost frame. -/
theorem withTop (hm : Mirrors held m ⟨s, (f :: below).map Frame.activation⟩)
    (hframes : m.frames = f :: below) (hpaired : h.Paired s.heap (g.owned ++ others below held))
    (hg : g.Rooted s) :
    Mirrors held ((m.withHeap h).withFrames (g :: below))
      ⟨s, (g :: below).map Frame.activation⟩ where
  paired := by
    show h.Paired s.heap ((g :: below).flatMap Frame.owned ++ held)
    rw [flatMap_cons, append_assoc]
    exact hpaired
  code := hm.code
  output := hm.output
  frames := rfl
  rooted := fun f' hf' => by
    rcases mem_cons.mp hf' with rfl | hf'
    · exact hg
    · exact hm.rooted f' (by rw [hframes]; exact .tail _ hf')
  tidy := hm.tidy
  natives := hm.natives
  depth := by
    have hdepth := hm.depth
    rw [hframes] at hdepth
    exact hdepth

/-- One more frame. -/
theorem pushed (hm : Mirrors held m t)
    (hpaired : h.Paired t.store.heap (g.owned ++ (m.frames.flatMap Frame.owned ++ held)))
    (hg : g.Rooted t.store) :
    Mirrors held ((m.withHeap h).pushed g) ⟨t.store, g.activation :: t.frames⟩ where
  paired := by
    show h.Paired t.store.heap ((g :: m.frames).flatMap Frame.owned ++ held)
    rw [flatMap_cons, append_assoc]
    exact hpaired
  code := hm.code
  output := hm.output
  frames := by
    rw [hm.frames]
    rfl
  rooted := fun f' hf' => by
    rcases mem_cons.mp hf' with rfl | hf'
    · exact hg
    · exact hm.rooted f' hf'
  tidy := hm.tidy
  natives := hm.natives
  depth := by
    show m.depth + 1 = _
    rw [hm.depth]
    rfl

end Mirrors

/-! ## Reading -/

section Reading

variable {held : List Value} {m : Machine} {s : Store} {f : Frame} {below : List Frame}

section

variable (hframes : m.frames = f :: below)

include hframes

theorem reads_ofFrame {α : Type} {g : Frame → Option α} :
    Reads m (Machine.ofFrame g m) (orOutside (g f)) := by
  cases hg : g f with
  | some a =>
    rw [ofFrame_of_some hframes hg]
    exact .ok a
  | none =>
    rw [ofFrame_of_none hframes hg]
    exact .outside

theorem reads_register (r : Int) : Reads m (Machine.register r m) (f.activation.register r) :=
  reads_ofFrame hframes

theorem reads_registers (rs : List Int) :
    Reads m (Machine.registers rs m) (orOutside (rs.mapM f.activation.register?)) :=
  reads_ofFrame hframes

theorem reads_cellIn (r : Int) : Reads m (Machine.cellIn r m) (f.activation.cellIn r) := by
  refine Reads.bind (reads_register hframes r) fun v _ => ?_
  cases v with
  | cell place => exact .ok place
  | _ => exact .fault _ id

theorem reads_cellOf (i : Int) : Reads m (Machine.cellOf i m) (f.activation.cellOf i) :=
  reads_ofFrame hframes

theorem reads_takeCells (binds : List Bind) :
    Reads m (Machine.takeCells binds m) (f.activation.takeCells binds) := by
  induction binds with
  | nil => exact .ok []
  | cons bind rest ih =>
    have hrest : ∀ place, Reads m
        ((do let places ← Machine.takeCells rest; pure (place :: places) : Action (List Nat)) m)
        (do let places ← f.activation.takeCells rest; pure (place :: places)) :=
      fun place => Reads.bind ih fun places _ => .ok _
    unfold Machine.takeCells Activation.takeCells Activation.takeCell
    dsimp only
    cases bind.isLocal with
    | true => exact Reads.bind (reads_cellIn hframes _) fun place _ => hrest place
    | false =>
      simp only [Bool.false_eq_true, if_false]
      rw [bind_of_ok (ofFrame_total (fun f => f.cells.length) hframes)]
      by_cases hindex : (f.cells.length : Int) ≤ bind.index
      · rw [if_pos hindex, if_pos (show (f.activation.cells.length : Int) ≤ bind.index from hindex)]
        exact .fault _ id
      · rw [if_neg hindex,
          if_neg (show ¬ (f.activation.cells.length : Int) ≤ bind.index from hindex)]
        exact Reads.bind (reads_cellOf hframes _) fun place _ => hrest place

end

theorem reads_areEqual (hm : Mirrors held m ⟨s, (f :: below).map Frame.activation⟩)
    (hframes : m.frames = f :: below) (a b : Int) :
    Reads m (Machine.areEqual a b m) (Plain.areEqual f.activation s a b) := by
  refine Reads.bind (reads_register hframes a) fun x _ => ?_
  refine Reads.bind (reads_register hframes b) fun y _ => ?_
  rw [hm.paired.shadows.equal x y]
  exact .ok _

theorem register_mem (hr : f.activation.register r = .ok v) : v ∈ f.owned := by
  unfold Activation.register orOutside at hr
  split at hr
  · rename_i found hfound
    cases hr
    unfold Activation.register? at hfound
    split at hfound
    · cases hfound
    · exact mem_append_left _ (Array.mem_toList_iff.mpr (Array.mem_of_getElem? hfound))
  · cases hr

/-- What is in a register lives. -/
theorem Mirrors.lives_register (hm : Mirrors held m t) (hframes : m.frames = f :: below)
    (hr : f.activation.register r = .ok v) : m.store.heap.Lives v :=
  (hm.top_paired hframes).exact.root_lives (mem_append_left _ (register_mem hr))

end Reading

/-! ## Registers and cells -/

section Cells

variable {old : Value}
variable {held : List Value} {m start : Machine} {s : Store} {f : Frame} {below : List Frame}

/-- A value takes the place of another in the registers. -/
theorem Frame.put_owned_perm (v : Value) (hr : f.register? r = some old) :
    (v :: f.owned).Perm (old :: (f.put r v).owned) := by
  unfold Frame.register? at hr
  split at hr
  · cases hr
  · have hold : f.registers.toList[r.toNat]? = some old := by simpa using hr
    simp only [Frame.owned, Frame.put, Array.toList_setIfInBounds]
    exact (cons_set_perm v hold).append_right f.environment

theorem Frame.Rooted.put (hf : f.Rooted s) (r : Int) (v : Value) : (f.put r v).Rooted s :=
  ⟨hf.function, hf.other, hf.tidy⟩

theorem Mirrors.top_rooted (hm : Mirrors held m t) (hframes : m.frames = f :: below) :
    f.Rooted t.store := hm.rooted f (by rw [hframes]; exact .head _)

theorem Frame.activation_register_of_none (hr : f.register? r = none) :
    f.activation.register r = .error .outOfRange := by
  show orOutside (f.register? r) = _
  rw [hr]
  rfl

theorem Frame.give_of_some {frames : List Activation} (hr : f.register? r = some old) :
    Plain.give f.activation frames r (v, s) = .ok ⟨s, (f.put r v).activation :: frames⟩ :=
  Plain.give_of_some (f := f.activation) hr v s

theorem Frame.give_of_none {frames : List Activation} (hr : f.register? r = none) :
    Plain.give f.activation frames r (v, s) = .error .outOfRange := by
  simp only [Plain.give, Frame.activation_register_of_none hr]
  rfl

section Put

variable (hm : Mirrors held m ⟨s, (f :: below).map Frame.activation⟩)
  (hframes : m.frames = f :: below) (hv : m.store.heap.Lives v)

include hm hframes hv

/-- A value that lives goes into a register. -/
theorem Mirrors.put (hr : f.register? r = some old) :
    Mirrors held ((m.withHeap ((m.store.heap.retain v).release old)).withFrames
      (f.put r v :: below)) ⟨s, (f.put r v :: below).map Frame.activation⟩ := by
  have hpaired := hm.top_paired hframes
  have hput : Heap.Paired ((m.store.heap.retain v).release old) s.heap
      ((f.put r v).owned ++ Mirrors.others below held) :=
    ((hpaired.retain hv).perm ((Frame.put_owned_perm v hr).append_right _)).release
  exact hm.withTop hframes hput ((hm.top_rooted hframes).put r v)

theorem matches_give (hpeak : m.peak = start.peak) :
    Matches held start (Machine.setRegister r v m)
      (Plain.give f.activation (below.map Frame.activation) r (v, s)) := by
  cases hr : f.register? r with
  | none =>
    rw [setRegister_of_none hframes hr, Frame.give_of_none hr]
    exact .strays hpeak
  | some old =>
    rw [setRegister_of_some hframes hr, Frame.give_of_some hr]
    exact .goesOn (hm.put hframes hv hr)

end Put

/-- The content of a cell that lives. -/
theorem Mirrors.cell {t : Plain} (hm : Mirrors held m t) {place : Nat}
    (hv : m.store.heap.Lives (.cell place)) : ∃ content o, m.store.heap.objects[place]? = some o ∧
      o.released = false ∧ o.body = .cell content ∧ t.store.cell place = .ok content ∧
      m.store.heap.Lives content ∧
      ∃ o', t.store.heap.objects[place]? = some o' ∧ o'.body = .cell content := by
  obtain ⟨o, content, ho, hreleased, hbody, o', ho', hreleased', hbody'⟩ := hm.paired.shadows.cell hv
  refine ⟨content, o, ho, hreleased, hbody, ?_, ?_, o', ho', hbody'⟩
  · obtain ⟨body, owners, released⟩ := o'
    simp only at hreleased' hbody'
    subst hreleased' hbody'
    simp only [Store.cell, ho']
  · exact hm.paired.exact.held_lives ho hreleased (by rw [hbody]; exact .head _)

variable (hm : Mirrors held m t)

include hm

theorem Mirrors.reads_readCell (hv : m.store.heap.Lives (.cell place)) :
    Reads m (Machine.readCell place m) (t.store.cell place) := by
  obtain ⟨content, o, ho, hreleased, hbody, hcell, -⟩ := hm.cell hv
  rw [readCell_of_live ho hreleased hbody, hcell]
  exact .ok content

theorem Mirrors.lives_content {content : Value}
    (hv : m.store.heap.Lives (.cell place)) (hcontent : t.store.cell place = .ok content) :
    m.store.heap.Lives content := by
  obtain ⟨content', -, -, -, -, hcell, hlives, -⟩ := hm.cell hv
  rw [hcell] at hcontent
  cases hcontent
  exact hlives

theorem Mirrors.lives_cellOf (hframes : m.frames = f :: below) {i : Int}
    (hplace : f.activation.cellOf i = .ok place) : m.store.heap.Lives (.cell place) := by
  refine (hm.top_rooted hframes).lives_cell (hm.top_paired hframes)
    (fun v hv => mem_append_left _ (mem_append_right _ hv)) ?_
  unfold Activation.cellOf orOutside at hplace
  split at hplace
  · rename_i found hfound
    cases hplace
    split at hfound
    · cases hfound
    · exact mem_of_getElem? hfound
  · cases hplace

theorem Mirrors.lives_cellIn (hframes : m.frames = f :: below)
    (hplace : f.activation.cellIn r = .ok place) : m.store.heap.Lives (.cell place) := by
  unfold Activation.cellIn at hplace
  cases hr : f.activation.register r with
  | error failure =>
    rw [hr] at hplace
    cases hplace
  | ok v =>
    rw [hr] at hplace
    cases v with
    | cell found =>
      cases hplace
      exact hm.lives_register hframes hr
    | _ => cases hplace

/-- A value goes into a cell that lives. -/
theorem matches_writeCell (hplace : m.store.heap.Lives (.cell place)) (hv : m.store.heap.Lives v) :
    Matches held m (Machine.writeCell place v m)
      (do let _ ← t.store.cell place; return ⟨t.store.setBody place (.cell v), t.frames⟩) := by
  obtain ⟨content, o, ho, hreleased, hbody, hcell, -, o', ho', hbody'⟩ := hm.cell hplace
  have hretained := hm.paired.retain hv
  have hlive : (m.store.heap.retain v).Lives (.cell place) := Heap.lives_retain hplace
  obtain ⟨o₁, ho₁, hreleased₁, -⟩ := hlive place rfl
  obtain ⟨o₂, ho₂, hbody₂⟩ := hretained.shadows.bodies place o₁ ho₁ hreleased₁
  have hbody₁ : o₁.body = .cell content := by
    rw [ho'] at ho₂
    cases ho₂
    exact hbody₂.symm.trans hbody'
  have hset := (hretained.setCell ho₁ hreleased₁ hbody₁).release
  unfold Machine.writeCell
  rw [bind_of_ok (readCell_of_live ho hreleased hbody),
    bind_of_ok (retain_eq v m), bind_of_ok (modifyHeap_eq _ _),
    release_eq, hcell]
  refine .goesOn (hm.withHeap hset (Heap.KeepsFunctions.setBody ho' ?_ _))
  intro block cells hclosure
  rw [hbody'] at hclosure
  cases hclosure

end Cells

end Inkwell
