import Mathlib
import Inkwell.Proofs.Machine.Bounds
import Inkwell.Proofs.Machine.Standard

/-!
# Accepted programs stay within bounds

A program that passes `Program.validate`, in particular one read from an image, never names a
register, constant, cell or instruction that is not there, with one exception: nothing checks the
register for the result of a call in tail position. When such a call meets a function of the host
that answers, the answer goes to that register, and a run is out of range exactly if it comes to such
a moment (`Moment.Strays`).

The moments of a run are those between two instructions, also of the runs that functions of the host
ask for in turn, and those at which a function of the host has just asked for something
(`Follows`).
-/

namespace Inkwell

open Machine

open Relation (ReflTransGen)

variable {p : Program} {base since : Nat}

/-- A program that may be run: a tree of blocks that passes the check, or what an image holds. -/
inductive Program.Accepted (p : Program) : Prop
  | checked (ordered : p.Ordered) (valid : p.validate = .ok ())
  | image {natives : List Text} {data : Text} (decoded : Image.decode natives data = .ok p)

theorem Program.Accepted.sound (h : p.Accepted) :
    p.Ordered ∧ p.root.Sound p.blocks ∧ p.root.binds = #[] := by
  cases h with
  | checked ordered valid => exact ⟨ordered, Program.validate_ok ordered valid⟩
  | image decoded =>
    obtain ⟨ordered, valid⟩ := Image.decode_ok decoded
    exact ⟨ordered, Program.validate_ok ordered valid⟩

namespace Machine

/-- A machine that runs nothing, as the host has it between two runs. -/
structure Ready (m : Machine) : Prop where
  idle : m.frames = []
  depth : m.depth = 0
  limit : 0 < m.maxFrames
  functions : m.store.FunctionsFit
  honest : ∀ n ∈ m.natives, n.Honest

/-- The innermost frame goes on behind its next instruction. -/
def advanced (m : Machine) : Machine :=
  match m.frames with
  | f :: below => m.withFrames ({ f with counter := f.counter + 1 } :: below)
  | [] => m

/-- The next thing that happens is an instruction; the run has not been called off. -/
structure IsAt (m : Machine) (since : Nat) (ins : Instruction) : Prop where
  next : Machine.next m = .ok (.perform ins) m
  goesOn : tick since = 0 → m.cancelled = false

end Machine

/-- A moment of a run. -/
inductive Moment where
  /-- Between two instructions of a run above the first `base` frames. -/
  | between (base since : Nat) (m : Machine)
  /-- Something has been asked for, by the host or by a function of it. -/
  | asked (reply : Reply) (m : Machine)

/-- One moment comes right after another. -/
inductive Follows : Moment → Moment → Prop
  | start {p : Program} {m m' : Machine} (started : Machine.startProgram p m = .ok () m') :
      Follows (.asked (.run p) m) (.between 0 0 m')
  | turn {fuel base since since' : Nat} {m m' : Machine}
      (turned : Machine.turn (Machine.perform fuel) base since m = .ok (.goesOn since') m') :
      Follows (.between base since m) (.between base since' m')
  | ask {base since : Nat} {ins : Instruction} {id : Int} {arguments : List Value} {reply : Reply}
      {m m' : Machine} (isAt : m.IsAt since ins) (calls : m.advanced.CallsNative ins id arguments)
      (asked : Machine.ask id arguments m.advanced = .ok reply m') :
      Follows (.between base since m) (.asked reply m')
  | askAgain {id : Int} {arguments : List Value} {reply : Reply} {m m' : Machine}
      (asked : Machine.ask id arguments m = .ok reply m') :
      Follows (.asked (.call (.native id) arguments) m) (.asked reply m')
  | enter {place : Nat} {arguments : List Value} {m m' : Machine}
      (entered : Machine.callFunction (-1) place arguments m = .ok () m') :
      Follows (.asked (.call (.function place) arguments) m) (.between m.depth 0 m')

/-- Every register, constant, cell and target that an instruction uses is there. -/
structure Frame.Covers (s : Store) (f : Frame) (ins : Instruction) : Prop where
  reads : ∀ r ∈ (⟨s.code⟩ : Program).reads f.block ins, (f.register? r).isSome
  writes : ∀ r, ins.writes? = some r → (f.register? r).isSome
  constant : ins.op = .loadConstant ∨ ins.op = .constantIfEqual → (f.block.constant? ins.k).isSome
  nested : ins.op = .closure ∨ ins.op = .callArm ∨ ins.op = .callIfEqual →
    ∃ place, f.block.nested? ins.k = some place ∧
      ∀ bind ∈ (s.block place).binds.toList, bind.isLocal = false →
        0 ≤ bind.index ∧ bind.index < f.cells.length
  cell : ins.op = .loadEscaped ∨ ins.op = .storeEscaped → 0 ≤ ins.a ∧ ins.a < f.cells.length
  target : ins.op.isBranch → 0 ≤ ins.target ∧ ins.target ≤ f.block.code.size

namespace Moment

/-- Everything that the next round of a run uses is there, the register for the result of a call in
tail position aside. -/
def Covered : Moment → Prop
  | between base _ m => ∃ f below, m.frames = f :: below ∧
      (∀ ins, f.block.code[f.counter]? = some ins → f.Covers m.store ins) ∧
      (f.block.code.size ≤ f.counter → (f.register? f.block.ret).isSome ∧
        (m.depth ≠ base + 1 → ∃ g rest, below = g :: rest ∧ (g.register? f.destination).isSome))
  | asked _ _ => True

/-- A function of the host is called in tail position and answers, and the register for the answer
is not there. -/
def Strays : Moment → Prop
  | between _ since m => ∃ ins id arguments fuel result m', m.IsAt since ins ∧
      m.advanced.CallsNative ins id arguments ∧ ins.op = .tailCall ∧
      (∀ f below, m.frames = f :: below → (f.registers.size : Int) ≤ ins.dest) ∧
      Machine.callNative (Machine.perform fuel) id arguments m.advanced = .ok result m'
  | asked _ _ => False

end Moment

/-- The standard functions neither load code nor make functions. -/
theorem Natives.honest_of_mem {n : Native} (hn : n ∈ Natives.standard) : n.Honest := by
  intro arguments s
  obtain ⟨deed, hdoes, -⟩ := Native.does_of_mem hn
  unfold Native.leaves
  rw [hdoes.run arguments s]
  cases deed (s.sight (Native.argument arguments)) with
  | answer v => exact ⟨rfl, .refl _⟩
  | spell t => exact ⟨rfl, Heap.addsNoFunction_strings rfl⟩
  | write t v =>
    obtain ⟨code, heap, text, refusal⟩ := s
    cases refusal with
    | none => exact ⟨rfl, .refl _⟩
    | some reason => exact ⟨rfl, .refl _⟩
  | list elements => exact ⟨rfl, Native.addsNoFunction_newList _ _⟩
  | refuse cause => exact ⟨rfl, .refl _⟩

/-! ## One round -/

namespace Machine

variable {code : Array Block} {f : Frame} {upper lower : List Frame} {m : Machine} {s : Settings}

theorem advanced_of_cons {below : List Frame} (hm : m.frames = f :: below) :
    m.advanced = m.withFrames ({ f with counter := f.counter + 1 } :: below) := by
  unfold advanced
  rw [hm]

theorem Stands.unwound (h : Stands code lower m) (hm : m.depth = m.frames.length) :
    Rests code lower (m.unwound (m.depth - lower.length)) := by
  obtain ⟨upper, hframes⟩ := h.frames
  have hadds := Heap.addsNoFunction_releaseAll m.store.heap
    ((m.frames.take (m.depth - lower.length)).flatMap Frame.owned)
  refine ⟨h.code, ?_, fun f hf => fits_withHeap (h.fit f hf) hadds, ?_⟩
  · have hcount : m.depth - lower.length = upper.length := by
      rw [hm, hframes, List.length_append]
      omega
    simp only [Machine.unwound, hcount, hframes, List.drop_left]
  · intro place block cells hfunction
    exact h.functions place block cells (hadds.old place block cells hfunction)

/-- What a failed run leaves: the frames below it, unless it is unfinished, and an error that says
where it failed. -/
structure Failed (code : Array Block) (lower : List Frame) (Bad : Prop) (failure : Failure)
    (m : Machine) : Prop where
  stands : Stands code lower m
  frames : failure ≠ .unfinished → m.frames = lower
  placed : ∀ cause, failure ≠ .fault cause
  bad : failure = .outOfRange → Bad

theorem failed_fail {α : Type} {Bad : Prop} {Q : α → Machine → Prop} {position : Position}
    {failure : Failure} (hm : Stands code lower m) (hdepth : m.depth = m.frames.length)
    (hbad : failure = .outOfRange → Bad) :
    After Q (Failed code lower Bad) (fail lower.length position failure m) := by
  rw [fail_eq hdepth]
  have hrests := hm.unwound hdepth
  refine ⟨hrests.stands [], fun _ => hrests.frames, ?_, ?_⟩
  · intro cause hcause
    cases failure <;> cases hcause
  · intro hfailure
    cases failure with
    | outOfRange => exact hbad rfl
    | _ => cases hfailure

/-- Why a round is out of range. -/
def TurnBlames (perform : Reply → Action Value) (Bad : Reply → Machine → Prop) (m : Machine)
    (since : Nat) : Prop :=
  ∃ ins, m.IsAt since ins ∧ Blames perform Bad m.advanced ins

theorem turn_within {perform : Reply → Action Value} {Bad : Reply → Machine → Prop}
    (hhonest : ∀ n ∈ s.natives, n.Honest) (hperform : PerformsWithin code s perform Bad)
    (hkeeps : ∀ reply, Keeps (Steady s) (perform reply)) (hsteady : Steady s m)
    (hm : Runs code (f :: upper) lower m) (since : Nat) :
    After
      (fun turned m' =>
        match turned with
        | .ended _ => Rests code lower m'
        | .goesOn _ => ∃ f upper, Runs code (f :: upper) lower m')
      (Failed code lower (TurnBlames perform Bad m since))
      (turn perform lower.length since m) := by
  cases hins : f.block.code[f.counter]? with
  | some ins =>
    have hnext := next_of_lt hm.frames hins
    have hadvanced := advanced_of_cons hm.frames
    rw [turn_of_instruction hm.frames hins, ← hadvanced]
    split
    · exact failed_fail hm.stands hsteady.depth nofun
    · rename_i hcancel
      have hat : m.IsAt since ins := by
        refine ⟨hnext, fun htick => ?_⟩
        simpa [htick] using hcancel
      have hm' : Runs code ({ f with counter := f.counter + 1 } :: upper) lower m.advanced := by
        rw [hadvanced]
        exact hm.replace (hm.top.counter (f.counter + 1)) rfl
      have hsteady' : Steady s m.advanced := by
        rw [hadvanced]
        exact ⟨hsteady.settings, by rw [withFrames_depth, hsteady.depth, hm.frames]; rfl⟩
      have hbounds := hm.top.sound.inBounds.instructions _ _ hins
      rw [hm.code] at hbounds
      have hstep := step_safely hhonest hperform hsteady' hm' hbounds
      have hkept := (sturdy_steady _).keeps_step ((sturdy_steady _).keeps_callNative hkeeps)
        ins _ hsteady'
      cases hresult : step perform ins m.advanced with
      | ok _ m' =>
        rw [hresult] at hstep
        exact hstep
      | error failure m' =>
        rw [hresult] at hstep hkept
        exact failed_fail hstep.1 hkept.depth fun hfailure => ⟨ins, hat, hstep.2 hfailure⟩
  | none =>
    -- The frame ends; its result goes to the frame below, or it is the result of the run.
    have hend : f.block.code.size ≤ f.counter := by simpa using hins
    obtain ⟨result, hret⟩ := hm.top.register? hm.top.sound.inBounds.ret
    have hadds := (Heap.addsNoFunction_retain m.store.heap result).trans
      (Heap.addsNoFunction_releaseAll _ f.owned)
    have hrests : Rests code (upper ++ lower)
        (m.withHeap ((m.store.heap.retain result).releaseAll f.owned)).popped := by
      have hheap := hm.toRests.withHeap hadds
      exact ⟨hheap.code, by simp [popped, hm.frames], fun g hg => hheap.fit g (.tail _ hg),
        hheap.functions⟩
    have hdepth : (m.withHeap ((m.store.heap.retain result).releaseAll f.owned)).popped.depth =
        upper.length + lower.length := by
      simp [popped, hsteady.depth, hm.frames]
    rw [turn_of_end hm.frames hend hret, bind_of_ok (get_eq _), hdepth]
    cases upper with
    | nil =>
      rw [if_pos (by simp)]
      exact hrests
    | cons g rest =>
      rw [if_neg (by simp)]
      have hruns : Runs code (g :: rest) lower _ := ⟨hrests, hm.linked.tail⟩
      obtain ⟨m', hset, hm'⟩ := hruns.setRegister hm.linked.1 result
      rw [bind_of_ok hset, bind_of_ok (release_eq result m')]
      exact ⟨_, _, hm'.withHeap (Heap.addsNoFunction_release _ result)⟩

end Machine

/-- A moment from which the run comes to one at which it strays. -/
def Moment.GoesAstray (moment : Moment) : Prop :=
  ∃ later, ReflTransGen Follows moment later ∧ later.Strays

theorem Moment.GoesAstray.of_follows {moment next : Moment} (h : Follows moment next)
    (hnext : next.GoesAstray) : moment.GoesAstray := by
  obtain ⟨later, hlater, hstrays⟩ := hnext
  exact ⟨later, .head h hlater, hstrays⟩

/-! ## Whole runs -/

namespace Machine

variable {code : Array Block} {f : Frame} {upper lower : List Frame} {m : Machine} {s : Settings}

theorem goesAstray_of_turnBlames {fuel : Nat}
    (h : TurnBlames (perform fuel) (fun reply m => (Moment.asked reply m).GoesAstray) m since) :
    (Moment.between base since m).GoesAstray := by
  obtain ⟨ins, hat, hblames⟩ := h
  cases hblames with
  | asks calls asked bad => exact .of_follows (.ask hat calls asked) bad
  | strays calls isTail outside answers =>
    refine ⟨_, .refl, ins, _, _, fuel, _, _, hat, calls, isTail, ?_, answers⟩
    intro g below hg
    exact outside { g with counter := g.counter + 1 } below (by rw [advanced_of_cons hg]; rfl)

theorem unplaced_within {α : Type} {x : Action α} {Q : α → Machine → Prop} {R : Machine → Prop}
    {Bad : Prop}
    (hx : After Q (fun failure m' => R m' ∧ (failure = .outOfRange → Bad)) (x m)) :
    After Q (fun failure m' => R m' ∧ (failure = .outOfRange → Bad)) (unplaced x m) := by
  unfold unplaced
  cases hresult : x m with
  | ok a m' =>
    rw [hresult] at hx
    exact hx
  | error failure m' =>
    rw [hresult] at hx
    refine ⟨hx.1, fun hfailure => hx.2 ?_⟩
    cases failure <;> first | rfl | cases hfailure

/-- A run that goes out of range comes to a moment at which it strays. -/
theorem execute_within (fuel : Nat) (hhonest : ∀ n ∈ s.natives, n.Honest)
    (hperform : ∀ less < fuel, PerformsWithin code s (perform less)
      fun reply m => (Moment.asked reply m).GoesAstray)
    (hsteady : Steady s m) (hm : Runs code (f :: upper) lower m) (since : Nat) :
    After (fun _ m' => Rests code lower m')
      (Failed code lower (Moment.between lower.length since m).GoesAstray)
      (execute fuel lower.length since m) := by
  induction fuel generalizing f upper m since with
  | zero =>
    rw [execute]
    exact ⟨hm.stands, fun h => absurd rfl h, by simp, by simp⟩
  | succ fuel ih =>
    have hturn := turn_within hhonest (hperform fuel (Nat.lt_succ_self fuel))
      (keeps_perform fuel) hsteady hm since
    have hkept := keeps_turn fuel lower.length since m hsteady
    rw [execute_succ]
    cases hresult : turn (perform fuel) lower.length since m with
    | error failure m' =>
      rw [hresult] at hturn
      rw [bind_of_error hresult]
      exact ⟨hturn.stands, hturn.frames, hturn.placed, fun hfailure =>
        goesAstray_of_turnBlames (hturn.bad hfailure)⟩
    | ok turned m' =>
      rw [hresult] at hturn hkept
      rw [bind_of_ok hresult]
      cases turned with
      | ended result => exact hturn
      | goesOn since' =>
        obtain ⟨g, upper', hm'⟩ := hturn
        refine (ih (fun less hless => hperform less (by omega)) hkept hm' since').mono
          (fun _ _ hm'' => hm'') fun failure m'' hfailed => ?_
        exact ⟨hfailed.stands, hfailed.frames, hfailed.placed, fun hfailure =>
          .of_follows (.turn hresult) (hfailed.bad hfailure)⟩

theorem perform_within (hhonest : ∀ n ∈ s.natives, n.Honest) (fuel : Nat) :
    PerformsWithin code s (perform fuel) fun reply m => (Moment.asked reply m).GoesAstray := by
  induction fuel using Nat.strongRecOn with
  | ind fuel ih =>
    intro reply m stack hstack hsteady hm
    have hstands : Stands code stack m := hm.stands []
    cases fuel with
    | zero =>
      cases reply with
      | answer v =>
        rw [perform]
        exact hm
      | _ =>
        simp only [perform]
        exact ⟨hstands, by simp⟩
    | succ fuel =>
      cases reply with
      | answer v =>
        rw [perform]
        exact hm
      | run p =>
        rw [perform]
        have hbusy : m.depth ≠ 0 := by
          rw [hsteady.depth, hm.frames]
          simpa using hstack
        have hrefuses : startProgram p m = .error (.fault .alreadyRunning) m := by
          unfold startProgram
          rw [bind_of_ok (get_eq m), if_pos hbusy]
          rfl
        rw [bind_of_error hrefuses]
        exact ⟨hstands, by simp⟩
      | call callee arguments =>
        cases callee with
        | native id =>
          rw [perform]
          rcases nativeAt_cases id m with ⟨n, -, hat, hask⟩ | hat
          · have hcall := callNative_within hhonest (ih fuel (Nat.lt_succ_self fuel)) hstack
              hsteady hm id arguments
            have hsame : callNative (perform fuel) id arguments m =
                (do perform fuel (← native n arguments)) m := by
              unfold callNative
              rw [bind_of_ok hat]
            rw [hsame] at hcall
            rw [bind_of_ok hat]
            refine After.bind ((unplaced_within hcall).mono ?_ ?_)
            · intro result m' hm'
              rw [bind_of_ok (retain_eq result m')]
              exact hm'.withHeap (Heap.addsNoFunction_retain _ result)
            · rintro failure m' ⟨hm', hbad⟩
              refine ⟨hm', fun hfailure => ?_⟩
              obtain ⟨reply, m'', hasked, hastray⟩ := hbad hfailure
              exact .of_follows (.askAgain hasked) hastray
          · rw [bind_of_error hat]
            exact ⟨hstands, by simp⟩
        | function place =>
          rw [perform]
          rcases functionAt_cases place m with ⟨o, block, cells, -, -, -, hfound⟩ | hfound
          · have hcall := settles_callFunction hm (-1) place arguments
            have hkept := (sturdy_steady _).keeps_callFunction (-1) place arguments m hsteady
            have hbase : m.depth = stack.length := by rw [hsteady.depth, hm.frames]
            rw [bind_of_ok hfound, bind_of_ok (get_eq m)]
            dsimp only
            cases hresult : callFunction (-1) place arguments m with
            | error failure m' =>
              rw [hresult] at hcall
              obtain ⟨⟨cause, rfl⟩, hm'⟩ := hcall
              rw [bind_of_error (unplaced_of_error hresult)]
              exact ⟨hm'.stands [], fun heq => by cases heq⟩
            | ok _ m' =>
              rw [hresult] at hcall hkept
              obtain ⟨g, -, hm'⟩ := hcall
              have hruns : Runs code [g] stack m' := ⟨hm', trivial⟩
              rw [bind_of_ok (unplaced_of_ok hresult), hbase]
              refine (execute_within fuel hhonest (fun less hless => ih less (by omega)) hkept
                hruns 0).mono (fun _ _ hm'' => hm'') fun failure m'' hfailed => ?_
              refine ⟨hfailed.stands, fun hfailure => ?_⟩
              have hastray := hfailed.bad hfailure
              rw [← hbase] at hastray
              exact .of_follows (.enter hresult) hastray
          · rw [bind_of_error hfound]
            exact ⟨hstands, by simp⟩
        | _ =>
          simp only [perform]
          exact ⟨hstands, by simp⟩

/-! ## The start of a program -/

/-- The code of a machine that has loaded a program as well. -/
def codeWith (m : Machine) (p : Program) : Array Block :=
  m.store.code ++ p.blocks.map (Block.moved m.store.code.size)

/-- The machine that has loaded a program as well. -/
def loaded (m : Machine) (p : Program) : Machine := { m with store.code := m.codeWith p }

theorem loadProgram_eq (p : Program) (m : Machine) :
    loadProgram p m = .ok m.store.code.size (m.loaded p) := rfl

theorem placed_codeWith (m : Machine) (p : Program) :
    Block.Placed p.blocks m.store.code.size (m.codeWith p) := by
  intro place b hb
  unfold codeWith
  rw [Array.getElem?_append_right (by omega), Nat.add_sub_cancel_left, Array.getElem?_map, hb]
  rfl

/-- The functions in the heap still fit when more code is loaded. -/
theorem functionsFit_loaded (p : Program) (hm : m.store.FunctionsFit) :
    (m.loaded p).store.FunctionsFit := by
  intro place block cells hfunction
  obtain ⟨hsound, hcells⟩ := hm place block cells hfunction
  have hlt : block < m.store.code.size := by
    by_contra hlt
    have hpos := hsound.slots_pos
    rw [Store.block, Array.getElem?_eq_none (Nat.le_of_not_lt hlt)] at hpos
    exact absurd hpos (by decide)
  have hsame : (m.loaded p).store.block block = m.store.block block := by
    simp [Store.block, loaded, codeWith, Array.getElem?_append_left hlt]
  rw [hsame]
  exact ⟨hsound.append, hcells⟩

theorem block_loaded_root (hordered : p.Ordered) :
    (m.loaded p).store.block m.store.code.size = p.root.moved m.store.code.size := by
  have hroot : p.blocks[0]? = some p.root := by
    rw [Array.getElem?_eq_getElem hordered.hasRoot]
    simp [Program.root, Program.block, Array.getElem?_eq_getElem hordered.hasRoot]
  have hplaced := placed_codeWith m p 0 p.root hroot
  rw [Nat.add_zero] at hplaced
  simp [Store.block, loaded, hplaced]

/-- An accepted program starts with the frame of its root. -/
theorem Ready.startProgram (hm : m.Ready) (hp : p.Accepted) :
    ∃ m' g, Machine.startProgram p m = .ok () m' ∧ Runs (m.codeWith p) [g] [] m' ∧
      Steady m.settings m' := by
  obtain ⟨hordered, hsound, hbinds⟩ := hp.sound
  have hmoved := hsound.moved (placed_codeWith m p)
  have hpos := hmoved.slots_pos
  let g : Frame := {
    block := p.root.moved m.store.code.size
    registers := emptyRegisters (p.root.moved m.store.code.size).slots }
  have hstarts : Machine.startProgram p m = .ok () ((m.loaded p).pushed g) := by
    unfold Machine.startProgram
    rw [bind_of_ok (get_eq m), if_neg (by simp [hm.depth])]
    show (loadProgram p >>= _) m = _
    rw [bind_of_ok (loadProgram_eq p m), bind_of_ok (blockAt_eq _ _), block_loaded_root hordered]
    exact pushFrame_of_lt (by rw [show (m.loaded p).depth = m.depth from rfl, hm.depth]; exact hm.limit)
  refine ⟨_, g, hstarts, ⟨⟨rfl, ?_, ?_, functionsFit_loaded p hm.functions⟩, trivial⟩, ⟨rfl, ?_⟩⟩
  · simp [pushed, loaded, hm.idle]
  · intro f hf
    obtain rfl : f = g := by simpa using hf
    refine ⟨hmoved, ?_, ?_, nofun, nofun⟩
    · simp only [g, size_emptyRegisters]
      omega
    · simp [g, hbinds]
  · simp [pushed, loaded, hm.depth, hm.idle]

end Machine

/-! ## All moments of a run -/

namespace Moment

variable {code : Array Block} {s : Machine.Settings} {moment next : Moment}

/-- What holds at every moment of a run of sound blocks. -/
def Safe (code : Array Block) (s : Machine.Settings) : Moment → Prop
  | between base _ m => Machine.Steady s m ∧ ∃ f upper lower,
      Machine.Runs code (f :: upper) lower m ∧ lower.length = base
  | asked _ m => Machine.Steady s m ∧ ∃ stack, stack ≠ [] ∧ Machine.Rests code stack m

theorem Safe.advanced {m : Machine} (h : (between base since m).Safe code s) :
    Machine.Steady s m.advanced ∧ ∃ f upper lower, m.frames = f :: (upper ++ lower) ∧
      Machine.Runs code ({ f with counter := f.counter + 1 } :: upper) lower m.advanced ∧
      lower.length = base := by
  obtain ⟨hsteady, f, upper, lower, hm, hbase⟩ := h
  have hadvanced := advanced_of_cons hm.frames
  rw [hadvanced]
  refine ⟨⟨hsteady.settings, ?_⟩, f, upper, lower, hm.frames,
    hm.replace (hm.top.counter _) rfl, hbase⟩
  rw [withFrames_depth, hsteady.depth, hm.frames]
  rfl

/-- What holds at one moment holds at the next. -/
theorem Safe.follows (hhonest : ∀ n ∈ s.natives, n.Honest) (h : moment.Safe code s)
    (hnext : Follows moment next) : next.Safe code s := by
  have hask : ∀ {id : Int} {arguments : List Value} {reply : Reply} {m m' : Machine}
      {stack : List Frame}, Machine.Steady s m → stack ≠ [] → Machine.Rests code stack m →
      Machine.ask id arguments m = .ok reply m' → (asked reply m').Safe code s := by
    intro id arguments reply m m' stack hsteady hstack hm hasked
    have hrests := settles_ask hm (by rw [← hsteady.settings] at hhonest; exact hhonest)
      id arguments
    have hkept := Machine.Keeps.bind (Machine.Keeps.nativeAt _ id)
      (fun n => (sturdy_steady _).keeps_native n arguments) m hsteady
    rw [hasked] at hrests
    change After _ _ (Machine.ask id arguments m) at hkept
    rw [hasked] at hkept
    exact ⟨hkept, stack, hstack, hrests⟩
  cases hnext with
  | start started =>
    obtain ⟨hsteady, stack, hstack, hm⟩ := h
    have hbusy := hsteady.depth
    rw [hm.frames] at hbusy
    unfold Machine.startProgram at started
    rw [bind_of_ok (get_eq _), if_pos (by simpa [hbusy] using hstack)] at started
    cases started
  | @turn fuel _ since _ _ _ turned =>
    obtain ⟨hsteady, f, upper, lower, hm, rfl⟩ := h
    have hturn := turn_within hhonest (perform_within hhonest fuel)
      (keeps_perform fuel) hsteady hm since
    have hkept := keeps_turn fuel lower.length since _ hsteady
    rw [turned] at hturn hkept
    obtain ⟨g, upper', hm'⟩ := hturn
    exact ⟨hkept, g, upper', lower, hm', rfl⟩
  | ask isAt calls asked =>
    obtain ⟨hsteady, f, upper, lower, -, hm, -⟩ := h.advanced
    exact hask hsteady (List.cons_ne_nil _ _) hm.toRests asked
  | askAgain asked =>
    obtain ⟨hsteady, stack, hstack, hm⟩ := h
    exact hask hsteady hstack hm asked
  | @enter place arguments _ _ entered =>
    obtain ⟨hsteady, stack, hstack, hm⟩ := h
    have hcall := settles_callFunction hm (-1) place arguments
    have hkept := (sturdy_steady _).keeps_callFunction (-1) place arguments _ hsteady
    rw [entered] at hcall hkept
    obtain ⟨g, -, hm'⟩ := hcall
    exact ⟨hkept, g, [], stack, ⟨hm', trivial⟩, by rw [hsteady.depth, hm.frames]⟩

theorem Safe.reaches (hhonest : ∀ n ∈ s.natives, n.Honest) (h : moment.Safe code s)
    (hreaches : ReflTransGen Follows moment next) : next.Safe code s := by
  induction hreaches with
  | refl => exact h
  | tail _ hfollows ih => exact ih.follows hhonest hfollows

theorem Safe.covered (h : moment.Safe code s) : moment.Covered := by
  cases moment with
  | asked reply m => trivial
  | between base since m =>
    obtain ⟨hsteady, f, upper, lower, hm, rfl⟩ := h
    have hisSome : ∀ {r : Int}, 0 ≤ r ∧ r < f.block.slots → (f.register? r).isSome := fun hr =>
      Option.isSome_iff_exists.mpr (hm.top.register? hr)
    refine ⟨f, upper ++ lower, hm.frames, fun ins hins => ?_, fun _ => ⟨?_, fun hdepth => ?_⟩⟩
    · have hbounds := hm.top.sound.inBounds.instructions _ _ hins
      refine ⟨fun r hr => hisSome (hbounds.reads r hr), fun r hr => hisSome (hbounds.writes r hr),
        hbounds.constant, fun hop => ?_, fun hop => ?_, fun hop => ?_⟩
      · obtain ⟨place, hplace⟩ := Option.isSome_iff_exists.mp (hbounds.nested hop)
        refine ⟨place, hplace, fun bind hbind hlocal => ?_⟩
        have hwithin := hm.top.sound.takes place (Block.mem_children_of_nested? hplace) bind hbind
        unfold Bind.Within at hwithin
        rw [if_neg (by simp [hlocal])] at hwithin
        rw [hm.top.cells]
        exact hwithin
      · rw [hm.top.cells]
        exact hbounds.bind hop
      · have htarget := hbounds.target hop
        omega
    · exact hisSome hm.top.sound.inBounds.ret
    · cases upper with
      | nil =>
        rw [hsteady.depth, hm.frames] at hdepth
        simp at hdepth
      | cons g rest => exact ⟨g, rest ++ lower, rfl, hm.linked.1⟩

/-- What happens from a moment on goes out of range. -/
def Breaks : Moment → Prop
  | between base since m => ∃ fuel m', Machine.execute fuel base since m = .error .outOfRange m'
  | asked reply m => ∃ fuel m', Machine.perform fuel reply m = .error .outOfRange m'

end Moment

/-! ## A run that strays is out of range -/

namespace Machine

variable {m m' : Machine} {ins : Instruction} {id : Int} {arguments : List Value}

theorem step_of_callsNative (perform : Reply → Action Value) (h : m.CallsNative ins id arguments) :
    step perform ins m = (callNative perform id arguments >>= give ins.dest) m := by
  unfold step
  rcases h.isCall with hop | hop <;>
  · simp only [hop]
    rw [bind_of_ok h.given, bind_of_ok h.callee]
    rfl

/-- An instruction that is out of range ends the run, and all runs around it. -/
theorem execute_outOfRange (base : Nat) {fuel : Nat} (hat : m.IsAt since ins) (hm : m.frames ≠ [])
    (hstep : step (perform fuel) ins m.advanced = .error .outOfRange m')
    (hdepth : m'.depth = m'.frames.length) :
    ∃ m'', execute (fuel + 1) base since m = .error .outOfRange m'' := by
  obtain ⟨f, below, hframes⟩ := List.exists_cons_of_ne_nil hm
  have hcancel : ¬ (decide (tick since = 0) && m.cancelled) = true := by
    intro h
    simp only [Bool.and_eq_true, decide_eq_true_eq] at h
    rw [hat.goesOn h.1] at h
    cases h.2
  have hturn : turn (perform fuel) base since m = .error .outOfRange (m'.unwound (m'.depth - base)) := by
    unfold turn
    rw [bind_of_ok hat.next]
    dsimp only
    rw [bind_of_ok (get_eq m), if_neg hcancel, bind_of_ok (modifyFrame_eq _ hframes),
      ← advanced_of_cons hframes, bind_of_ok (attempt_of_error hstep)]
    exact fail_eq hdepth
  rw [execute_succ, bind_of_error hturn]
  exact ⟨_, rfl⟩

end Machine

namespace Moment

variable {code : Array Block} {s : Machine.Settings} {moment next : Moment}

theorem Safe.frames_ne_nil {m : Machine} (h : (between base since m).Safe code s) :
    m.frames ≠ [] := by
  obtain ⟨-, f, upper, lower, hm, -⟩ := h
  rw [hm.frames]
  exact List.cons_ne_nil _ _

theorem Safe.breaks_of_strays (hhonest : ∀ n ∈ s.natives, n.Honest) (h : moment.Safe code s)
    (hstrays : moment.Strays) : moment.Breaks := by
  cases moment with
  | asked reply m => exact hstrays.elim
  | between base since m =>
    obtain ⟨ins, id, arguments, fuel, result, m', hat, hcalls, -, houtside, hanswers⟩ := hstrays
    obtain ⟨hsteady, f, upper, lower, hframes, hm, -⟩ := h.advanced
    have hcall := callNative_within hhonest (perform_within hhonest fuel)
      (List.cons_ne_nil _ _) hsteady hm.toRests id arguments
    have hkept := (sturdy_steady _).keeps_callNative (keeps_perform fuel) id arguments _ hsteady
    rw [hanswers] at hcall hkept
    -- The answer goes to the frame that called, which has no such register.
    have hout := houtside f _ hframes
    have hnone : ({ f with counter := f.counter + 1 } : Frame).register? ins.dest = none := by
      show (if ins.dest < 0 then none else f.registers[ins.dest.toNat]?) = none
      rw [if_neg (by omega), Array.getElem?_eq_none (by omega)]
    have hstep : Machine.step (Machine.perform fuel) ins m.advanced = .error .outOfRange m' := by
      rw [step_of_callsNative _ hcalls, bind_of_ok hanswers]
      unfold Machine.give
      rw [if_pos (by omega)]
      exact setRegister_of_none hcall.frames hnone
    obtain ⟨m'', hbreaks⟩ := execute_outOfRange base hat h.frames_ne_nil hstep
      hkept.depth
    exact ⟨_, m'', hbreaks⟩

theorem Safe.breaks_of_follows (h : moment.Safe code s) (hfollows : Follows moment next)
    (hnext : next.Safe code s) (hbreaks : next.Breaks) : moment.Breaks := by
  cases hfollows with
  | @start p m m' started =>
    obtain ⟨fuel, m'', hbreaks⟩ := hbreaks
    exact ⟨fuel + 1, m'', by rw [Machine.perform, bind_of_ok started, hbreaks]⟩
  | @turn fuel base since since' m m' turned =>
    obtain ⟨fuel', m'', hbreaks⟩ := hbreaks
    have hagrees : ∀ reply, Machine.Agrees (Machine.perform (max fuel fuel') reply)
        (Machine.perform fuel reply) := fun reply =>
      ⟨fun _ => keeps_perform fuel reply, fun _ => perform_of_le (Nat.le_max_left _ _)⟩
    have hturn := (agrees_turn hagrees base since).same m h.1.depth
      (by rw [turned]; intro _ hcontra; cases hcontra)
    have hrest := execute_of_le (Nat.le_max_right fuel fuel') hnext.1.depth
      (by rw [hbreaks]; intro _ hcontra; cases hcontra)
    refine ⟨max fuel fuel' + 1, m'', ?_⟩
    rw [execute_succ, bind_of_ok (hturn.trans turned)]
    exact hrest.trans hbreaks
  | @ask base since ins id arguments reply m m' isAt calls asked =>
    obtain ⟨fuel, m'', hbreaks⟩ := hbreaks
    have hcall : Machine.callNative (Machine.perform fuel) id arguments m.advanced =
        .error .outOfRange m'' := by
      rw [callNative_eq, bind_of_ok asked, hbreaks]
    have hkept := keeps_perform fuel reply m' hnext.1
    rw [hbreaks] at hkept
    have hstep : Machine.step (Machine.perform fuel) ins m.advanced = .error .outOfRange m'' := by
      rw [step_of_callsNative _ calls, bind_of_error hcall]
    obtain ⟨m₃, hrun⟩ := execute_outOfRange base isAt h.frames_ne_nil hstep hkept.depth
    exact ⟨_, m₃, hrun⟩
  | @askAgain id arguments reply m m' asked =>
    obtain ⟨fuel, m'', hbreaks⟩ := hbreaks
    refine ⟨fuel + 1, m'', ?_⟩
    rw [Machine.perform]
    rcases nativeAt_cases id m with ⟨n, -, hat, hask⟩ | hat
    · have hnative : (do Machine.perform fuel (← Machine.native n arguments) : Action Value) m =
          .error .outOfRange m'' := by
        rw [bind_of_ok (by rw [← hask arguments, asked]), hbreaks]
      rw [bind_of_ok hat, bind_of_error (unplaced_of_error hnative)]
      rfl
    · unfold Machine.ask at asked
      rw [bind_of_error hat] at asked
      cases asked
  | @enter place arguments m m' entered =>
    obtain ⟨fuel, m'', hbreaks⟩ := hbreaks
    refine ⟨fuel + 1, m'', ?_⟩
    rw [Machine.perform]
    rcases functionAt_cases place m with ⟨o, block, cells, -, -, -, hfound⟩ | hfound
    · rw [bind_of_ok hfound, bind_of_ok (get_eq m),
        bind_of_ok (unplaced_of_ok entered)]
      exact hbreaks
    · unfold Machine.callFunction at entered
      rw [bind_of_error hfound] at entered
      cases entered

/-- A safe moment from which the run comes to one at which it strays goes out of range. -/
theorem Safe.breaks_of_goesAstray (hhonest : ∀ n ∈ s.natives, n.Honest) (h : moment.Safe code s)
    (hastray : moment.GoesAstray) : moment.Breaks := by
  obtain ⟨later, hlater, hstrays⟩ := hastray
  induction hlater using ReflTransGen.head_induction_on with
  | refl => exact h.breaks_of_strays hhonest hstrays
  | head hfollows _ ih =>
    have hnext := h.follows hhonest hfollows
    exact h.breaks_of_follows hfollows hnext (ih hnext)

end Moment

namespace Machine

variable {m : Machine} {p : Program}

theorem Ready.of_rests {s : Settings} {code : Array Block} (hlimit : 0 < s.maxFrames)
    (hhonest : ∀ n ∈ s.natives, n.Honest) (hsteady : Steady s m) (hm : Rests code [] m) :
    m.Ready := by
  have hsettings := hsteady.settings
  subst hsettings
  exact ⟨hm.frames, by rw [hsteady.depth, hm.frames]; rfl, hlimit, hm.functions, hhonest⟩

/-- How a run may end; the machine is ready for the next one. -/
theorem Ready.run (hm : m.Ready) (hp : p.Accepted) (fuel : Nat) :
    After (fun _ m' => m'.Ready)
      (fun failure m' => (failure ≠ .unfinished → m'.Ready) ∧ (∀ cause, failure ≠ .fault cause) ∧
        (failure = .outOfRange → (Moment.asked (.run p) m).GoesAstray))
      (perform fuel (.run p) m) := by
  cases fuel with
  | zero =>
    simp only [perform]
    exact ⟨fun h => absurd rfl h, fun _ h => (by cases h), fun h => (by cases h)⟩
  | succ fuel =>
    obtain ⟨m', g, hstarted, hruns, hsteady⟩ := hm.startProgram hp
    have hexecute := execute_within fuel hm.honest
      (fun less _ => perform_within hm.honest less) hsteady hruns 0
    have hkept := keeps_execute fuel 0 0 m' hsteady
    rw [perform, bind_of_ok hstarted]
    cases hresult : execute fuel 0 0 m' with
    | ok v m'' =>
      rw [show ([] : List Frame).length = 0 from rfl, hresult] at hexecute
      rw [hresult] at hkept
      exact .of_rests hm.limit hm.honest hkept hexecute
    | error failure m'' =>
      rw [show ([] : List Frame).length = 0 from rfl, hresult] at hexecute
      rw [hresult] at hkept
      refine ⟨fun hfinished => ?_, hexecute.placed, fun hfailure =>
        .of_follows (.start hstarted) (hexecute.bad hfailure)⟩
      have hstands := hexecute.stands
      exact .of_rests hm.limit hm.honest hkept
        ⟨hstands.code, hexecute.frames hfinished, hstands.fit, hstands.functions⟩

/-- A run of an accepted program uses nothing that is not there, apart from the register for the
answer of a function of the host that is called in tail position: it goes out of range exactly if it
comes to such a call whose register is not there. Any other run gives a value, fails with an error
that says where, or goes on forever, and leaves the machine ready for the next one. -/
theorem run_outOfRange_iff (hm : m.Ready) (hp : p.Accepted) :
    (∀ moment, ReflTransGen Follows (.asked (.run p) m) moment → moment.Covered) ∧
    ((∃ fuel m', perform fuel (.run p) m = .error .outOfRange m') ↔
      ∃ moment, ReflTransGen Follows (.asked (.run p) m) moment ∧ moment.Strays) ∧
    ((∃ moment, ReflTransGen Follows (.asked (.run p) m) moment ∧ moment.Strays) ∨
      (∃ fuel result m', perform fuel (.run p) m = .ok result m' ∧ m'.Ready) ∨
      (∃ fuel error m', perform fuel (.run p) m = .error (.run error) m' ∧ m'.Ready) ∨
      ∀ fuel, ∃ m', perform fuel (.run p) m = .error .unfinished m') := by
  obtain ⟨m', g, hstarted, hruns, hsteady⟩ := hm.startProgram hp
  have hsafe : (Moment.between 0 0 m').Safe (m.codeWith p) m.settings :=
    ⟨hsteady, g, [], [], hruns, rfl⟩
  have hfirst : ∀ {next : Moment}, Follows (.asked (.run p) m) next → next = .between 0 0 m' := by
    intro next hnext
    cases hnext with
    | start started =>
      rw [hstarted] at started
      cases started
      rfl
  refine ⟨fun moment hmoment => ?_, ⟨fun hout => ?_, fun hastray => ?_⟩, ?_⟩
  · cases hmoment using ReflTransGen.head_induction_on with
    | refl => trivial
    | head hnext hrest =>
      rw [hfirst hnext] at hrest
      exact (hsafe.reaches hm.honest hrest).covered
  · obtain ⟨fuel, m'', hout⟩ := hout
    have hrun := hm.run hp fuel
    rw [hout] at hrun
    exact hrun.2.2 rfl
  · obtain ⟨later, hlater, hstrays⟩ := hastray
    cases hlater using ReflTransGen.head_induction_on with
    | refl => exact hstrays.elim
    | head hnext hrest =>
      rw [hfirst hnext] at hrest
      obtain ⟨fuel, m'', hbreaks⟩ := hsafe.breaks_of_goesAstray hm.honest ⟨later, hrest, hstrays⟩
      exact ⟨fuel + 1, m'', by rw [perform, bind_of_ok hstarted, hbreaks]⟩
  · by_cases hends : ∃ fuel, Finished (perform fuel (.run p) m)
    · obtain ⟨fuel, hfinished⟩ := hends
      have hrun := hm.run hp fuel
      cases hresult : perform fuel (.run p) m with
      | ok result m'' =>
        rw [hresult] at hrun
        exact .inr (.inl ⟨fuel, result, m'', hresult, hrun⟩)
      | error failure m'' =>
        rw [hresult] at hrun hfinished
        cases failure with
        | fault cause => exact absurd rfl (hrun.2.1 cause)
        | run error => exact .inr (.inr (.inl ⟨fuel, error, m'', hresult, hrun.1 (by simp)⟩))
        | outOfRange => exact .inl (hrun.2.2 rfl)
        | unfinished => exact absurd rfl (hfinished m'')
    · refine .inr (.inr (.inr fun fuel => ?_))
      by_contra hnone
      exact hends ⟨fuel, fun m'' h => hnone ⟨m'', h⟩⟩

/-- A machine with the standard functions that has run nothing yet. -/
theorem Ready.fresh {limit : Nat} (hlimit : 0 < limit) :
    Ready { maxFrames := limit, natives := Natives.standard } where
  idle := rfl
  depth := rfl
  limit := hlimit
  functions := by
    rintro place block cells ⟨o, ho, -⟩
    simp at ho
  honest := fun _ hn => Natives.honest_of_mem hn

/-- A program that calls `out` in tail position and names a register for the answer that its block
does not have. -/
def strayingProgram : Program where
  blocks := #[{
    name := "b"
    slots := 4
    ret := 2
    constants := #[.native 0, .string "xyz"]
    code := #[
      { op := .loadConstant, dest := 1, k := 0 },
      { op := .loadConstant, dest := 2, k := 1 },
      { op := .tailCall, a := 1, args := [2], dest := 9 }] }]

theorem accepted_strayingProgram : strayingProgram.Accepted := by
  refine .checked ⟨by decide, ?_⟩ rfl
  intro place hplace child hchild
  obtain rfl : place = 0 := by
    have hsize : strayingProgram.blocks.size = 1 := rfl
    omega
  cases hchild

/-- Whether a run has gone out of range. -/
def isOutOfRange : EStateM.Result Failure Machine Value → Bool
  | .error .outOfRange _ => true
  | _ => false

theorem exists_of_isOutOfRange {result : EStateM.Result Failure Machine Value}
    (h : isOutOfRange result = true) : ∃ m, result = .error .outOfRange m := by
  unfold isOutOfRange at h
  split at h
  · exact ⟨_, rfl⟩
  · cases h

/-- The program passes the check, and its run comes to a call that strays. -/
theorem strayingProgram_strays :
    (strayingProgram.Accepted ∧ Ready { maxFrames := 8, natives := Natives.standard }) ∧
      ∃ moment, ReflTransGen Follows
        (.asked (.run strayingProgram) { maxFrames := 8, natives := Natives.standard }) moment ∧
        moment.Strays :=
  ⟨⟨accepted_strayingProgram, .fresh (by decide)⟩,
    ((run_outOfRange_iff (.fresh (by decide)) accepted_strayingProgram).2.1).mp
      ⟨8, exists_of_isOutOfRange (by decide +kernel)⟩⟩

end Machine

end Inkwell
