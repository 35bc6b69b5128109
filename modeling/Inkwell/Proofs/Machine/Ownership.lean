import Mathlib
import Inkwell.Proofs.Optimizer.Passes
import Inkwell.Proofs.Plain.Starts

/-!
# Owners are counted exactly

A session is what a host does with a machine that has the standard functions: it runs programs, calls
functions, and releases what it was given. At every moment of a session the owners of each object are
the registers, frames, objects and references of the host that refer to it, so nothing that has an
owner is ever released, and nothing that has been released is used.

A session only ever leaves a machine that rests, or one that mirrors a machine without owners. Both
say that the counts are exact, and on mirrored machines no instruction meets something released.
-/

namespace Inkwell

open Machine

open Relation (ReflTransGen)

variable {held : List Value} {m : Machine}

/-- The owners of every object are the registers, frames and objects that hold it, and the references
the host was given and has not released. -/
def Machine.Counted (m : Machine) (held : List Value) : Prop :=
  m.store.heap.Exact (m.frames.flatMap Frame.owned ++ held)

/-- What the host may ask for: a program built from a source, or a call with values that it owns or
that nobody owns. -/
def Reply.Allowed (held : List Value) : Reply → Prop
  | run p => p.Built
  | call callee arguments => ∀ v ∈ callee :: arguments, v ∈ held ∨ v.object? = none
  | answer _ => False

/-- What the host does with a machine, and what it owns then. A call that fails leaves it what it
had, unless the machine has come to a halt. -/
inductive Session : List Value → Machine → Prop
  | fresh (output : Output) (limit : Nat) (cancelled : Bool) :
      Session [] { store := { output }, maxFrames := limit, natives := Natives.standard, cancelled }
  | given {held : List Value} {m m' : Machine} {reply : Reply} {fuel : Nat} {v : Value}
      (session : Session held m) (allowed : reply.Allowed held)
      (result : Machine.perform fuel reply m = .ok v m') : Session (v :: held) m'
  | refused {held : List Value} {m m' : Machine} {reply : Reply} {fuel : Nat} {failure : Failure}
      (session : Session held m) (allowed : reply.Allowed held)
      (result : Machine.perform fuel reply m = .error failure m') (range : failure ≠ .outOfRange)
      (time : failure ≠ .unfinished) : Session held m'
  | released {held : List Value} {m m' : Machine} {v : Value} (session : Session (v :: held) m)
      (result : Machine.release v m = .ok () m') : Session held m'
  | reordered {held held' : List Value} {m : Machine} (session : Session held m)
      (perm : held.Perm held') : Session held' m
  | set {held : List Value} {m : Machine} (session : Session held m) (output : Output) (limit : Nat)
      (cancelled : Bool) :
      Session held { m with store.output := output, maxFrames := limit, cancelled }

namespace Moment

/-- The machine at a moment. -/
def machine : Moment → Machine
  | between _ _ m => m
  | asked _ m => m

/-- What comes next uses something that has been released. -/
def UsesReleased : Moment → Prop
  | between _ since m => ∃ ins fuel cause m', m.IsAt since ins ∧
      Machine.step (Machine.perform fuel) ins m.advanced = .error (.fault cause) m' ∧
      cause.IsRelease
  | asked (.call (.native id) arguments) m => ∃ cause m',
      Machine.ask id arguments m = .error (.fault cause) m' ∧ cause.IsRelease
  | asked (.call (.function place) arguments) m => ∃ cause m',
      Machine.callFunction (-1) place arguments m = .error (.fault cause) m' ∧ cause.IsRelease
  | asked _ _ => False

end Moment

theorem Machine.perform_answer (fuel : Nat) (v : Value) : perform fuel (.answer v) = pure v := by
  cases fuel <;> rfl

/-! ## Requests of the host -/

section Requests

variable {arguments : List Value}
variable {held : List Value} {m : Machine}

theorem Rested.lives (hm : Rested held m) {v : Value} (hv : v ∈ held ∨ v.object? = none) :
    m.store.heap.Lives v := by
  rcases hv with hv | hv
  · exact hm.exact.root_lives hv
  · exact Heap.lives_of_none hv

/-- A machine at rest that enters a block mirrors another one then, or rests again because it may
have no frame at all. -/
def Enters (held : List Value) : EStateM.Result Failure Machine Unit → Prop :=
  After (fun _ m' => (∃ s, Mirrors held m' s) ∧ m'.frames ≠ [])
    fun failure m' => (∀ cause, failure = .fault cause → ¬ cause.IsRelease) ∧ Rested held m'

theorem Rested.enters {start : Machine} (hstart : Rested held start)
    {result : EStateM.Result Failure Machine Unit} {s : Store} {f : Activation}
    {below : List Activation} (h : Matches held start result (.ok ⟨s, f :: below⟩))
    (hsteady : After (fun _ => Machine.Steady start.settings)
      (fun _ => Machine.Steady start.settings) result) : Enters held result := by
  cases h with
  | goesOn mirrors =>
    refine ⟨⟨_, mirrors⟩, fun hnone => ?_⟩
    have hframes := mirrors.frames
    rw [hnone] at hframes
    cases hframes
  | overflows kept full =>
    refine ⟨fun cause hcause => ?_,
      kept.rested_of_idle hstart hsteady (List.eq_nil_of_length_eq_zero ?_)⟩
    · cases hcause
      exact id
    · rw [kept.length, hstart.idle]
      rfl

theorem Enters.unplaced {x : Action Unit} (h : Enters held (x m)) :
    Enters held (Machine.unplaced x m) := by
  cases hx : x m with
  | ok u m' =>
    rw [hx] at h
    rw [unplaced_of_ok hx]
    exact h
  | error failure m' =>
    rw [hx] at h
    rw [unplaced_of_error hx]
    refine ⟨fun cause hcause => ?_, h.2⟩
    cases failure <;> cases hcause

variable (hm : Rested held m)

include hm

theorem Rested.steady : m.Steady m.settings :=
  ⟨rfl, by rw [hm.depth, hm.idle]; rfl⟩

theorem Rested.enters_program {p : Program} (hp : p.Built) :
    Enters held (Machine.startProgram p m) := by
  obtain ⟨s, hs⟩ := hm.exists_mirrors
  have htidy := fun b hb => (hp.inOrder b hb).1
  exact (hm.loaded htidy).enters (hm.startProgram htidy hs.paired.shadows hs.output)
    ((sturdy_steady _).keeps_startProgram p m hm.steady)

theorem Rested.enters_function {place : Nat}
    (hallowed : (Reply.call (.function place) arguments).Allowed held) :
    Enters held (Machine.callFunction (-1) place arguments m) ∧
      ∃ found, Machine.functionAt place m = .ok found m := by
  obtain ⟨s, hs⟩ := hm.exists_mirrors
  have hplace := hm.lives (hallowed _ List.mem_cons_self)
  obtain ⟨block, cells, hfound, hfunction, -⟩ := hs.function hplace
  have harguments : ∀ v ∈ arguments, m.store.heap.Lives v := fun v hv =>
    hm.lives (hallowed v (List.mem_cons_of_mem _ hv))
  refine ⟨hm.enters (matches_callFunction hfound hplace harguments hs (-1) hfunction)
    ((sturdy_steady _).keeps_callFunction (-1) place arguments m hm.steady), _, hfound⟩

/-- A machine at rest that asks a function of the host rests then. -/
theorem Rested.ask (id : Int) {arguments : List Value}
    (harguments : ∀ v ∈ arguments, v ∈ held ∨ v.object? = none) :
    (∃ cause, ¬ cause.IsRelease ∧ Machine.ask id arguments m = .error (.fault cause) m) ∨
      ∃ v m', Machine.ask id arguments m = .ok (.answer v) m' ∧ Rested held m' ∧
        m'.store.heap.Lives v := by
  obtain ⟨s, hs⟩ := hm.exists_mirrors
  rcases hs.ask id fun v hv => hm.lives (harguments v hv) with
    ⟨cause, hcause, -, hask⟩ | ⟨v, s', t', -, hask, hm', hv⟩
  · exact .inl ⟨cause, hcause, hask⟩
  · have hexact : s'.heap.Exact (m.frames.flatMap Frame.owned ++ held) := hm'.paired.exact
    rw [hm.idle] at hexact
    exact .inr ⟨v, _, hask, ⟨hm.idle, hexact, hm'.paired.labelled, hm'.tidy, hm'.natives, hm.depth⟩,
      hv⟩

/-! ## What requests leave -/

omit hm in
/-- A run that starts where a block has been entered leaves a machine that rests. -/
theorem Leaves.execute {x : Action Unit} (h : Enters held (x m)) (fuel since : Nat) :
    Leaves held ((do x; Machine.execute fuel 0 since) m) := by
  cases hx : x m with
  | ok u m' =>
    rw [hx] at h
    obtain ⟨⟨s, hs⟩, hrunning⟩ := h
    rw [bind_of_ok hx]
    exact hs.execute hrunning fuel since
  | error failure m' =>
    rw [hx] at h
    rw [bind_of_error hx]
    exact fun _ _ => h.2

theorem Rested.request_native {id : Int}
    (hallowed : (Reply.call (.native id) arguments).Allowed held) (fuel : Nat) :
    Leaves held (Machine.perform (fuel + 1) (.call (.native id) arguments) m) := by
  have hask := hm.ask id fun v hv => hallowed v (List.mem_cons_of_mem _ hv)
  rw [Machine.perform]
  rcases nativeAt_cases id m with ⟨n, -, hat, hnative⟩ | hat
  · rw [bind_of_ok hat]
    rw [hnative arguments] at hask
    rcases hask with ⟨cause, -, hfails⟩ | ⟨v, m', hanswers, hm', hv⟩
    · have hplaced : Machine.unplaced (do Machine.perform fuel (← Machine.native n arguments)) m =
          .error (Failure.fault cause).unplaced m :=
        unplaced_of_error (bind_of_error hfails)
      rw [bind_of_error hplaced]
      exact fun _ _ => hm
    · have hplaced : Machine.unplaced (do Machine.perform fuel (← Machine.native n arguments)) m =
          .ok v m' := by
        refine unplaced_of_ok ?_
        rw [bind_of_ok hanswers, perform_answer]
        rfl
      rw [bind_of_ok hplaced, bind_of_ok (retain_eq v m')]
      exact ⟨hm'.idle, hm'.exact.retain hv, hm'.labelled.retain v, hm'.tidy, hm'.natives, hm'.depth⟩
  · rw [bind_of_error hat]
    exact fun _ _ => hm

theorem Rested.request_function {place : Nat}
    (hallowed : (Reply.call (.function place) arguments).Allowed held) (fuel : Nat) :
    Leaves held (Machine.perform (fuel + 1) (.call (.function place) arguments) m) := by
  obtain ⟨henters, found, hfound⟩ := hm.enters_function hallowed
  rw [Machine.perform, bind_of_ok hfound, bind_of_ok (get_eq m), hm.depth]
  exact Leaves.execute henters.unplaced fuel 0

/-- Whatever the host asks for leaves a machine that rests. -/
theorem Rested.request {reply : Reply} (hallowed : reply.Allowed held)
    (fuel : Nat) : Leaves held (Machine.perform fuel reply m) := by
  cases fuel with
  | zero =>
    cases reply with
    | answer v => exact absurd hallowed id
    | call callee arguments => cases callee <;> exact fun _ htime => absurd rfl htime
    | run p => exact fun _ htime => absurd rfl htime
  | succ fuel =>
    cases reply with
    | answer v => exact absurd hallowed id
    | call callee arguments =>
      cases callee with
      | native id => exact hm.request_native hallowed fuel
      | function place => exact hm.request_function hallowed fuel
      | _ => exact fun _ _ => hm
    | run p => exact Leaves.execute (hm.enters_program hallowed) fuel 0

end Requests

/-! ## Sessions -/

/-- A session only ever leaves a machine that rests. -/
theorem Session.rested (session : Session held m) :
    Rested held m := by
  induction session with
  | fresh output limit cancelled => exact .fresh output limit cancelled
  | @given held m m' reply fuel v _ allowed result ih =>
    have hleaves := ih.request allowed fuel
    rw [result] at hleaves
    exact hleaves
  | @refused held m m' reply fuel failure _ allowed result range time ih =>
    have hleaves := ih.request allowed fuel
    rw [result] at hleaves
    exact hleaves range time
  | @released held m m' v _ result ih =>
    rw [release_eq] at result
    cases result
    obtain ⟨s, hs⟩ := ih.exists_mirrors
    have hpaired := hs.releaseHeld.paired
    have hidle : (m.withHeap (m.store.heap.release v)).frames = [] := ih.idle
    rw [hidle] at hpaired
    exact ⟨hidle, hpaired.exact, hpaired.labelled, ih.tidy, ih.natives, ih.depth⟩
  | reordered _ perm ih =>
    exact ⟨ih.idle, ih.exact.perm perm, ih.labelled, ih.tidy, ih.natives, ih.depth⟩
  | set _ output limit cancelled ih =>
    exact ⟨ih.idle, ih.exact, ih.labelled, ih.tidy, ih.natives, ih.depth⟩

/-- A machine about to do an instruction mirrors another one when it has gone on behind it. -/
theorem Mirrors.advanced {s : Plain} (hm : Mirrors held m s) (hrunning : m.frames ≠ []) :
    ∃ f below store, m.advanced.frames = f :: below ∧
      Mirrors held m.advanced ⟨store, (f :: below).map Frame.activation⟩ := by
  obtain ⟨s, f, below, hframes, rfl⟩ := hm.exists_top hrunning
  have heq : m.advanced = m.withFrames ({ f with counter := f.counter + 1 } :: below) := by
    simp only [Machine.advanced, hframes]
  rw [heq]
  exact ⟨_, below, s, rfl, hm.goTo hframes (f.counter + 1)⟩

theorem Mirrors.lives_arguments {s : Store} {f : Frame} {below : List Frame}
    (hm : Mirrors held m ⟨s, (f :: below).map Frame.activation⟩) (hframes : m.frames = f :: below)
    {rs : List Int} {vs : List Value} (hgiven : Machine.registers rs m = .ok vs m) : ∀ v ∈ vs,
    m.store.heap.Lives v := by
  have hreads := reads_registers hframes rs
  rw [hgiven] at hreads
  refine hm.lives_registers hframes (?_ : orOutside (rs.mapM f.activation.register?) = .ok vs)
  generalize orOutside (rs.mapM f.activation.register?) = result at hreads
  cases hreads
  rfl

namespace Moment

variable {held : List Value} {moment next : Moment}

/-- A moment of a session: the machine mirrors another one, or it rests and is asked for something
that is allowed. -/
def Mirrored (held : List Value) : Moment → Prop
  | between base _ m => base = 0 ∧ (∃ s, Mirrors held m s) ∧ m.frames ≠ []
  | asked reply m =>
    (∃ s, Mirrors held m s) ∧ ((∃ v, reply = .answer v) ∨ reply.Allowed held ∧ Rested held m)

variable (h : moment.Mirrored held)

include h

theorem Mirrored.counted : moment.machine.Counted held := by
  cases moment with
  | between base since m =>
    obtain ⟨-, ⟨s, hs⟩, -⟩ := h
    exact hs.paired.exact
  | asked reply m =>
    obtain ⟨⟨s, hs⟩, -⟩ := h
    exact hs.paired.exact

theorem Mirrored.not_usesReleased : ¬ moment.UsesReleased := by
  cases moment with
  | between base since m =>
    obtain ⟨-, ⟨s, hs⟩, hrunning⟩ := h
    rintro ⟨ins, fuel, cause, m', -, hstep, hcause⟩
    obtain ⟨f, below, store, hframes, hadvanced⟩ := hs.advanced hrunning
    have hmatches := matches_step hadvanced hframes (perform_answer fuel) ins
    rw [hstep] at hmatches
    generalize Plain.step _ _ _ ins = result at hmatches
    cases hmatches with
    | fails _ noRelease => exact noRelease hcause
    | overflows => exact hcause
  | asked reply m =>
    obtain ⟨-, ⟨v, rfl⟩ | ⟨hallowed, hm⟩⟩ := h
    · exact id
    · cases reply with
      | call callee arguments =>
        cases callee with
        | native id =>
          rintro ⟨cause, m', hfails, hcause⟩
          rcases hm.ask id fun v hv => hallowed v (List.mem_cons_of_mem _ hv) with
            ⟨cause', hcause', hask⟩ | ⟨v, m₁, hask, -⟩
          · rw [hask] at hfails
            cases hfails
            exact hcause' hcause
          · rw [hask] at hfails
            cases hfails
        | function place =>
          rintro ⟨cause, m', hfails, hcause⟩
          have henters := (hm.enters_function hallowed).1
          rw [hfails] at henters
          exact henters.1 cause rfl hcause
        | _ => exact id
      | _ => exact id

theorem Mirrored.follows (hnext : Follows moment next) : next.Mirrored held := by
  cases hnext with
  | start started =>
    obtain ⟨-, ⟨v, hv⟩ | ⟨hallowed, hm⟩⟩ := h
    · cases hv
    · have henters := hm.enters_program hallowed
      rw [started] at henters
      exact ⟨rfl, henters⟩
  | @turn fuel base since since' m m' turned =>
    obtain ⟨rfl, ⟨s, hs⟩, hrunning⟩ := h
    have hturned := hs.turned hrunning fuel since
    rw [turned] at hturned
    generalize s.turn = round at hturned
    cases hturned with
    | goesOn mirrors running => exact ⟨rfl, ⟨_, mirrors⟩, running⟩
  | @ask base since ins id arguments reply m m' isAt calls asked =>
    obtain ⟨-, ⟨s, hs⟩, hrunning⟩ := h
    obtain ⟨f, below, store, hframes, hadvanced⟩ := hs.advanced hrunning
    rcases hadvanced.ask id (hadvanced.lives_arguments hframes calls.given) with
      ⟨cause, -, -, hask⟩ | ⟨v, m₁, s', -, hask, hm', -⟩
    · rw [hask] at asked
      cases asked
    · rw [hask] at asked
      cases asked
      exact ⟨⟨_, hm'⟩, .inl ⟨v, rfl⟩⟩
  | @askAgain id arguments reply m m' asked =>
    obtain ⟨-, ⟨v, hv⟩ | ⟨hallowed, hm⟩⟩ := h
    · cases hv
    · rcases hm.ask id fun v hv => hallowed v (List.mem_cons_of_mem _ hv) with
        ⟨cause, -, hask⟩ | ⟨v, m₁, hask, hm', -⟩
      · rw [hask] at asked
        cases asked
      · rw [hask] at asked
        cases asked
        obtain ⟨s, hs⟩ := hm'.exists_mirrors
        exact ⟨⟨_, hs⟩, .inl ⟨v, rfl⟩⟩
  | @enter place arguments m m' entered =>
    obtain ⟨-, ⟨v, hv⟩ | ⟨hallowed, hm⟩⟩ := h
    · cases hv
    · have henters := (hm.enters_function hallowed).1
      rw [entered] at henters
      exact ⟨hm.depth, henters⟩

theorem Mirrored.reaches (hreaches : ReflTransGen Follows moment next) : next.Mirrored held := by
  induction hreaches with
  | refl => exact h
  | tail _ hnext ih => exact ih.follows hnext

end Moment

/-- At every moment of a session the owners of each object are exactly what refers to it, and nothing
that has been released is used: where the session stands, and throughout whatever the host asks for
next. -/
theorem Session.owners_exact {held : List Value} {m : Machine} (session : Session held m) :
    m.Counted held ∧
      ∀ reply : Reply, reply.Allowed held →
        ∀ moment, ReflTransGen Follows (.asked reply m) moment →
          moment.machine.Counted held ∧ ¬ moment.UsesReleased := by
  have hm := session.rested
  obtain ⟨s, hs⟩ := hm.exists_mirrors
  refine ⟨hs.paired.exact, fun reply hallowed moment hreaches => ?_⟩
  have hstart : (Moment.asked reply m).Mirrored held := ⟨⟨_, hs⟩, .inr ⟨hallowed, hm⟩⟩
  have hmoment := hstart.reaches hreaches
  exact ⟨hmoment.counted, hmoment.not_usesReleased⟩

/-! ## A session -/

/-- The value that a run gives. -/
def Machine.value? : EStateM.Result Failure Machine Value → Option Value
  | .ok v _ => some v
  | .error _ _ => none

theorem Machine.exists_of_value? {result : EStateM.Result Failure Machine Value} {v : Value}
    (h : value? result = some v) : ∃ m, result = .ok v m := by
  cases result with
  | ok v' m =>
    cases h
    exact ⟨m, rfl⟩
  | error => cases h

/-- A run ends because there is no frame left. -/
def Machine.overflows : EStateM.Result Failure Machine Value → Bool
  | .error (.run e) _ => e.overflow
  | _ => false

theorem Machine.exists_of_overflows {result : EStateM.Result Failure Machine Value}
    (h : overflows result = true) : ∃ e m, result = .error (.run e) m := by
  unfold overflows at h
  split at h
  · exact ⟨_, _, rfl⟩
  · cases h

/-- A new machine with room for eight frames. -/
def idle : Machine := { maxFrames := 8, natives := Natives.standard }

/-- A host that runs a program gets a function with a cell, and another one when it calls that. A call
for which there is no frame fails; then it may call again. -/
theorem Session.owners_exact_passedOn :
    ∃ m, Session [.function 2, .function 1] m ∧
      (Reply.call (.function 2) [.function 1]).Allowed [.function 2, .function 1] ∧
      m.Counted [.function 2, .function 1] ∧
      ∀ moment, ReflTransGen Follows (.asked (.call (.function 2) [.function 1]) m) moment →
        moment.machine.Counted [.function 2, .function 1] ∧ ¬ moment.UsesReleased := by
  have hcall : value? ((do
      let _ ← perform 8 (.run passedOnCode)
      perform 8 (.call (.function 1) [.function 1])) idle) = some (.function 2) := by cbv
  have hfull : overflows ((do
      let _ ← perform 8 (.run passedOnCode)
      let _ ← perform 8 (.call (.function 1) [.function 1])
      modify fun (m : Machine) => { m with store.output := {}, maxFrames := 0, cancelled := false }
      perform 8 (.call (.function 2) [.function 1])) idle) = true := by cbv
  obtain ⟨m₁, hrun⟩ := exists_of_value?
    (by cbv : value? (perform 8 (.run passedOnCode) idle) = some (.function 1))
  rw [bind_of_ok hrun] at hcall hfull
  obtain ⟨m₂, hcall⟩ := exists_of_value? hcall
  rw [bind_of_ok hcall] at hfull
  obtain ⟨e, m₃, hfull⟩ := exists_of_overflows hfull
  have hbuilt : (Reply.run passedOnCode).Allowed [] := Program.Built.compiled compile_passedOn
  have hallowed : (Reply.call (.function 2) [.function 1]).Allowed [.function 2, .function 1] := by
    simp [Reply.Allowed]
  have hgiven : Session [.function 2, .function 1] m₂ :=
    .given (.given (.fresh {} 8 false) hbuilt hrun) (by simp [Reply.Allowed]) hcall
  have session : Session [.function 2, .function 1] m₃ :=
    .refused (hgiven.set {} 0 false) hallowed hfull (by simp) (by simp)
  obtain ⟨hcounted, hmoments⟩ := (session.set {} 8 false).owners_exact
  exact ⟨_, session.set {} 8 false, hallowed, hcounted, hmoments _ hallowed⟩

end Inkwell
