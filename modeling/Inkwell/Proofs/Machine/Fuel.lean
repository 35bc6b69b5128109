import Mathlib
import Inkwell.Proofs.Machine.Keeps

/-!
# What more steps keep

Every action keeps the number of frames right, so the removal of the frames of a failed run never
fails itself, and a run that is unfinished says so: more steps keep every other outcome.

The bound on the number of steps enters an instruction only through `perform`, the parameter that
does what a function of the host asks for. The lemmas on single instructions are therefore about two
such parameters of which one agrees with the other wherever that one has finished (`Agrees`).
-/

namespace Inkwell

namespace Machine

variable {m : Machine}
variable {α β : Type} {s : Settings}

/-! ## More steps -/

/-- An outcome other than having used up the steps. -/
def Finished (result : EStateM.Result Failure Machine α) : Prop :=
  ∀ m, result ≠ .error .unfinished m

/-- One action does the same as another wherever that one finishes, and that one keeps the settings and
the number of frames right. -/
structure Agrees (x' x : Action α) : Prop where
  keeps : ∀ s, Keeps (Steady s) x
  same : ∀ m, m.depth = m.frames.length → Finished (x m) → x' m = x m

theorem Agrees.refl {x : Action α} (h : ∀ s, Keeps (Steady s) x) : Agrees x x := ⟨h, fun _ _ _ => rfl⟩

theorem Steady.own (hm : m.depth = m.frames.length) : Steady m.settings m := ⟨rfl, hm⟩

theorem Agrees.bind {x' x : Action α} {next' next : α → Action β} (hx : Agrees x' x)
    (hnext : ∀ a, Agrees (next' a) (next a)) : Agrees (x' >>= next') (x >>= next) where
  keeps s := (hx.keeps s).bind fun a => (hnext a).keeps s
  same m hm hfinished := by
    cases hresult : x m with
    | ok a m' =>
      have hafter := hx.keeps _ m (.own hm)
      rw [hresult] at hafter
      have hsame : x' m = .ok a m' := by
        rw [hx.same m hm (by rw [hresult]; intro _ h; cases h), hresult]
      rw [bind_of_ok hresult] at hfinished ⊢
      rw [bind_of_ok hsame]
      exact (hnext a).same m' hafter.depth hfinished
    | error failure m' =>
      rw [bind_of_error hresult] at hfinished ⊢
      have hsame : x' m = .error failure m' := by
        rw [hx.same m hm (by rw [hresult]; intro _ h; cases h; exact hfinished _ rfl), hresult]
      rw [bind_of_error hsame]

theorem Agrees.unplaced {x' x : Action α} (hx : Agrees x' x) :
    Agrees (Machine.unplaced x') (Machine.unplaced x) where
  keeps s := (hx.keeps s).unplaced
  same m hm hfinished := by
    unfold Machine.unplaced at hfinished ⊢
    rw [hx.same m hm]
    intro m' hresult
    rw [hresult] at hfinished
    exact hfinished m' rfl

/-- An instruction that does not finish makes the whole run unfinished. -/
theorem Agrees.attempt {x' x : Action Unit} (hx : Agrees x' x) (base since : Nat)
    (position : Position) :
    Agrees
      (do
        match ← Machine.attempt x' with
        | .ok () => return .goesOn since
        | .error failure => fail base position failure : Action Turn)
      (do
        match ← Machine.attempt x with
        | .ok () => return .goesOn since
        | .error failure => fail base position failure) where
  keeps s := by
    refine .bind (hx.keeps s).attempt fun outcome => ?_
    cases outcome with
    | ok _ => exact .pure _ _
    | error failure => exact keeps_fail _ _ _
  same m hm hfinished := by
    have hattempt : Machine.attempt x' m = Machine.attempt x m := by
      unfold Machine.attempt
      rw [hx.same m hm]
      intro m' hresult
      have hafter := hx.keeps _ m (.own hm)
      rw [hresult] at hafter
      have hsame : Machine.attempt x m = .ok (.error .unfinished) m' := by
        simp only [Machine.attempt, hresult]
      rw [bind_of_ok hsame] at hfinished
      dsimp only at hfinished
      rw [fail_eq hafter.depth] at hfinished
      exact hfinished _ rfl
    show EStateM.bind _ _ m = EStateM.bind _ _ m
    simp only [EStateM.bind, hattempt]

section

variable {perform' perform : Reply → Action Value}
  (hagrees : ∀ reply, Agrees (perform' reply) (perform reply))
include hagrees

theorem agrees_ask (n : Native) (arguments : List Value) :
    Agrees (do perform' (← native n arguments)) (do perform (← native n arguments)) :=
  .bind (.refl fun s => (sturdy_steady s).keeps_native n arguments) hagrees

theorem agrees_step (ins : Instruction) : Agrees (step perform' ins) (step perform ins) := by
  have hkeeps := fun s => (sturdy_steady s).keeps_callNative fun reply => (hagrees reply).keeps s
  have hsame : ∀ {x : Action Unit}, x = step perform ins → Agrees x x := by
    rintro _ rfl
    exact .refl fun s => (sturdy_steady s).keeps_step (hkeeps s) ins
  have hcall : ∀ dest callee arguments tail,
      Agrees (call perform' dest callee arguments tail) (call perform dest callee arguments tail) := by
    intro dest callee arguments tail
    cases callee with
    | native id =>
      exact .bind (.bind (.refl fun s => Keeps.nativeAt _ id) fun n => agrees_ask hagrees n arguments)
        fun result => .refl fun s => (sturdy_steady s).keeps_give dest result
    | _ => exact ⟨fun s => (sturdy_steady s).keeps_call (hkeeps s) dest _ arguments tail, fun _ _ _ => rfl⟩
  unfold step at hsame ⊢
  cases hop : ins.op with
  | call | tailCall =>
    exact .bind (.refl fun _ => .ofFrame _ _) fun _ => .bind (.refl fun _ => .ofFrame _ _)
      fun _ => hcall _ _ _ _
  | _ => exact hsame (by simp only [hop])

theorem agrees_turn (base since : Nat) :
    Agrees (turn perform' base since) (turn perform base since) := by
  refine .bind (.refl fun _ => .ofFrame _ _) fun found => ?_
  cases found with
  | finish result destination =>
    refine .refl fun s => .bind ((sturdy_steady s).keeps_retain _) fun _ => .bind keeps_popFrame fun _ =>
      .bind (.get _) fun m => ?_
    split
    · exact .pure _ _
    · exact .bind ((sturdy_steady s).keeps_setRegister _ _) fun _ =>
        .bind ((sturdy_steady s).keeps_release _) fun _ => .pure _ _
  | perform ins =>
    refine .bind (.refl fun _ => .get _) fun m => ?_
    split
    · rw [fail_bind, fail_bind]
      exact .refl fun _ => keeps_fail _ _ _
    · exact .bind (.refl fun s => (sturdy_steady s).keeps_modifyFrame _) fun _ =>
        .attempt (agrees_step hagrees ins) base _ _

end

theorem agrees_succ (fuel : Nat) :
    (∀ base since, Agrees (execute (fuel + 1) base since) (execute fuel base since)) ∧
      ∀ reply, Agrees (perform (fuel + 1) reply) (perform fuel reply) := by
  induction fuel with
  | zero =>
    refine ⟨fun base since => ⟨fun s => ?_, fun m _ hfinished => ?_⟩, fun reply => ?_⟩
    · rw [execute]
      exact fun _ hm => hm
    · rw [execute] at hfinished
      exact absurd rfl (hfinished m)
    · cases reply with
      | answer v =>
        rw [perform, perform]
        exact .refl fun _ => .pure _ _
      | _ =>
        simp only [perform]
        exact ⟨fun _ _ hm => hm, fun m _ hfinished => absurd rfl (hfinished m)⟩
  | succ fuel ih =>
    obtain ⟨hexecute, hperform⟩ := ih
    refine ⟨fun base since => ?_, fun reply => ?_⟩
    · rw [execute_succ, execute_succ]
      refine .bind (agrees_turn hperform base since) fun turned => ?_
      cases turned with
      | ended result => exact .refl fun _ => .pure _ _
      | goesOn since => exact hexecute base since
    · cases reply with
      | answer v =>
        rw [perform, perform]
        exact .refl fun _ => .pure _ _
      | run p =>
        rw [perform, perform]
        exact .bind (.refl fun s => (sturdy_steady s).keeps_startProgram p) fun _ => hexecute 0 0
      | call callee arguments =>
        cases callee with
        | native id =>
          rw [perform, perform]
          exact .bind (.refl fun _ => Keeps.nativeAt _ id) fun n =>
            .bind (agrees_ask hperform n arguments).unplaced fun result => .refl fun s =>
              .bind ((sturdy_steady s).keeps_retain result) fun _ => .pure _ _
        | function place =>
          rw [perform, perform]
          exact .bind (.refl fun _ => .ofStore _ _) fun _ => .bind (.refl fun _ => .get _) fun m =>
            .bind (.refl fun s => Keeps.unplaced ((sturdy_steady s).keeps_callFunction _ _ _)) fun _ =>
            hexecute _ _
        | _ =>
          simp only [perform]
          exact .refl fun _ => .bind (.ofStore _ _) fun _ => .fault _ _

theorem keeps_perform (fuel : Nat) (reply : Reply) : Keeps (Steady s) (perform fuel reply) :=
  ((agrees_succ fuel).2 reply).keeps s

theorem keeps_execute (fuel base since : Nat) : Keeps (Steady s) (execute fuel base since) :=
  ((agrees_succ fuel).1 base since).keeps s

theorem keeps_turn (fuel base since : Nat) : Keeps (Steady s) (turn (perform fuel) base since) :=
  (agrees_turn (agrees_succ fuel).2 base since).keeps s

/-- More steps keep the outcome of a run that has finished. -/
theorem execute_of_le {fuel more base since : Nat} (hle : fuel ≤ more)
    (hm : m.depth = m.frames.length) (hfinished : Finished (execute fuel base since m)) :
    execute more base since m = execute fuel base since m := by
  induction hle with
  | refl => rfl
  | step _ ih =>
    rw [((agrees_succ _).1 base since).same m hm (by rw [ih]; exact hfinished), ih]

/-- More steps keep the outcome of what a function of the host asks for. -/
theorem perform_of_le {fuel more : Nat} {reply : Reply} (hle : fuel ≤ more)
    (hm : m.depth = m.frames.length) (hfinished : Finished (perform fuel reply m)) :
    perform more reply m = perform fuel reply m := by
  induction hle with
  | refl => rfl
  | step _ ih =>
    rw [((agrees_succ _).2 reply).same m hm (by rw [ih]; exact hfinished), ih]

end Machine

end Inkwell
