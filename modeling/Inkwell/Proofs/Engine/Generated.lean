import Mathlib
import Inkwell.Engine.Basic
import Inkwell.Proofs.Image.RoundTrip
import Inkwell.Proofs.Optimizer.Shape

/-!
# The code that engines generate

What an engine generates for a program that it has read without a problem is valid, was compiled and
then improved by passes only (`Engine.built_of_generate`, `Engine.valid_of_generate`), and depends on
the names of the host functions but not on what they do.
-/

namespace Inkwell

open List

variable {p : Program}

/-! ## Host functions -/

namespace Natives

/-- Only the names of the host functions count for their numbers. -/
theorem number?_eq_idxOf? (ns : Natives) (name : Text) : ns.number? name = ns.names.idxOf? name := by
  obtain ⟨functions⟩ := ns
  unfold number? names List.idxOf?
  rw [findIdx?_toArray, findIdx?_map]
  rfl

theorem names_prefix_register (ns : Natives) (n : Native) : ns.names <+: (ns.register n).names := by
  rw [names_register]
  split
  · exact prefix_rfl
  · exact prefix_append _ _

/-- Functions with different names are registered one after the other. -/
theorem registered_of_nodup {functions : List Native} (h : (functions.map (·.name)).Nodup) :
    Natives.Registered functions.toArray := by
  induction functions using List.reverseRecOn with
  | nil => exact .empty
  | append_singleton functions n ih =>
    rw [map_append, nodup_append] at h
    obtain ⟨hbefore, -, hapart⟩ := h
    have hnone : Natives.number? functions.toArray n.name = none := by
      rw [number?_eq_idxOf?, idxOf?_eq_none_iff]
      exact fun hmem => hapart _ hmem n.name (mem_singleton_self _) rfl
    have hregister : Natives.register functions.toArray n = (functions ++ [n]).toArray := by
      unfold register
      rw [hnone]
      exact push_toArray functions n
    rw [← hregister]
    exact .register n (ih hbefore)

theorem registered_standard : Natives.standard.Registered :=
  registered_of_nodup (by decide)

end Natives

/-! ## Code that engines generate -/

namespace Optimizer

theorem isPass_of_pass? {threshold : Nat} {name : Text} {pass : Pass}
    (h : pass? threshold name = some pass) : IsPass pass := by
  have hmem := mem_of_find?_eq_some h
  simp only [mem_cons, not_mem_nil, or_false] at hmem
  rcases hmem with rfl | rfl | rfl | rfl | rfl
  · exact .folding
  · exact .sharing
  · exact .pruning
  · exact .inlining threshold
  · exact .tailCalls

theorem isPass_of_passesNamed {threshold : Nat} {names : List Text} {passes : List Pass}
    (h : passesNamed threshold names = .ok passes) : ∀ pass ∈ passes, IsPass pass := by
  induction names generalizing passes with
  | nil =>
    cases h
    exact nofun
  | cons name rest ih =>
    unfold passesNamed at h
    split at h
    · cases h
    · rename_i pass hpass
      obtain ⟨others, hothers, rfl⟩ : ∃ others, passesNamed threshold rest = .ok others ∧
          pass :: others = passes := by
        cases hrest : passesNamed threshold rest with
        | error message =>
          rw [hrest] at h
          cases h
        | ok others =>
          rw [hrest] at h
          cases h
          exact ⟨others, rfl, rfl⟩
      exact forall_mem_cons.2 ⟨isPass_of_pass? hpass, ih hothers⟩

end Optimizer

theorem Options.isPass_of_optimizer {o : Options} {optimizer : Optimizer}
    (h : o.optimizer = .ok (some optimizer)) : ∀ pass ∈ optimizer.passes, IsPass pass := by
  unfold Options.optimizer at h
  split at h
  · cases hnamed : Optimizer.ofNames o.passes o.maxRounds o.inlineThreshold with
    | error message =>
      rw [hnamed] at h
      cases h
    | ok found =>
      rw [hnamed] at h
      cases h
      obtain ⟨passes, hpasses, heq⟩ := Program.except_bind_ok hnamed
      cases heq
      exact Optimizer.isPass_of_passesNamed hpasses
  · cases h

theorem Pass.validate_of_result? {pass : Pass} {q : Program} (h : pass.result? p = some q) :
    q.validate = .ok () := by
  unfold Pass.result? at h
  split at h
  · split at h
    · rename_i hok
      cases h
      cases hvalid : q.validate with
      | ok => rfl
      | error => rw [hvalid] at hok; cases hok
    · cases h
  · cases h

/-- What every pass keeps holds after any number of rounds. -/
theorem Pass.rounds_keeps {P : Program → Prop} {passes : List Pass}
    (h : ∀ pass ∈ passes, ∀ p q, P p → pass.result? p = some q → P q) (limit : Nat) :
    ∀ p, P p → P (rounds passes limit p) := by
  have hround : ∀ p, P p → P (round passes p).1 := by
    intro p hp
    refine List.foldlRecOn (motive := fun s : Program × Bool => P s.1) passes _ hp ?_
    intro s hs pass hpass
    dsimp only
    split
    · rename_i improved himproved
      exact h pass hpass s.1 improved hs himproved
    · exact hs
  induction limit with
  | zero => exact fun _ hp => hp
  | succ limit ih =>
    intro p hp
    have hstep := hround p hp
    unfold rounds
    split
    · rename_i improved hrun
      rw [hrun] at hstep
      exact ih improved hstep
    · rename_i improved hrun
      rw [hrun] at hstep
      exact hstep

/-- The code of a parsed program is valid. -/
theorem Script.valid_of_compile {natives : Text → Option Nat} {file name : Text}
    {tokens : List Token} {globals : Text → Bool} {script : Script}
    (hscript : script = (Script.parse file tokens).1)
    (h : script.compile natives name (script.resolve globals).1 = .ok p) : p.validate = .ok () := by
  subst hscript
  have hdistinct := Script.distinct_parse file tokens
  obtain ⟨units, hlaid⟩ := laidOut_of_compile (Script.serves_resolve globals _ hdistinct) h
  exact hlaid.validate_ok (Script.separate_resolve globals _ hdistinct)

namespace Reading

theorem file_read (e : Engine) (file source : Text) : (e.read file source).file = file := by
  unfold Engine.read Reading.resolve
  split
  · split <;> rfl
  · rfl

theorem source_read (e : Engine) (file source : Text) : (e.read file source).source = source := by
  unfold Engine.read Reading.resolve
  split
  · split <;> rfl
  · rfl

/-- The names of a program that is without problems have been resolved. -/
theorem resolve_of_isClean {r : Reading} {script : Script} {globals : Text → Bool}
    (hscript : r.script = some script) (h : (r.resolve globals).isClean = true) :
    (r.resolve globals).script = some script ∧
      (r.resolve globals).resolution = (script.resolve globals).1 := by
  unfold resolve at h ⊢
  simp only [hscript] at h ⊢
  by_cases hproblems : r.problems.isEmpty = true
  · rw [if_pos hproblems]
    exact ⟨rfl, rfl⟩
  · rw [if_neg hproblems] at h
    exact absurd (Bool.and_eq_true_iff.1 h).2 hproblems

end Reading

namespace Engine

variable {e : Engine}

/-- The code of a program is what the optimizer, if there is one, makes of compiled code. -/
theorem compiled_of_generate {r : Reading} (h : e.generate r = .ok p) :
    ∃ script code, r.script = some script ∧
      script.compile e.machine.natives.number? r.file r.resolution = .ok code ∧
      p = e.optimizer.elim code (·.optimize code) := by
  unfold generate at h
  split at h
  · cases h
  · rename_i script hscript
    split at h
    · cases h
    · cases h
    · rename_i code hcode
      refine ⟨script, code, hscript, hcode, ?_⟩
      split at h
      · rename_i optimizer hoptimizer
        cases h
        rw [hoptimizer]
        rfl
      · rename_i hoptimizer
        cases h
        rw [hoptimizer]
        rfl

/-- Of the host functions, only the names count for how programs are read. -/
theorem read_congr {e' : Engine} (h : e'.machine.natives.names = e.machine.natives.names)
    (file source : Text) : e'.read file source = e.read file source := by
  have hglobal : e'.isGlobal = e.isGlobal := funext fun name => by
    unfold isGlobal
    rw [Natives.number?_eq_idxOf?, Natives.number?_eq_idxOf?, h]
  unfold read
  rw [hglobal]

/-- Of the host functions, only the names count for the code. -/
theorem generate_congr {e e' : Engine} (hoptimizer : e'.optimizer = e.optimizer)
    (h : e'.machine.natives.names = e.machine.natives.names) (r : Reading) :
    e'.generate r = e.generate r := by
  have hnumber : e'.machine.natives.number? = e.machine.natives.number? := funext fun name => by
    rw [Natives.number?_eq_idxOf?, Natives.number?_eq_idxOf?, h]
  unfold generate
  rw [hnumber, hoptimizer]

/-- Code that was generated is valid, and only passes have changed it. -/
theorem sound_of_generate {file source : Text}
    (hpasses : ∀ optimizer ∈ e.optimizer, ∀ pass ∈ optimizer.passes, IsPass pass)
    (hclean : (e.read file source).isClean = true) (h : e.generate (e.read file source) = .ok p) :
    p.Built ∧ p.validate = .ok () := by
  obtain ⟨script, code, hscript, hcode, rfl⟩ := compiled_of_generate h
  obtain ⟨hparsed, hresolved⟩ := Reading.resolve_of_isClean
    (show (Reading.ofSource file source).script = some _ from rfl) hclean
  have hsame : script = (Script.parse file (Token.scan source).tokens).1 :=
    Option.some.inj (hscript.symm.trans hparsed)
  rw [show (e.read file source).resolution = (script.resolve e.isGlobal).1 by
    rw [hsame]; exact hresolved] at hcode
  have hvalid : code.validate = .ok () := Script.valid_of_compile hsame hcode
  have hbuilt : code.Built := .compiled hcode
  cases hoptimizer : e.optimizer with
  | none => exact ⟨hbuilt, hvalid⟩
  | some optimizer =>
    refine Pass.rounds_keeps (P := fun q => q.Built ∧ q.validate = .ok ()) ?_ _ code ⟨hbuilt, hvalid⟩
    rintro pass hpass q improved ⟨hq, -⟩ himproved
    exact ⟨.improved hq (hpasses optimizer hoptimizer pass hpass) himproved,
      Pass.validate_of_result? himproved⟩

end Engine

end Inkwell
