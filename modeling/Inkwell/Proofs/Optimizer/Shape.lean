import Mathlib
import Inkwell.Proofs.Optimizer.Passes

/-!
# The shape of optimized programs

Passes improve blocks and leave the tree of a program as it is: there are as many blocks as before, at
the same places, and the same blocks are nested in each. So what is known about the order of the blocks
of compiled code holds behind any number of passes.
-/

namespace Inkwell

namespace Program

/-- Two programs have as many blocks, and those at the same place have the same nested blocks. -/
structure SameShape (q p : Program) : Prop where
  size : q.blocks.size = p.blocks.size
  nesting : ∀ place, (q.block place).SameNesting (p.block place)

namespace SameShape

variable {p q : Program}

theorem placesFrom_eq (h : q.SameShape p) (levels place : Nat) :
    q.placesFrom levels place = p.placesFrom levels place := by
  induction levels generalizing place with
  | zero => rfl
  | succ levels ih =>
    rw [placesFrom_succ, placesFrom_succ, (h.nesting place).children, funext ih]

theorem places_eq (h : q.SameShape p) : q.places = p.places := by
  unfold places
  rw [h.size, h.placesFrom_eq]

theorem ordered (h : q.SameShape p) (hp : p.Ordered) : q.Ordered where
  hasRoot := h.size ▸ hp.hasRoot
  nested place hplace child hchild := by
    rw [(h.nesting place).children] at hchild
    rw [h.size] at hplace ⊢
    exact hp.nested place hplace child hchild

/-- One block is exchanged for another with the same nested blocks. -/
theorem set (h : q.SameShape p) {place : Nat} {b : Block} (hb : b.SameNesting (q.block place)) :
    SameShape ⟨q.blocks.setIfInBounds place b⟩ p where
  size := Array.size_setIfInBounds.trans h.size
  nesting other := by
    refine Block.SameNesting.trans ?_ (h.nesting other)
    unfold block at hb ⊢
    rw [Array.getElem?_setIfInBounds]
    split_ifs with hother hlt
    · exact hother ▸ hb
    · rw [← hother, Array.getElem?_eq_none (Nat.not_lt.1 hlt)]
      exact .refl _
    · exact .refl _

end SameShape

end Program

theorem IsPass.sameShape {pass : Pass} (h : IsPass pass) {p q : Program}
    (hp : ∀ b ∈ p.blocks, b.Tidy ∧ b.TailSafe) (hq : pass.result? p = some q) : q.SameShape p := by
  -- along the walk the blocks stay tidy, which inlining relies on
  refine (@Pass.result?_keeps pass
    (fun s => (∀ b ∈ s.blocks, b.Tidy ∧ b.TailSafe) ∧ s.SameShape p) ?_ p q ⟨hp, rfl, fun _ => .refl _⟩ hq).2
  rintro s place improved changed ⟨htidy, hshape⟩ hrun
  exact ⟨h.keeps.set ⟨.default, .default⟩ htidy hrun,
    hshape.set (h.nesting (fun b hb => (htidy b hb).1) hrun)⟩

namespace Program.Built

variable {p : Program}

/-- The blocks of a program form a tree whose root is the first, whatever passes it went through. -/
theorem ordered (h : p.Built) : p.Ordered := by
  induction h with
  | compiled h => exact .of_compile h
  | improved hp hpass h ih => exact (hpass.sameShape hp.inOrder h).ordered ih

/-- A walk of a program finds the blocks in the order of their places, whatever passes it went
through. -/
theorem places_eq (h : p.Built) : p.places = List.range p.blocks.size := by
  induction h with
  | compiled h => exact Program.places_of_compile h
  | improved hp hpass h ih =>
    have hshape := hpass.sameShape hp.inOrder h
    rw [hshape.places_eq, hshape.size, ih]

end Program.Built

end Inkwell
