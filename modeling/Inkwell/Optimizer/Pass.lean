import Inkwell.Code.Valid

/-!
# Passes

A pass improves the blocks of a program one at a time, each before the blocks nested in it. What a
pass gives is used only if it has changed something and left a valid program; a pass that meets a
block that is not well formed is declined as a whole.
-/

namespace Inkwell

/-- A way to improve a block of a program: the new block, and whether it differs. There is none if
the block is not well formed. -/
structure Pass where
  name : Text
  run : Program → Block → Option (Block × Bool)

namespace Pass

/-- The program with one block improved, and whether any block differs so far. -/
def improve (pass : Pass) : Program × Bool → Nat → Option (Program × Bool)
  | (p, changed), place => do
    let (b, differs) ← pass.run p (p.block place)
    return (⟨p.blocks.setIfInBounds place b⟩, changed || differs)

/-- The program improved by a pass, if the pass changes it and is not declined. -/
def result? (pass : Pass) (p : Program) : Option Program :=
  match p.places.foldlM pass.improve (p, false) with
  | some (improved, true) => if improved.validate.isOk then some improved else none
  | _ => none

/-- The program after one round of passes, and whether any of them changed it. -/
def round (passes : List Pass) (p : Program) : Program × Bool :=
  passes.foldl (fun (p, changed) pass =>
    match pass.result? p with
    | some improved => (improved, true)
    | none => (p, changed)) (p, false)

/-- The program after rounds of passes, until one changes nothing or there were `limit`. -/
def rounds (passes : List Pass) : Nat → Program → Program
  | 0, p => p
  | limit + 1, p =>
    match round passes p with
    | (p, true) => rounds passes limit p
    | (p, false) => p

end Pass

end Inkwell
