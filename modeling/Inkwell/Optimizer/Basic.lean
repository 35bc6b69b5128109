import Inkwell.Optimizer.Folding
import Inkwell.Optimizer.Inlining
import Inkwell.Optimizer.Pruning
import Inkwell.Optimizer.Sharing
import Inkwell.Optimizer.TailCalls
import Inkwell.Text.Quoted

/-!
# The optimizer

A list of passes and how often to repeat them.
-/

namespace Inkwell

structure Optimizer where
  passes : List Pass
  maxRounds : Nat

namespace Optimizer

def defaultPasses : List Text := ["constprop", "cse", "inline", "dce", "tailcall"]

def defaultRounds : Nat := 8

def defaultThreshold : Nat := 16

def pass? (threshold : Nat) (name : Text) : Option Pass :=
  [Folding.pass, Sharing.pass, Pruning.pass, Inlining.pass threshold, TailCalls.pass].find?
    (·.name == name)

def passesNamed (threshold : Nat) : List Text → Except Text (List Pass)
  | [] => .ok []
  | name :: rest =>
    match pass? threshold name with
    | none => .error ("unknown optimizer pass " ++ name.quoted)
    | some pass => (passesNamed threshold rest).map (pass :: ·)

/-- A positive number as it is, any other one replaced by a default. -/
def positiveOr (default : Nat) (n : Int) : Nat := if n ≤ 0 then default else n.toNat

def ofNames (names : Option (List Text)) (maxRounds threshold : Int) : Except Text Optimizer := do
  let passes ← passesNamed (positiveOr defaultThreshold threshold) (names.getD defaultPasses)
  return { passes, maxRounds := positiveOr defaultRounds maxRounds }

def optimize (o : Optimizer) (p : Program) : Program := Pass.rounds o.passes o.maxRounds p

end Optimizer

end Inkwell
