import Mathlib
import Inkwell.Proofs.Machine.FrameReuse

/-!
# Machines in step

When each round on a machine without owners leads to the same with other blocks, whole runs on fresh
machines do too, whatever the limit on frames is: they come to the same value or fail with the same
message at the same position, or neither comes to an end, with the same output and the same highest
number of frames (`SameRun`). A run that has too many frames has them in the same round.
-/

namespace Inkwell

/-- Two runs have come equally far: both go on, or they have ended in the same way, with the same
output and the same highest number of frames. A program that cannot even start fails without a
position. -/
structure SameRun (result result' : EStateM.Result Failure Machine Value) : Prop where
  same : Beside result result' ∨ ∃ cause m m', result = .error (.fault cause) m ∧
    result' = .error (.fault cause) m' ∧ m.store.output = m'.store.output
  peak : (Machine.left result).peak = (Machine.left result').peak

variable {g : Block → Block}

/-- Rounds that lead to the same with other blocks, as long as something holds that every round
keeps. -/
structure Plain.InStep (g : Block → Block) (I : Plain → Prop) : Prop where
  turn : ∀ s, I s → (s.recode g).turn = s.turn.recode g
  keeps : ∀ s t, I s → s.turn = .goesOn t → I t

section Runs

variable {I : Plain → Prop}

theorem Plain.length_recode (s : Plain) : (s.recode g).frames.length = s.frames.length :=
  List.length_map _

theorem Plain.position_recode (hg : Recoding g) (s : Plain) : (s.recode g).position = s.position := by
  obtain ⟨s, frames⟩ := s
  cases frames with
  | nil => rfl
  | cons f below =>
    show ((g f.block).code[f.counter]?.map Instruction.position).getD {} = _
    rw [(hg.resembles f.block).positions f.counter]
    rfl

theorem Plain.Round.within_recode (hg : Recoding g) (limit : Nat) (s : Plain) (round : Round) :
    (round.recode g).within limit (s.recode g) = (round.within limit s).recode g := by
  cases round with
  | goesOn t =>
    show within limit (s.recode g) (.goesOn (t.recode g)) = (within limit s (.goesOn t)).recode g
    rw [within, within, t.length_recode, s.position_recode hg]
    split <;> rfl
  | ended result t => rfl
  | failed failure position t => rfl

/-- Within every limit, runs lead to the same with other blocks. -/
theorem Plain.InStep.runWithin (hg : Recoding g) (hI : InStep g I) (limit n : Nat) {s : Plain}
    (hs : I s) : (s.recode g).runWithin limit n = (s.runWithin limit n).recode g := by
  induction n generalizing s with
  | zero => rfl
  | succ n ih =>
    rw [Plain.runWithin, Plain.runWithin, hI.turn s hs, Round.within_recode hg]
    cases hturn : s.turn with
    | goesOn t =>
      rw [Round.within]
      split
      · exact ih (hI.keeps s t hs hturn)
      · rfl
    | ended result t => rfl
    | failed failure position t => rfl

theorem Plain.InStep.height (hI : InStep g I) (n : Nat) {s : Plain} (hs : I s) :
    (s.recode g).height n = s.height n := by
  induction n generalizing s with
  | zero => exact s.length_recode
  | succ n ih =>
    rw [Plain.height, Plain.height, hI.turn s hs, s.length_recode]
    cases hturn : s.turn with
    | goesOn t => exact congrArg (max s.frames.length) (ih (hI.keeps s t hs hturn))
    | ended result t => rfl
    | failed failure position t => rfl

theorem Plain.Round.alike_recode (round : Plain.Round) : Alike round (round.recode g) := by
  cases round with
  | goesOn s => exact .goesOn rfl
  | ended result s => exact .ended result rfl rfl
  | failed failure position s => exact .failed failure position rfl

end Runs

theorem Plain.start_recode (hg : Recoding g) {p q : Program} (hq : q.blocks = p.blocks.map g)
    {output : Output} : Plain.start output q = (Plain.start output p).recode g := by
  have hroot : q.root = g p.root := by
    show q.blocks[0]?.getD default = g (p.blocks[0]?.getD default)
    rw [hq, Array.getElem?_map]
    cases p.blocks[0]? with
    | none => exact hg.default.symm
    | some b => rfl
  unfold Plain.start
  rw [hroot, Plain.begin_recode hg, hq]
  rfl

/-- A program and the program of other blocks run in step. -/
theorem Program.sameRun_recode (hg : Recoding g) {I : Plain → Prop} (hI : Plain.InStep g I)
    {p q : Program} (hq : q.blocks = p.blocks.map g) (hp : ∀ b ∈ p.blocks, b.Tidy)
    (hp' : ∀ b ∈ q.blocks, b.Tidy) (hstart : ∀ output, I (Plain.start output p)) (output : Output)
    (limit fuel : Nat) :
    SameRun (Machine.perform fuel (.run p) (Machine.fresh output limit))
      (Machine.perform fuel (.run q) (Machine.fresh output limit)) := by
  cases fuel with
  | zero => exact ⟨.inl (.inl ⟨_, _, rfl, rfl, rfl⟩), rfl⟩
  | succ fuel =>
    rcases Nat.eq_zero_or_pos limit with rfl | hlimit
    · obtain ⟨m, hm, houtput, hpeak⟩ := Machine.perform_fresh_zero hp output fuel
      obtain ⟨m', hm', houtput', hpeak'⟩ := Machine.perform_fresh_zero hp' output fuel
      rw [hm, hm']
      exact ⟨.inr ⟨_, m, m', rfl, rfl, houtput.trans houtput'.symm⟩, hpeak.trans hpeak'.symm⟩
    · obtain ⟨hran, hpeak⟩ := Machine.ran_fresh hp output hlimit fuel
      obtain ⟨hran', hpeak'⟩ := Machine.ran_fresh hp' output hlimit fuel
      rw [Plain.start_recode hg hq, hI.runWithin hg limit fuel (hstart output)] at hran'
      rw [Plain.start_recode hg hq, hI.height fuel (hstart output)] at hpeak'
      exact ⟨.inl (hran.beside hran' (Plain.Round.alike_recode _)), hpeak.trans hpeak'.symm⟩

end Inkwell
