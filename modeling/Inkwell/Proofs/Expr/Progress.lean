import Mathlib
import Inkwell.Proofs.Expr.Distinct
import Inkwell.Proofs.Expr.ReadBack

/-!
# Reading comes to an end

The loops of the parser run for a number of rounds that is given in advance, but no list of tokens needs
them all. What a round does is said on its own, without rounds (`Parser.Turn`): it leaves the loop or goes
on. Each round that goes on has taken a token (`Parser.Advances`), so the loop is left by one of its rounds
(`Parser.Leaves`) and never because there are none left. This holds of every list of tokens, also of one
without an end, with an end in the middle, or with brackets that do not match.
-/

namespace Inkwell.Parser

variable {α σ ρ : Type} {tokens rest : List Token} {limit : Nat}

/-! ## Loops -/

/-- What a round of a loop comes to: the loop is left with a result, or it goes on. -/
inductive Turn (σ ρ : Type) where
  | leave (result : ρ)
  | goOn (s : σ) (rest : List Token)

/-- A loop is left with a result by one of its rounds. A loop that goes on for ever has no result. -/
inductive Leaves (round : σ → List Token → Turn σ ρ) : σ → List Token → ρ → Prop
  | now {s : σ} {tokens : List Token} {result : ρ} : round s tokens = .leave result →
    Leaves round s tokens result
  | later {s s' : σ} {tokens rest : List Token} {result : ρ} : round s tokens = .goOn s' rest →
    Leaves round s' rest result → Leaves round s tokens result

/-- The loop repeats the round, and every round that goes on has taken a token. -/
structure GoesForward (limit : Nat) (round : σ → List Token → Turn σ ρ) (loop : σ → Nat → List Token → ρ) :
    Prop where
  repeats : ∀ s rounds tokens, loop s (rounds + 1) tokens =
    match round s tokens with
    | .leave result => result
    | .goOn s' rest => loop s' rounds rest
  forward : ∀ s tokens s' rest, tokens.length ≤ limit → round s tokens = .goOn s' rest →
    rest.length < tokens.length

/-- Such a loop, and with more rounds than tokens it is left by a round. -/
structure Advances (limit : Nat) (round : σ → List Token → Turn σ ρ) (loop : σ → Nat → List Token → ρ) :
    Prop extends GoesForward limit round loop where
  leaves : ∀ s rounds tokens, tokens.length ≤ limit → tokens.length < rounds →
    Leaves round s tokens (loop s rounds tokens)

theorem GoesForward.advances {round : σ → List Token → Turn σ ρ} {loop : σ → Nat → List Token → ρ}
    (h : GoesForward limit round loop) : Advances limit round loop := by
  refine ⟨h, fun s rounds => ?_⟩
  induction rounds generalizing s with
  | zero => exact fun _ _ h => absurd h (Nat.not_lt_zero _)
  | succ rounds ih =>
    intro tokens hlimit hrounds
    rw [h.repeats]
    cases hround : round s tokens with
    | leave result => exact .now hround
    | goOn s' rest =>
      have hrest := h.forward s tokens s' rest hlimit hround
      exact .later hround (ih s' rest (by omega) (by omega))

/-- Whatever the reader gives for at most `limit` tokens, it has taken one. -/
def TakesOne (limit : Nat) (p : Parser α) : Prop :=
  ∀ tokens a rest, tokens.length ≤ limit → p tokens = .ok a rest → rest.length < tokens.length

/-- What is spelled by at least one token has taken one. -/
theorem takesOne_of_spec {p : Parser α} {spelling : α → List Token → Prop}
    (hspec : ∀ tokens, tokens.length ≤ limit →
      Spec p tokens fun a rest => ∃ ts, Takes tokens rest ts ∧ spelling a ts)
    (hne : ∀ a ts, spelling a ts → ts ≠ []) : TakesOne limit p := by
  intro tokens a rest hlimit hread
  have hp := hspec tokens hlimit
  rw [Spec, hread] at hp
  obtain ⟨-, ts, htakes, hspelled⟩ := hp
  exact htakes.length_lt (hne a ts hspelled)

/-- A round of a list: the end of the list, or one more element. -/
def listRound (one : Parser α) (close : Kind) (found : List α) (tokens : List Token) :
    Turn (List α) (Parsed (List α)) :=
  let tokens := tokens.dropWhile fun t => decide (t.kind = .separator)
  if (tokens.headD .missingEnd).kind = close then .leave (.ok found.reverse tokens.tail)
  else
    match one tokens with
    | .failed problem rest => .leave (.failed problem rest)
    | .ok item rest =>
      let token := rest.headD .missingEnd
      if token.kind = .separator || token.kind = close then .goOn (item :: found) rest
      else .leave (.failed { problem := .expected close token, position := token.position } rest)

/-- Where every element takes a token, so does every round that reads one. -/
theorem advances_listed {one : Parser α} (hone : TakesOne limit one) (close : Kind) :
    Advances limit (listRound one close) (listed one close) := by
  refine GoesForward.advances
    ⟨fun found rounds tokens => ?_, fun found tokens found' rest hlimit hround => ?_⟩
  · simp only [listed, listRound, bind, Parser.bind, skipSeparators, peek]
    generalize tokens.dropWhile (fun t => decide (t.kind = .separator)) = middle
    split
    · rfl
    cases hread : one middle with
    | failed problem rest => exact bind_of_failed hread _
    | ok item rest =>
      refine (bind_of_ok hread _).trans ?_
      simp only [Parser.bind, peek]
      split <;> rfl
  · have hskip := (List.dropWhile_suffix (l := tokens) fun t => decide (t.kind = .separator)).length_le
    unfold listRound at hround
    dsimp only at hround
    split_ifs at hround
    split at hround
    · cases hround
    rename_i item middle hread
    split_ifs at hround
    cases hround
    exact (hone _ item _ (hskip.trans hlimit) hread).trans_le hskip

/-! ## Operators -/

/-- A round of operators: one that binds tight enough with what follows it, or the end. -/
def operationsRound (limit : Nat) (sub : Nat → Parser Expr) (least : Nat) (left : Expr)
    (tokens : List Token) : Turn Expr (Parsed Expr) :=
  if least < pull tokens then
    match operation limit sub left tokens with
    | .ok e rest => .goOn e rest
    | .failed problem rest => .leave (.failed problem rest)
  else .leave (.ok left tokens)

section Operators

variable {sub : Nat → Parser Expr}
  (hsub : ∀ least tokens, lowest ≤ least → least ≤ precedence .dot → tokens.length ≤ limit →
    Spec (sub least) tokens fun e rest => Reads least tokens e rest ∧ pull rest ≤ least)

include hsub

theorem takesOne_sub {least : Nat} (hleast : lowest ≤ least) (hdot : least ≤ precedence .dot) :
    TakesOne limit (sub least) :=
  takesOne_of_spec (fun tokens hlimit => (hsub least tokens hleast hdot hlimit).imp
    fun _ _ _ h => h.1.spelled) fun _ _ => spelled_ne_nil

/-- An operator goes on behind its token. -/
theorem takesOne_operation (left : Expr) : TakesOne limit (operation limit sub left) := by
  intro tokens e rest hlimit hread
  cases tokens with
  | nil =>
    -- nothing is an operator, and no operand follows it
    cases hright : sub (precedence .finish) [] with
    | failed problem rest' => cases (bind_of_failed hright _).symm.trans hread
    | ok right rest' =>
      have hnone := takesOne_sub hsub (by decide) (by decide) [] right rest' (Nat.zero_le _) hright
      exact absurd hnone (Nat.not_lt_zero _)
  | cons t ts =>
    suffices hspec : Spec (operation limit sub left) (t :: ts) fun _ rest => rest <:+ ts by
      rw [Spec, hread] at hspec
      exact Nat.lt_succ_of_le hspec.2.length_le
    have hlater : ts.length ≤ limit := Nat.le_of_succ_le hlimit
    refine .bind (.take ?_)
    rw [List.headD_cons, List.tail_cons]
    split
    · exact .bind ((hsub lowest ts (Nat.le_refl _) (by decide) hlater).imp fun _ _ hrest _ => .pure hrest)
    · refine .bind (.expect (by decide) fun _ middle hmiddle _ => ?_)
      subst hmiddle
      rw [armsUpTo_eq]
      exact .bind ((listed_reads (by decide) (fun _ => arm_reads hsub) limit
        (Nat.le_of_succ_le hlater)).imp fun _ _ hrest _ => .pure (hrest.trans (List.suffix_cons _ _)))
    · exact .bind ((itemsUpTo_reads hsub (by decide) hlater).imp fun _ _ hrest _ => .pure hrest)
    · exact .bind ((accessKey_reads hsub hlater).imp fun _ _ hrest _ => .pure hrest)
    · exact .bind ((hsub _ ts (lowest_le_precedence _) (precedence_le_dot _) hlater).imp
        fun _ _ hrest _ => .pure hrest)

theorem advances_operations (least : Nat) :
    Advances limit (operationsRound limit sub least) (operations limit sub least) := by
  refine GoesForward.advances ⟨fun left rounds tokens => ?_, fun left tokens e rest hlimit hround => ?_⟩
  · by_cases hpull : least < pull tokens
    · refine (congrFun (if_pos hpull) tokens).trans ?_
      rw [operationsRound, if_pos hpull]
      cases hread : operation limit sub left tokens with
      | failed problem rest => exact bind_of_failed hread _
      | ok e rest => exact bind_of_ok hread _
    · rw [operationsRound, if_neg hpull]
      exact congrFun (if_neg hpull) tokens
  · unfold operationsRound at hround
    split_ifs at hround
    split at hround <;> cases hround
    rename_i hread
    exact takesOne_operation hsub left tokens _ _ hlimit hread

end Operators

/-! ## Programs -/

theorem length_resume_lt {depth : Nat} {t : Token} {ts : List Token} (ht : t.kind ≠ .finish) :
    (resume depth (t :: ts)).length < (t :: ts).length := by
  have hlater : ∀ depth, (resume depth ts).length < (t :: ts).length := fun depth =>
    Nat.lt_succ_of_le (resume_suffix ts depth).length_le
  unfold resume
  split
  · contradiction
  all_goals first
    | exact hlater _
    | split
      · exact Nat.lt_succ_self _
      · exact hlater _

/-- A problem is found at the first token or behind it, and reading goes on behind that token. -/
theorem length_resume_of_suffix {t : Token} {ts : List Token} (hrest : rest <:+ t :: ts)
    (ht : t.kind ≠ .finish) : (resume 0 rest).length < (t :: ts).length := by
  rcases hrest.length_le.lt_or_eq with hlt | heq
  · exact (resume_suffix rest 0).length_le.trans_lt hlt
  · rw [hrest.eq_of_length heq]
    exact length_resume_lt ht

/-- A round of a program: its end, a separator, or an expression. -/
def programRound (limit : Nat) (found : List Expr × List Diagnostic) (tokens : List Token) :
    Turn (List Expr × List Diagnostic) (List Expr × List Diagnostic) :=
  let token := tokens.headD .missingEnd
  if token.kind = .finish then .leave (found.1.reverse, found.2.reverse)
  else if token.kind = .separator then .goOn found tokens.tail
  else
    match expression limit maxDepth lowest tokens with
    | .ok item rest =>
      let next := rest.headD .missingEnd
      if next.kind = .separator || next.kind = .finish then .goOn (item :: found.1, found.2) rest
      else
        let problem := { problem := .unexpectedAfter next, position := next.position }
        .goOn (item :: found.1, problem :: found.2) (resume 0 rest)
    | .failed problem rest => .goOn (found.1, problem :: found.2) (resume 0 rest)

/-- Whatever is found in a program, reading goes on behind it. -/
theorem advances_itemsFrom (limit : Nat) :
    Advances limit (programRound limit) fun found => itemsFrom limit found.1 found.2 := by
  refine GoesForward.advances
    ⟨fun found rounds tokens => ?_, fun found tokens found' rest hlimit hround => ?_⟩
  · rw [itemsFrom, programRound]
    dsimp only
    split_ifs
    · rfl
    · rfl
    · cases expression limit maxDepth lowest tokens with
      | ok item rest => dsimp only; split_ifs <;> rfl
      | failed problem rest => rfl
  cases tokens with
  | nil => cases hround
  | cons t ts =>
  unfold programRound at hround
  dsimp only [List.headD_cons, List.tail_cons] at hround
  split_ifs at hround with hfinish hseparator
  · cases hround
    exact Nat.lt_succ_self _
  have hspec := expression_reads maxDepth lowest (t :: ts) (Nat.le_refl _) (by decide) hlimit
  unfold Spec at hspec
  cases hread : expression limit maxDepth lowest (t :: ts) with
  | failed problem rest =>
    rw [hread] at hspec hround
    cases hround
    exact length_resume_of_suffix hspec hfinish
  | ok item rest =>
    rw [hread] at hspec hround
    dsimp only at hround
    split at hround <;> cases hround
    · exact takesOne_sub (expression_reads maxDepth) (Nat.le_refl lowest) (by decide) _ _ _ hlimit hread
    · exact length_resume_of_suffix hspec.1 hfinish

/-- One level of expressions around those that `sub` reads. -/
def level (limit : Nat) (sub : Nat → Parser Expr) (least : Nat) : Parser Expr := do
  let left ← operand limit sub
  operations limit sub least left limit

/-- Every loop of the parser advances, and so does the way on behind a problem. The rounds of a loop are as
many as there were tokens in front of the bracket or the operand that it starts behind. Expressions are
read by as many levels around one another as are allowed, and inside the last of them nothing is read. -/
structure Ends (limit : Nat) : Prop where
  items : ∀ depth close, Advances limit (listRound (expression limit depth lowest) close)
    (itemsUpTo (expression limit depth) close)
  entries : ∀ depth, Advances limit (listRound (entry (expression limit depth)) .closeBrace)
    (entriesUpTo (expression limit depth))
  arms : ∀ depth, Advances limit (listRound (arm (expression limit depth)) .closeBrace)
    (armsUpTo (expression limit depth))
  operand : ∀ depth, TakesOne limit (operand limit (expression limit depth))
  operations : ∀ depth least, Advances limit (operationsRound limit (expression limit depth) least)
    (operations limit (expression limit depth) least)
  program : Advances limit (programRound limit) fun found => itemsFrom limit found.1 found.2
  resume : ∀ depth tokens, resume depth tokens <:+ tokens ∧
    ((tokens.headD .missingEnd).kind ≠ .finish → (resume depth tokens).length < tokens.length)
  levels : ∀ depth, expression limit depth = (level limit)^[depth] fun _ => do
    fail .tooDeep (← peek)

theorem ends (limit : Nat) : Ends limit where
  items depth close := by
    have hitems := funext fun items => funext (itemsUpTo_eq (expression limit depth) close items)
    exact hitems ▸ advances_listed (takesOne_sub (expression_reads depth) (by decide) (by decide)) close
  entries depth := by
    have hentries := funext fun entries => funext (entriesUpTo_eq (expression limit depth) entries)
    refine hentries ▸ advances_listed (takesOne_of_spec (fun _ => entry_reads (expression_reads depth)) ?_) _
    rintro a ts ⟨hspelled, -⟩
    cases hspelled
    simp
  arms depth := by
    have harms := funext fun arms => funext (armsUpTo_eq (expression limit depth) arms)
    refine harms ▸ advances_listed (takesOne_of_spec (fun _ => arm_reads (expression_reads depth)) ?_) _
    rintro a ts ⟨hspelled, -⟩
    cases hspelled <;> simp
  operand depth := takesOne_of_spec (fun _ hlimit => (operand_reads (expression_reads depth) hlimit).imp
    fun _ _ _ h => h.spelled) fun _ _ => spelled_ne_nil
  operations depth least := advances_operations (expression_reads depth) least
  program := advances_itemsFrom limit
  resume depth tokens := by
    refine ⟨resume_suffix tokens depth, fun hfinish => ?_⟩
    cases tokens with
    | nil => exact absurd rfl hfinish
    | cons t ts => exact length_resume_lt hfinish
  levels depth := by
    induction depth with
    | zero => rfl
    | succ depth ih =>
      rw [Function.iterate_succ_apply', ← ih]
      rfl

end Inkwell.Parser

/-- Every list of tokens is parsed to its end: every loop is left by one of its rounds, and what has been
read when the loop of the program is left is the program. -/
theorem Inkwell.Script.parse_ends (file : Text) (tokens : List Token) :
    let all := Token.numbered (Parser.completed tokens)
    Parser.Ends all.length ∧ Parser.Leaves (Parser.programRound all.length) ([], []) all
      ((Script.parse file tokens).1.items, (Script.parse file tokens).2) :=
  ⟨Parser.ends _, (Parser.advances_itemsFrom _).leaves _ _ _ (Nat.le_refl _) (Nat.lt_succ_self _)⟩
