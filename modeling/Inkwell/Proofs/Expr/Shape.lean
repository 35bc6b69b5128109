import Inkwell.Expr.Parser

/-!
# The shape of expressions

Which trees can be read back from their tokens without brackets that are not in the tree. Two numbers
decide where an expression may stand:

* its *grip* is the precedence of the loosest operator that is met on the way from the expression to
  its first operand. Where operators tighter than `least` are read, exactly the expressions whose grip
  is above `least` can be read as one;
* its *reach* is the largest precedence that an operator right behind it may have without belonging to
  a part of it. The body of a function and the value of a definition go on as long as they can, so
  nothing can follow them.

A tree is well formed if every operand has the grip and the reach that its place asks for, and if every
node has a token that can stand for it (`Expr.WellFormed`). That operands of an operation are tight
enough is a consequence (`Expr.WellFormed.balanced`, `Expr.WellFormed.closed`).
-/

namespace Inkwell

open List

/-- Whether a kind of token is an operator between two operands of an operation. -/
def Kind.isInfix : Kind → Bool
  | or | xor | and | greater | less | equal | plus | minus | star | slash | percent => true
  | _ => false

namespace Parser

theorem lowest_le_precedence (kind : Kind) : lowest ≤ precedence kind := by
  cases kind <;> simp [precedence, lowest]

theorem precedence_le_dot (kind : Kind) : precedence kind ≤ precedence .dot := by
  cases kind <;> simp [precedence, lowest]

/-- Only operators bind anything. -/
theorem isInfix_of_lowest_lt {kind : Kind} (h : lowest < precedence kind) (hdefine : kind ≠ .define)
    (hchoose : kind ≠ .choose) (hcall : kind ≠ .openParen) (hdot : kind ≠ .dot) :
    kind.isInfix = true := by
  cases kind <;> first | rfl | contradiction

theorem choose_lt_of_isInfix {kind : Kind} (h : kind.isInfix = true) :
    precedence .choose < precedence kind := by
  cases kind <;> first | decide | cases h

/-- A token that carries no number is read as zero. -/
theorem numberOf_eq_iff {t : Token} {value : Number} : numberOf t = value ↔
    t.literal = some (.number value) ∨ value = ⟨0⟩ ∧ ∀ n, t.literal ≠ some (.number n) := by
  unfold numberOf
  split <;> simp_all [eq_comm]

/-- A token that carries no text is read as the empty one. -/
theorem textOf_eq_iff {t : Token} {value : Text} : textOf t = value ↔
    t.literal = some (.text value) ∨ value = "" ∧ ∀ s, t.literal ≠ some (.text s) := by
  unfold textOf
  split <;> simp_all [eq_comm]

end Parser

open Inkwell.Parser (precedence lowest negation entryKey)

namespace Expr

/-- The precedence of the loosest operator between an expression and its first operand; an operand
has none, and is tighter than every operator. -/
def grip : Expr → Nat
  | binary t left _ => min left.grip (precedence t.kind)
  | define _ target _ => min target.grip (precedence .define)
  | choose _ subject _ => min subject.grip (precedence .choose)
  | call _ callee _ => min callee.grip (precedence .openParen)
  | access _ container _ => min container.grip (precedence .dot)
  | _ => precedence .dot + 1

/-- The largest precedence of an operator that can follow an expression. -/
def reach : Expr → Nat
  | negate _ operand => min negation operand.reach
  | binary t _ right => min (precedence t.kind) right.reach
  | define .. | function .. => lowest
  | access _ _ key => key.reach
  | _ => precedence .dot

/-- The kind of the first token of an expression; the parameters of a function stand in
parentheses. -/
def opening : Expr → Kind
  | binary _ left _ | define _ left _ | access _ left _ | call _ left _ | choose _ left _ =>
    left.opening
  | function .. => .openParen
  | e => e.token.kind

/-- Whether an expression starts with a name or the wildcard, which mean something else in front of
a colon. -/
def startsWithName (e : Expr) : Prop := e.opening = .name ∨ e.opening = .wildcard

/-- A key that is the text of a name. -/
def IsNameKey : Expr → Prop
  | string t value => t.kind = .name ∧ value = t.lexeme
  | _ => False

/-- Whether an expression can stand behind a dot: a literal, or something in parentheses. -/
def FitsDot : Expr → Prop
  | number .. | string .. | group .. | function .. => True
  | empty t => t.kind = .openParen
  | _ => False

/-- Whether an expression is the wildcard, which is no pattern but stands for all of them. -/
def IsWildcard : Expr → Prop
  | empty t => t.kind = .wildcard
  | _ => False

end Expr

/-- A parameter can be written: as its name, as the wildcard, or as empty parentheses. -/
def Parameter.WellFormed (p : Parameter) : Prop :=
  (p.token.kind = .name ∧ p.name = p.token.lexeme) ∨
    ((p.token.kind = .wildcard ∨ p.token.kind = .openParen) ∧ p.name = "_")

mutual

/-- A tree that can be read back from its tokens. -/
def Expr.WellFormed : Expr → Prop
  | .number t value => t.kind = .number ∧
    (t.literal = some (.number value) ∨ value = ⟨0⟩ ∧ ∀ n, t.literal ≠ some (.number n))
  | .string t value => t.kind = .string ∧
    (t.literal = some (.text value) ∨ value = "" ∧ ∀ s, t.literal ≠ some (.text s))
  | .boolean t value => (t.kind = .yes ∨ t.kind = .no) ∧ decide (t.kind = .yes) = value
  | .empty t => t.kind = .wildcard ∨ t.kind = .openParen
  | .name t => t.kind = .name
  | .negate t operand => t.kind = .tilde ∧ operand.WellFormed ∧ negation < operand.grip
  | .binary t left right =>
    t.kind.isInfix = true ∧ left.WellFormed ∧ precedence t.kind ≤ left.reach ∧ right.WellFormed ∧
      precedence t.kind < right.grip
  | .define t target value =>
    t.kind = .define ∧ target.WellFormed ∧ precedence .define ≤ target.reach ∧ value.WellFormed
  | .access t container key =>
    t.kind = .dot ∧ container.WellFormed ∧ precedence .dot ≤ container.reach ∧
      (key.IsNameKey ∨ key.FitsDot ∧ key.WellFormed)
  | .call t callee arguments =>
    t.kind = .openParen ∧ callee.WellFormed ∧ precedence .openParen ≤ callee.reach ∧
      Expr.AllWellFormed arguments
  | .choose t subject arms =>
    t.kind = .choose ∧ subject.WellFormed ∧ precedence .choose ≤ subject.reach ∧
      Arm.AllWellFormed arms
  | .group t items => t.kind = .openParen ∧ items ≠ [] ∧ Expr.AllWellFormed items
  | .list t items => t.kind = .openBracket ∧ Expr.AllWellFormed items
  | .object t entries => t.kind = .openBrace ∧ Entry.AllWellFormed entries
  | .function t _ parameters body =>
    t.kind = .functionArrow ∧ (∀ p ∈ parameters, p.WellFormed) ∧ body.WellFormed

/-- Trees that can be read back from their tokens. -/
def Expr.AllWellFormed : List Expr → Prop
  | [] => True
  | e :: rest => e.WellFormed ∧ Expr.AllWellFormed rest

/-- Arms of a choice that can be read back from their tokens. -/
def Arm.AllWellFormed : List Arm → Prop
  | [] => True
  | .case t pattern body :: rest =>
    (t.kind = .arrow ∧ pattern.WellFormed ∧ ¬ pattern.IsWildcard ∧ body.WellFormed) ∧
      Arm.AllWellFormed rest
  | .otherwise t body :: rest => (t.kind = .arrow ∧ body.WellFormed) ∧ Arm.AllWellFormed rest

/-- Entries of an object that can be read back from their tokens. -/
def Entry.AllWellFormed : List Entry → Prop
  | [] => True
  | .mk key value :: rest =>
    ((key.IsNameKey ∨ (key.WellFormed ∧ entryKey < key.grip ∧ ¬ key.startsWithName)) ∧
      value.WellFormed) ∧ Entry.AllWellFormed rest

end

namespace Expr

variable {e : Expr}

theorem lowest_le_reach (e : Expr) : lowest ≤ e.reach := by
  fun_induction reach e with
  | case1 t operand ih => exact Nat.le_min.2 ⟨by decide, ih⟩
  | case2 t left right ih => exact Nat.le_min.2 ⟨Parser.lowest_le_precedence _, ih⟩
  | case5 t container key ih => exact ih
  | _ => decide

theorem allWellFormed_iff {es : List Expr} : AllWellFormed es ↔ ∀ e ∈ es, e.WellFormed := by
  induction es with
  | nil => simp [AllWellFormed]
  | cons e rest ih => simp [AllWellFormed, ih]

/-! ## Every part of a tree -/

/-- The expressions directly inside an expression, from left to right. -/
def children : Expr → List Expr
  | negate _ operand => [operand]
  | binary _ left right | define _ left right | access _ left right => [left, right]
  | call _ callee arguments => callee :: arguments
  | choose _ subject arms => subject :: arms.flatMap fun
    | .case _ pattern body => [pattern, body]
    | .otherwise _ body => [body]
  | group _ items | list _ items => items
  | object _ entries => entries.flatMap fun | .mk key value => [key, value]
  | function _ _ _ body => [body]
  | _ => []

/-- An expression is another one or somewhere inside it. -/
inductive IsPart : Expr → Expr → Prop
  | self (e : Expr) : IsPart e e
  | child {part child e : Expr} (mem : child ∈ e.children) (inside : IsPart part child) :
      IsPart part e

/-- The operand in front of the token of an operation, definition, choice, call or access. -/
def leftOperand? : Expr → Option Expr
  | binary _ left _ | define _ left _ | choose _ left _ | call _ left _ | access _ left _ => some left
  | _ => none

/-- Whether an expression is a definition. -/
def IsDefine : Expr → Prop
  | define .. => True
  | _ => False

/-- Whether an expression is a choice. -/
def IsChoice : Expr → Prop
  | choose .. => True
  | _ => False

/-- Whether an expression is a function. -/
def IsFunction : Expr → Prop
  | function .. => True
  | _ => False

/-- The precedence of an operation. -/
def operation? : Expr → Option Nat
  | binary t _ _ => some (precedence t.kind)
  | _ => none

/-- If an expression is an operation, its right operand binds tighter than it and its left operand at
least as tight; what stands on the right is no definition and no choice. -/
def Balanced : Expr → Prop
  | binary t left right =>
    ¬ right.IsDefine ∧ ¬ right.IsChoice ∧ (∀ q ∈ right.operation?, precedence t.kind < q) ∧
      ∀ q ∈ left.operation?, precedence t.kind ≤ q
  | _ => True

/-- No definition and no function is a left operand of the expression. -/
def Closed (e : Expr) : Prop := ∀ left ∈ e.leftOperand?, ¬ left.IsDefine ∧ ¬ left.IsFunction

theorem WellFormed.balanced (h : e.WellFormed) : e.Balanced := by
  cases e with
  | binary t left right =>
    rw [WellFormed] at h
    obtain ⟨hoperator, -, hreach, -, hgrip⟩ := h
    have hchoose := Parser.choose_lt_of_isInfix hoperator
    have hdefine : precedence .define < precedence .choose := by decide
    refine ⟨?_, ?_, ?_, ?_⟩
    · intro hright
      cases right <;> simp only [IsDefine] at hright
      simp only [grip] at hgrip
      omega
    · intro hright
      cases right <;> simp only [IsChoice] at hright
      simp only [grip] at hgrip
      omega
    · intro q hq
      cases right <;> simp only [operation?, Option.mem_def, Option.some.injEq, reduceCtorEq] at hq
      simp only [grip] at hgrip
      omega
    · intro q hq
      cases left <;> simp only [operation?, Option.mem_def, Option.some.injEq, reduceCtorEq] at hq
      simp only [reach] at hreach
      omega
  | _ => trivial

/-- An operand that some operator can follow is neither a definition nor a function. -/
theorem not_open_of_lowest_lt (h : lowest < e.reach) : ¬ e.IsDefine ∧ ¬ e.IsFunction := by
  constructor <;> intro hopen <;> cases e <;> simp only [IsDefine, IsFunction] at hopen
  all_goals exact Nat.lt_irrefl _ h

theorem WellFormed.closed (h : e.WellFormed) : e.Closed := by
  intro left hleft
  apply not_open_of_lowest_lt
  cases e with
  | binary t l r =>
    cases hleft
    rw [WellFormed] at h
    have hchoose := Parser.choose_lt_of_isInfix h.1
    have hlow : lowest < precedence .choose := by decide
    omega
  | define t l _ | choose t l _ | call t l _ | access t l _ =>
    cases hleft
    rw [WellFormed] at h
    exact Nat.lt_of_lt_of_le (by decide) h.2.2.1
  | _ => cases hleft

theorem IsNameKey.exists_string (h : e.IsNameKey) : ∃ t value, e = .string t value := by
  cases e <;> simp only [IsNameKey] at h
  exact ⟨_, _, rfl⟩

end Expr

/-- The patterns and bodies of well-formed arms are well formed. -/
theorem Arm.AllWellFormed.child {arms : List Arm} (h : Arm.AllWellFormed arms) {c : Expr}
    (hc : c ∈ arms.flatMap fun
      | .case _ pattern body => [pattern, body]
      | .otherwise _ body => [body]) : c.WellFormed := by
  induction arms with
  | nil => cases hc
  | cons arm rest ih =>
    rw [flatMap_cons, mem_append] at hc
    cases arm with
    | case t pattern body =>
      rw [Arm.AllWellFormed] at h
      rcases hc with hc | hc
      · simp only [mem_cons, not_mem_nil, or_false] at hc
        rcases hc with rfl | rfl
        · exact h.1.2.1
        · exact h.1.2.2.2
      · exact ih h.2 hc
    | otherwise t body =>
      rw [Arm.AllWellFormed] at h
      rcases hc with hc | hc
      · rw [mem_singleton] at hc
        exact hc ▸ h.1.2
      · exact ih h.2 hc

/-- The keys and values of well-formed entries are well formed, but for keys that are names. -/
theorem Entry.AllWellFormed.child {entries : List Entry} (h : Entry.AllWellFormed entries) {c : Expr}
    (hc : c ∈ entries.flatMap fun | .mk key value => [key, value]) :
    c.WellFormed ∨ c.IsNameKey := by
  induction entries with
  | nil => cases hc
  | cons entry rest ih =>
    obtain ⟨key, value⟩ := entry
    rw [flatMap_cons, mem_append] at hc
    rw [Entry.AllWellFormed] at h
    rcases hc with hc | hc
    · simp only [mem_cons, not_mem_nil, or_false] at hc
      rcases hc with rfl | rfl
      · exact h.1.1.elim .inr fun hkey => .inl hkey.1
      · exact .inl h.1.2
    · exact ih h.2 hc

namespace Expr

/-- What is directly inside a well-formed expression is well formed, but for keys that are names. -/
theorem WellFormed.child {e c : Expr} (h : e.WellFormed) (hc : c ∈ e.children) :
    c.WellFormed ∨ c.IsNameKey := by
  cases e with
  | negate t operand =>
    rw [WellFormed] at h
    rw [children, mem_singleton] at hc
    exact .inl (hc ▸ h.2.1)
  | binary t left right =>
    rw [WellFormed] at h
    simp only [children, mem_cons, not_mem_nil, or_false] at hc
    rcases hc with rfl | rfl
    · exact .inl h.2.1
    · exact .inl h.2.2.2.1
  | define t target value =>
    rw [WellFormed] at h
    simp only [children, mem_cons, not_mem_nil, or_false] at hc
    rcases hc with rfl | rfl
    · exact .inl h.2.1
    · exact .inl h.2.2.2
  | access t container key =>
    rw [WellFormed] at h
    simp only [children, mem_cons, not_mem_nil, or_false] at hc
    rcases hc with rfl | rfl
    · exact .inl h.2.1
    · exact h.2.2.2.elim .inr fun hkey => .inl hkey.2
  | call t callee arguments =>
    rw [WellFormed] at h
    rcases mem_cons.1 hc with rfl | hc
    · exact .inl h.2.1
    · exact .inl (allWellFormed_iff.1 h.2.2.2 c hc)
  | choose t subject arms =>
    rw [WellFormed] at h
    rcases mem_cons.1 hc with rfl | hc
    · exact .inl h.2.1
    · exact .inl (h.2.2.2.child hc)
  | group t items =>
    rw [WellFormed] at h
    exact .inl (allWellFormed_iff.1 h.2.2 c hc)
  | list t items =>
    rw [WellFormed] at h
    exact .inl (allWellFormed_iff.1 h.2 c hc)
  | object t entries =>
    rw [WellFormed] at h
    exact h.2.child hc
  | function t name parameters body =>
    rw [WellFormed] at h
    rw [children, mem_singleton] at hc
    exact .inl (hc ▸ h.2.2)
  | _ => cases hc

/-- Every part of a well-formed tree has its operands in the right places. -/
theorem WellFormed.part {e part : Expr} (h : e.WellFormed) (hpart : IsPart part e) :
    part.Balanced ∧ part.Closed := by
  have hname : ∀ {key : Expr}, key.IsNameKey → key.children = [] ∧ key.Balanced ∧ key.Closed := by
    intro key hkey
    obtain ⟨t, value, rfl⟩ := hkey.exists_string
    exact ⟨rfl, trivial, nofun⟩
  have hany : e.WellFormed ∨ e.IsNameKey := .inl h
  clear h
  induction hpart with
  | self => exact hany.elim (fun h => ⟨h.balanced, h.closed⟩) fun h => (hname h).2
  | @child child e mem inside ih =>
    rcases hany with h | h
    · exact ih (h.child mem)
    · rw [(hname h).1] at mem
      cases mem

end Expr

end Inkwell
