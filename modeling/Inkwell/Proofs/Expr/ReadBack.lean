import Mathlib
import Inkwell.Proofs.Expr.Written

/-!
# Well-formed trees are read back

The parser gives back every well-formed tree that is not nested too deep.

What may follow an expression decides where its reading stops, so the statement about an expression is
about all tokens that may follow it (`Expr.ReadsBack`): the loop over operators comes to the place
behind the expression with the whole expression as its left operand. In that form it can be proved
along the tree, since a left operand is what the loop has read before the next operator.
-/

namespace Inkwell

open List Token Inkwell.Parser

variable {kind : Kind} {rest ts : List Token} {c t : Token} {depth least limit : Nat}
  {body e k left : Expr}

/-- A kind of token that closes a list. -/
def Kind.closes : Kind → Bool
  | closeParen | closeBracket | closeBrace => true
  | _ => false

theorem Kind.ne_of_starts {kind' : Kind} (h : kind.starts = true) (h' : kind'.starts = false) :
    kind ≠ kind' := by
  rintro rfl
  exact absurd (h.symm.trans h') (by decide)

theorem Kind.starts_of_closes (h : kind.closes = true) : kind.starts = false := by
  cases kind <;> first | rfl | cases h

theorem Kind.ne_separator_of_closes (h : kind.closes = true) : kind ≠ .separator := by
  rintro rfl
  cases h

namespace Parser

section Steps

variable {α β : Type} {tokens rest : List Token} {t : Token}

theorem bind_of_ok {p : Parser α} {a : α} (h : p tokens = .ok a rest) (f : α → Parser β) :
    (p >>= f) tokens = f a rest := by
  show Parser.bind p f tokens = f a rest
  rw [Parser.bind, h]

theorem bind_of_failed {p : Parser α} {d : Diagnostic} (h : p tokens = .failed d rest)
    (f : α → Parser β) : (p >>= f) tokens = .failed d rest := by
  show Parser.bind p f tokens = _
  rw [Parser.bind, h]

theorem bind_peek (f : Token → Parser β) : (peek >>= f) (t :: rest) = f t (t :: rest) := rfl

theorem bind_take (f : Token → Parser β) : (take >>= f) (t :: rest) = f t rest := rfl

theorem expect_of_kind (h : t.kind = kind) : expect kind (t :: rest) = .ok t rest := by
  rw [expect, bind_peek, if_pos h]
  rfl

theorem skipSeparators_of_ne (h : t.kind ≠ .separator) :
    skipSeparators (t :: rest) = .ok () (t :: rest) := by
  rw [skipSeparators, dropWhile_cons_of_neg (by simpa using h)]

/-- Reading stops where nothing binds tight enough. -/
theorem operations_of_pull_le {sub : Nat → Parser Expr} (left : Expr) (h : pull tokens ≤ least)
    (rounds : Nat) :
    operations limit sub least left rounds tokens = .ok left tokens := by
  cases rounds with
  | zero => rfl
  | succ rounds =>
    show (ite (least < pull tokens) _ _ : Parser Expr) tokens = _
    rw [if_neg (Nat.not_lt.2 h)]
    rfl

/-- Reading goes on with an operator that binds tight enough. -/
theorem operations_of_lt {sub : Nat → Parser Expr} (h : least < precedence t.kind)
    (he : operation limit sub left (t :: tokens) = .ok e rest) (rounds : Nat) :
    operations limit sub least left (rounds + 1) (t :: tokens) =
      operations limit sub least e rounds rest := by
  rw [operations, bind_peek, if_pos h, bind_of_ok he]

end Steps

/-- What may follow an expression: an operator that binds at most as tight as `most`, or no operator;
the arrow of a function would turn what stands before it into parameters. -/
structure Follows (most : Nat) (rest : List Token) : Prop where
  pull_le : pull rest ≤ most
  not_arrow : (rest.headD .missingEnd).kind ≠ .functionArrow

theorem Follows.mono {most most' : Nat} (h : Follows most rest) (hmost : most ≤ most') :
    Follows most' rest :=
  ⟨Nat.le_trans h.pull_le hmost, h.not_arrow⟩

theorem Follows.of_kind {most : Nat} (h : t.kind = kind) (hmost : precedence kind ≤ most)
    (harrow : kind ≠ .functionArrow) : Follows most (t :: rest) :=
  ⟨by rw [pull, headD_cons, h]; exact hmost, by rw [headD_cons, h]; exact harrow⟩

theorem Follows.of_closes (h : t.kind.closes = true) :
    Follows lowest (t :: rest) := by
  generalize hkind : t.kind = kind at h
  cases kind with
  | closeParen | closeBracket | closeBrace => exact .of_kind hkind (by decide) (by decide)
  | _ => cases h

/-! ## Lists -/

section Lists

variable {α : Type} {one : Parser α} {close : Kind} {written : α → List Token} {bare : α → α}
  {limit : Nat}

/-- A separator in front of a list is skipped. -/
theorem listed_separator {found : List α} {t : Token} (h : t.kind = .separator) (rounds : Nat)
    (tokens : List Token) :
    listed one close found (rounds + 1) (t :: tokens) = listed one close found (rounds + 1) tokens := by
  have hskip : skipSeparators (t :: tokens) = skipSeparators tokens := by
    rw [skipSeparators, dropWhile_cons_of_pos (by simpa using h)]
    rfl
  rw [listed]
  show Parser.bind skipSeparators _ (t :: tokens) = Parser.bind skipSeparators _ tokens
  rw [Parser.bind, Parser.bind, hskip]

/-- A reader gives back one element of a list, when a separator or the end of the list follows. -/
def ReadsOne (limit : Nat) (one : Parser α) (written : α → List Token) (bare : α → α) (a : α) : Prop :=
  (∃ t ts, written a = t :: ts ∧ t.kind.starts = true) ∧
    ∀ ts rest, Alike ts (written a) → Follows lowest rest → (ts ++ rest).length ≤ limit →
      ∃ a', bare a' = bare a ∧ one (ts ++ rest) = .ok a' rest

/-- Behind the elements of a list stands a separator or the closing bracket. -/
theorem listed_next {as : List α} {ts : List Token} {c : Token} (rest : List Token)
    (hts : Alike ts (as.flatMap fun a => Token.ofKind .separator :: written a)) :
    ∃ u us, ts ++ c :: rest = u :: us ∧ (u.kind = .separator ∨ u.kind = c.kind) := by
  cases as with
  | nil =>
    rw [hts.eq_nil]
    exact ⟨c, rest, rfl, .inr rfl⟩
  | cons a as =>
    rw [flatMap_cons, cons_append] at hts
    obtain ⟨s, ts, rfl, hs, -⟩ := hts.cons_inv
    exact ⟨s, _, rfl, .inl (kind_of_bare hs)⟩

/-- Elements with a separator in front of each are read back one by one. -/
theorem listed_back (hclose : close.closes = true) {as : List α}
    (h : ∀ a ∈ as, ReadsOne limit one written bare a) {found : List α} {rounds : Nat}
    {ts : List Token} {c : Token} {rest : List Token}
    (hts : Alike ts (as.flatMap fun a => Token.ofKind .separator :: written a)) (hc : c.kind = close)
    (hlimit : (ts ++ c :: rest).length ≤ limit + 1) (hrounds : ts.length ≤ rounds ∧ 0 < rounds) :
    ∃ as', as'.map bare = as.map bare ∧
      listed one close found rounds (ts ++ c :: rest) = .ok (found.reverse ++ as') rest := by
  induction as generalizing found rounds ts with
  | nil =>
    obtain ⟨rounds, rfl⟩ := Nat.exists_eq_succ_of_ne_zero (Nat.ne_of_gt hrounds.2)
    have hne : c.kind ≠ .separator := hc ▸ Kind.ne_separator_of_closes hclose
    rw [hts.eq_nil, nil_append, listed, bind_of_ok (skipSeparators_of_ne hne), bind_peek,
      if_pos hc, bind_take]
    exact ⟨[], rfl, by rw [append_nil]; rfl⟩
  | cons a as ih =>
    obtain ⟨⟨u, us, hwritten, hu⟩, hone⟩ := h a mem_cons_self
    rw [flatMap_cons, cons_append] at hts
    obtain ⟨s, ts, rfl, hs, hts⟩ := hts.cons_inv
    obtain ⟨part, ts, rfl, hpart, hlater⟩ := hts.append_inv
    obtain ⟨v, vs, hnext, hv⟩ := @listed_next _ _ _ _ c rest hlater
    have hfollows : Follows lowest (ts ++ c :: rest) := by
      rw [hnext]
      rcases hv with hv | hv
      · exact .of_kind hv (by decide) (by decide)
      · exact .of_closes (by rw [hv, hc]; exact hclose)
    simp only [length_cons, length_append] at hlimit hrounds
    obtain ⟨a', ha', hread⟩ := hone part (ts ++ c :: rest) hpart hfollows (by simp; omega)
    rw [hwritten] at hpart
    obtain ⟨p, part, rfl, hp, -⟩ := hpart.cons_inv
    have hstarts : p.kind.starts = true := kind_of_bare hp ▸ hu
    obtain ⟨rounds, rfl⟩ := Nat.exists_eq_succ_of_ne_zero (Nat.ne_of_gt hrounds.2)
    obtain ⟨as', has', hrest⟩ := @ih (fun b hb => h b (mem_cons_of_mem _ hb)) (a' :: found)
      rounds ts hlater (by simp; omega) (by simp at hrounds; omega)
    refine ⟨a' :: as', by rw [map_cons, map_cons, ha', has'], ?_⟩
    have hne : p.kind ≠ close := Kind.ne_of_starts hstarts (Kind.starts_of_closes hclose)
    calc listed one close found (rounds + 1) (s :: (p :: part ++ ts) ++ c :: rest)
        = listed one close found (rounds + 1) (p :: part ++ (ts ++ c :: rest)) := by
          rw [cons_append, listed_separator (kind_of_bare hs), append_assoc]
      _ = listed one close (a' :: found) rounds (ts ++ c :: rest) := by
          rw [cons_append] at hread ⊢
          rw [listed, bind_of_ok (skipSeparators_of_ne (Kind.ne_of_starts hstarts rfl)), bind_peek,
            if_neg hne, bind_of_ok hread, hnext, bind_peek, if_pos (by simpa [hc] using hv)]
      _ = .ok (found.reverse ++ a' :: as') rest := by rw [hrest]; simp

/-- A list is read back up to its closing bracket. -/
theorem listed_separated_back (hclose : close.closes = true) {as : List α}
    (h : ∀ a ∈ as, ReadsOne limit one written bare a)
    (hts : Alike ts (Token.separated (as.map written))) (hc : c.kind = close)
    (hlimit : (ts ++ c :: rest).length ≤ limit) :
    ∃ as', as'.map bare = as.map bare ∧ listed one close [] limit (ts ++ c :: rest) = .ok as' rest := by
  simp only [length_append, length_cons] at hlimit
  cases as with
  | nil =>
    exact listed_back hclose h hts hc (by simp; omega) (by omega)
  | cons a as =>
    -- A list without the first separator is read like one with it.
    have hlimit₁ : limit ≠ 0 := by omega
    obtain ⟨rounds, rfl⟩ := Nat.exists_eq_succ_of_ne_zero hlimit₁
    rw [← @listed_separator _ _ _ _ (.ofKind .separator) rfl]
    have hts₁ : Alike (.ofKind .separator :: ts)
        ((a :: as).flatMap fun a => Token.ofKind .separator :: written a) := by
      rw [← cons_separated]
      exact congrArg (Token.bare _ :: ·) hts
    exact listed_back hclose h hts₁ hc (by simp; omega) (by simp; omega)

end Lists

end Parser

/-! ## Expressions

`Expr.ReadsBack` is the invariant that is proved along the tree. An expression that is an operand as a
whole is given back by the reader of operands alone (`Expr.OperandBack`); one with an operator at its
root is given back when the operator is, behind a left operand that has been read
(`Expr.ReadsBack.operation`). -/

section Expressions

variable {limit : Nat}

namespace Expr

/-- The loop over operators, started at the tokens of an expression, comes to the place behind it with
the expression as left operand. -/
def ReadsBack (limit : Nat) (e : Expr) : Prop :=
  ∀ depth least rounds ts rest, e.inner ≤ depth → Alike ts e.written → least < e.grip →
    Follows e.reach rest → (ts ++ rest).length ≤ limit → ts.length ≤ rounds →
    ∃ e' rounds', e'.bare = e.bare ∧ rounds ≤ rounds' + ts.length ∧
      (operand limit (expression limit depth) >>= fun left =>
        operations limit (expression limit depth) least left rounds) (ts ++ rest) =
      operations limit (expression limit depth) least e' rounds' rest

/-- The reader of operands gives the expression back. -/
def OperandBack (limit : Nat) (e : Expr) : Prop :=
  ∀ depth ts rest, e.inner ≤ depth → Alike ts e.written → Follows e.reach rest →
    (ts ++ rest).length ≤ limit →
    ∃ e', e'.bare = e.bare ∧ operand limit (expression limit depth) (ts ++ rest) = .ok e' rest

theorem OperandBack.readsBack (h : e.OperandBack limit) : e.ReadsBack limit := by
  intro depth least rounds ts rest hdepth hts _ hfollows hlimit _
  obtain ⟨e', he', hread⟩ := h depth ts rest hdepth hts hfollows hlimit
  exact ⟨e', rounds, he', Nat.le_add_right _ _, bind_of_ok hread _⟩

/-- What binds tighter than every operator has been read as an operand. -/
theorem ReadsBack.operandBack (h : e.ReadsBack limit) (hgrip : precedence .dot < e.grip) :
    e.OperandBack limit := by
  intro depth ts rest hdepth hts hfollows hlimit
  obtain ⟨e', rounds', he', -, hread⟩ :=
    h depth (precedence .dot) ts.length ts rest hdepth hts hgrip hfollows hlimit (Nat.le_refl _)
  refine ⟨e', he', ?_⟩
  have hstop : ∀ left rounds tokens, operations limit (expression limit depth) (precedence .dot) left
      rounds tokens = .ok left tokens := fun left rounds tokens =>
    operations_of_pull_le left (precedence_le_dot _) rounds
  rw [hstop] at hread
  change Parser.bind (operand limit (expression limit depth)) _ (ts ++ rest) = _ at hread
  rw [Parser.bind] at hread
  split at hread
  · rename_i left middle hoperand
    rw [hstop] at hread
    rw [hoperand, hread]
  · cases hread

/-- An expression is read back where its operators bind tighter than what is asked for, and what
follows does not. -/
theorem ReadsBack.expression (h : e.ReadsBack limit) (hdepth : e.nesting ≤ depth)
    (hts : Alike ts e.written) (hgrip : least < e.grip)
    (hfollows : Follows (min least e.reach) rest) (hlimit : (ts ++ rest).length ≤ limit) :
    ∃ e', e'.bare = e.bare ∧ Parser.expression limit depth least (ts ++ rest) = .ok e' rest := by
  obtain ⟨depth, rfl⟩ := Nat.exists_eq_add_of_le' (Nat.le_trans (Nat.le_add_left 1 _) hdepth)
  rw [length_append] at hlimit
  obtain ⟨e', rounds', he', -, hread⟩ := h depth least limit ts rest (Nat.le_of_succ_le_succ hdepth) hts
    hgrip (hfollows.mono (Nat.min_le_right _ _)) (by rwa [length_append]) (by omega)
  refine ⟨e', he', ?_⟩
  rw [Parser.expression, hread]
  exact operations_of_pull_le e' (Nat.le_trans hfollows.pull_le (Nat.min_le_left _ _)) rounds'

/-- A whole expression is read back. -/
theorem ReadsBack.whole {e : Expr} (h : e.ReadsBack limit) (hgrip : lowest < e.grip) {depth : Nat}
    {ts rest : List Token} (hdepth : e.nesting ≤ depth) (hts : Alike ts e.written)
    (hfollows : Follows lowest rest) (hlimit : (ts ++ rest).length ≤ limit) :
    ∃ e', e'.bare = e.bare ∧ Parser.expression limit depth lowest (ts ++ rest) = .ok e' rest :=
  h.expression hdepth hts hgrip
    (hfollows.mono (Nat.le_min.2 ⟨Nat.le_refl _, lowest_le_reach e⟩)) hlimit

/-- An operator and what follows it are given back behind the left operand. -/
theorem ReadsBack.operation {us : List Token} (hleft : left.ReadsBack limit)
    (hwritten : e.written = left.written ++ t :: us)
    (hgrip : e.grip = min left.grip (precedence t.kind)) (hreach : precedence t.kind ≤ left.reach)
    (hinner : left.inner ≤ e.inner) (harrow : t.kind ≠ .functionArrow)
    (hoperation : ∀ depth left' t' us' rest, left'.bare = left.bare → t'.bare = t.bare → Alike us'
      us → e.inner ≤ depth → Follows e.reach rest → (us' ++ rest).length ≤ limit → ∃ e', e'.bare =
      e.bare ∧ Parser.operation limit (Parser.expression limit depth) left' (t' :: (us' ++ rest)) =
      .ok e' rest) :
    e.ReadsBack limit := by
  intro depth least rounds ts rest hdepth hts hleast hfollows hlimit hrounds
  rw [hwritten] at hts
  obtain ⟨before, ts, rfl, hbefore, hts⟩ := hts.append_inv
  obtain ⟨t', behind, rfl, ht', hbehind⟩ := hts.cons_inv
  simp only [length_append, length_cons] at hlimit hrounds
  rw [hgrip, Nat.lt_min, ← kind_of_bare ht'] at hleast
  rw [← kind_of_bare ht'] at hreach harrow
  -- The left operand is read first, with the operator as what follows it.
  obtain ⟨left', rounds₁, hleft', hrounds₁, hread⟩ := hleft depth least rounds before
    (t' :: (behind ++ rest)) (Nat.le_trans hinner hdepth) hbefore hleast.1 ⟨hreach, harrow⟩
    (by simp; omega) (by omega)
  obtain ⟨rounds₁, rfl⟩ := Nat.exists_eq_succ_of_ne_zero (show rounds₁ ≠ 0 by omega)
  obtain ⟨e', he', hop⟩ := hoperation depth left' t' behind rest hleft' ht' hbehind hdepth hfollows
    (by simp; omega)
  refine ⟨e', rounds₁, he', by simp; omega, ?_⟩
  rw [append_assoc, cons_append, hread, operations_of_lt hleast.2 hop]

/-- A well-formed expression has no operator that does not bind. -/
theorem WellFormed.lowest_lt_grip : ∀ {e : Expr}, e.WellFormed → lowest < e.grip
  | .binary t left right, h => by
      rw [WellFormed] at h
      have hchoose := choose_lt_of_isInfix h.1
      exact Nat.lt_min.2 ⟨h.2.1.lowest_lt_grip, Nat.lt_trans (by decide) hchoose⟩
  | .define t left _, h | .choose t left _, h | .call t left _, h | .access t left _, h => by
      rw [WellFormed] at h
      exact Nat.lt_min.2 ⟨h.2.1.lowest_lt_grip, by decide⟩
  | .number .., _ | .string .., _ | .boolean .., _ | .empty .., _ | .name .., _ | .negate .., _
  | .group .., _ | .list .., _ | .object .., _ | .function .., _ => by
      rw [grip]
      all_goals first | decide | (intros; contradiction)

/-! ### Operands of one token -/

/-- An expression that is one token is given back if the token alone is read as it. -/
theorem OperandBack.token (hwritten : e.written = [t])
    (h : ∀ t' rest sub, t'.bare = t.bare → Follows e.reach rest → ∃ e', e'.bare = e.bare ∧ operand
      limit sub (t' :: rest) = .ok e' rest) : e.OperandBack limit := by
  intro depth ts rest _ hts hfollows _
  rw [hwritten] at hts
  obtain ⟨t', ts, rfl, ht', hnil⟩ := hts.cons_inv
  rw [hnil.eq_nil]
  exact h t' rest _ ht' hfollows

theorem back_number {value : Number} (hformed : WellFormed (.number t value)) :
    OperandBack limit (.number t value) := by
  refine .token (by rw [written]) fun t' rest sub ht' _ => ?_
  rw [WellFormed] at hformed
  have hkind := (kind_of_bare ht').trans hformed.1
  have hvalue : numberOf t' = value := by
    rw [← numberOf_eq_iff.2 hformed.2, numberOf, numberOf, literal_of_bare ht']
  refine ⟨.number t' value, by simp only [bare, ht'], ?_⟩
  rw [← hvalue]
  cases t'
  cases hkind
  rfl

theorem back_string {value : Text} (hformed : WellFormed (.string t value)) :
    OperandBack limit (.string t value) := by
  refine .token (by rw [written]) fun t' rest sub ht' _ => ?_
  rw [WellFormed] at hformed
  have hkind := (kind_of_bare ht').trans hformed.1
  have hvalue : textOf t' = value := by
    rw [← textOf_eq_iff.2 hformed.2, textOf, textOf, literal_of_bare ht']
  refine ⟨.string t' value, by simp only [bare, ht'], ?_⟩
  rw [← hvalue]
  cases t'
  cases hkind
  rfl

theorem back_boolean {value : Bool} (hformed : WellFormed (.boolean t value)) :
    OperandBack limit (.boolean t value) := by
  refine .token (by rw [written]) fun t' rest sub ht' _ => ?_
  rw [WellFormed, ← kind_of_bare ht'] at hformed
  refine ⟨.boolean t' value, by simp only [bare, ht'], ?_⟩
  rw [← hformed.2]
  rcases hformed.1 with hkind | hkind
  all_goals
    cases t'
    cases hkind
    rfl

theorem back_name (hformed : WellFormed (.name t)) : OperandBack limit (.name t) := by
  refine .token (by rw [written]) fun t' rest sub ht' hfollows => ?_
  rw [WellFormed, ← kind_of_bare ht'] at hformed
  refine ⟨.name t', by simp only [bare, ht'], ?_⟩
  cases t'
  cases hformed
  exact congrFun (if_neg hfollows.not_arrow) rest

theorem back_wildcard (hkind : t.kind = .wildcard) : OperandBack limit (.empty t) := by
  refine .token (by rw [written, if_neg (by rw [hkind]; decide)]) fun t' rest sub ht' hfollows => ?_
  rw [← kind_of_bare ht'] at hkind
  refine ⟨.empty t', by simp only [bare, ht'], ?_⟩
  cases t'
  cases hkind
  exact congrFun (if_neg hfollows.not_arrow) rest

/-! ### Operands with expressions inside -/

theorem back_negate (hformed : WellFormed (.negate t e)) (he : e.ReadsBack limit) :
    OperandBack limit (.negate t e) := by
  intro depth ts rest hdepth hts hfollows hlimit
  rw [WellFormed] at hformed
  rw [written] at hts
  obtain ⟨t', ts, rfl, ht', hts⟩ := hts.cons_inv
  have hkind := (kind_of_bare ht').trans hformed.1
  rw [inner] at hdepth
  obtain ⟨e', he', hread⟩ := he.expression hdepth hts hformed.2.2 hfollows (Nat.le_of_succ_le hlimit)
  refine ⟨.negate t' e', by simp only [bare, ht', he'], ?_⟩
  cases t'
  cases hkind
  exact bind_of_ok hread _

/-- An expression that is read back is read back as an element of a list. -/
theorem ReadsBack.readsOne (h : e.ReadsBack limit) (hformed : e.WellFormed)
    (hdepth : e.nesting ≤ depth) :
    ReadsOne limit (Parser.expression limit depth lowest) written bare e := by
  obtain ⟨t, ts, hwritten, -, hstarts⟩ := hformed.written_eq_cons
  exact ⟨⟨t, ts, hwritten, hstarts⟩, fun ts rest hts hfollows hlimit =>
    h.whole hformed.lowest_lt_grip hdepth hts hfollows hlimit⟩

/-- Expressions that are well formed and read back. -/
def AllBack (limit : Nat) (es : List Expr) : Prop := ∀ e ∈ es, e.WellFormed ∧ e.ReadsBack limit

/-- A list of expressions is read back up to its closing bracket. -/
theorem AllBack.itemsUpTo {es : List Expr} (h : AllBack limit es) (hdepth : innerAll es ≤ depth)
    {close : Kind} (hclose : close.closes = true)
    (hts : Alike ts (Token.separated (writtenEach es))) (hc : c.kind = close)
    (hlimit : (ts ++ c :: rest).length ≤ limit) :
    ∃ es', bareEach es' = bareEach es ∧
      Parser.itemsUpTo (Parser.expression limit depth) close [] limit (ts ++ c :: rest) = .ok es' rest := by
  rw [writtenEach_eq_map] at hts
  have hone : ∀ e ∈ es, ReadsOne limit (Parser.expression limit depth lowest) written bare e :=
    fun e he => (h e he).2.readsOne (h e he).1 (Nat.le_trans (nesting_le_innerAll he) hdepth)
  obtain ⟨es', hes', hread⟩ := listed_separated_back hclose hone hts hc hlimit
  exact ⟨es', by rw [bareEach_eq_map, bareEach_eq_map, hes'], by rw [itemsUpTo_eq, hread]⟩

theorem back_list {items : List Expr} (hkind : t.kind = .openBracket) (h : AllBack limit items) :
    OperandBack limit (.list t items) := by
  intro depth ts rest hdepth hts _ hlimit
  rw [written] at hts
  obtain ⟨t', ts, rfl, ht', hts⟩ := hts.cons_inv
  obtain ⟨ts', c, hsplit, hts', hc⟩ := hts.bracket_inv rest
  rw [cons_append, hsplit] at hlimit ⊢
  rw [inner] at hdepth
  obtain ⟨items', hitems', hread⟩ := h.itemsUpTo hdepth rfl hts' hc (Nat.le_of_succ_le hlimit)
  refine ⟨.list t' items', by simp only [bare, ht', hitems'], ?_⟩
  cases t'
  cases (kind_of_bare ht').trans hkind
  exact bind_of_ok hread _

/-- Something in parentheses is read by the reader of groups. -/
theorem operand_openParen (h : t.kind = .openParen) (sub : Nat → Parser Expr)
    (tokens : List Token) : operand limit sub (t :: tokens) = Parser.group limit sub (t :: tokens) := by
  cases t
  cases h
  rfl

/-- Empty parentheses, and what the next token makes of them. -/
theorem group_empty {o : Token} (hc : c.kind = .closeParen) (sub : Nat → Parser Expr)
    (rest : List Token) : Parser.group limit sub (o :: c :: rest) =
      if (rest.headD .missingEnd).kind = .functionArrow then functionBody sub [] rest
      else .ok (.empty o) rest := by
  have hne : c.kind ≠ .separator := by rw [hc]; decide
  rw [Parser.group, bind_take, bind_of_ok (skipSeparators_of_ne hne), bind_peek, if_pos hc,
    bind_take]
  show (ite _ _ _ : Parser Expr) rest = _
  split <;> rfl

theorem back_unit (hkind : t.kind = .openParen) : OperandBack limit (.empty t) := by
  intro depth ts rest _ hts hfollows _
  rw [written, if_pos hkind] at hts
  obtain ⟨t', ts, rfl, ht', hts⟩ := hts.cons_inv
  obtain ⟨ts', c, hsplit, hts', hc⟩ := @Alike.bracket_inv ts [] _ hts rest
  refine ⟨.empty t', by simp only [bare, ht'], ?_⟩
  rw [cons_append, hsplit, hts'.eq_nil, nil_append,
    operand_openParen ((kind_of_bare ht').trans hkind), group_empty hc,
    if_neg hfollows.not_arrow]

/-- Expressions in parentheses, and what the next token makes of them. -/
theorem AllBack.group {items : List Expr} (h : AllBack limit items) (hitems : items ≠ []) {depth : Nat}
    (hdepth : innerAll items ≤ depth) {o c : Token} {ts rest : List Token}
    (hts : Alike ts (Token.separated (writtenEach items))) (hc : c.kind = .closeParen)
    (hlimit : (ts ++ c :: rest).length ≤ limit) :
    ∃ items', bareEach items' = bareEach items ∧
      Parser.group limit (Parser.expression limit depth) (o :: (ts ++ c :: rest)) =
        if (rest.headD .missingEnd).kind = .functionArrow then
          (Parser.parameters [] items' >>= functionBody (Parser.expression limit depth)) rest
        else .ok (.group o items') rest := by
  obtain ⟨items', hitems', hread⟩ := h.itemsUpTo hdepth rfl hts hc hlimit
  refine ⟨items', hitems', ?_⟩
  -- The first token neither is a separator nor closes the parentheses.
  obtain ⟨u, us, rfl, hu⟩ : ∃ u us, ts = u :: us ∧ u.kind.starts = true := by
    cases items with
    | nil => exact absurd rfl hitems
    | cons e rest =>
      obtain ⟨v, vs, hwritten, -, hv⟩ := (h e mem_cons_self).1.written_eq_cons
      obtain ⟨vs', hseparated⟩ := separated_cons (writtenEach rest) hwritten
      rw [writtenEach, hseparated] at hts
      obtain ⟨u, us, rfl, hu, -⟩ := hts.cons_inv
      exact ⟨u, us, rfl, by rw [kind_of_bare hu, hv]⟩
  rw [cons_append] at hread ⊢
  rw [Parser.group, bind_take, bind_of_ok (skipSeparators_of_ne (Kind.ne_of_starts hu rfl)),
    bind_peek, if_neg (Kind.ne_of_starts hu rfl), bind_of_ok hread]
  show (ite _ _ _ : Parser Expr) rest = _
  split <;> rfl

theorem back_group {items : List Expr} (hkind : t.kind = .openParen) (hitems : items ≠ [])
    (h : AllBack limit items) : OperandBack limit (.group t items) := by
  intro depth ts rest hdepth hts hfollows hlimit
  rw [written] at hts
  obtain ⟨t', ts, rfl, ht', hts⟩ := hts.cons_inv
  obtain ⟨ts', c, hsplit, hts', hc⟩ := hts.bracket_inv rest
  rw [cons_append, hsplit] at hlimit ⊢
  rw [inner] at hdepth
  obtain ⟨items', hitems', hread⟩ := @AllBack.group _ _ h hitems _ hdepth t' _ _ _ hts' hc
    (Nat.le_of_succ_le hlimit)
  refine ⟨.group t' items', by simp only [bare, ht', hitems'], ?_⟩
  rw [operand_openParen ((kind_of_bare ht').trans hkind), hread, if_neg hfollows.not_arrow]

end Expr

/-! ### Functions -/

namespace Expr

variable {ps : List Parameter}

theorem allBack_parameters (h : ∀ p ∈ ps, p.WellFormed) :
    AllBack limit (ps.map Parameter.expr) := by
  intro e he
  obtain ⟨p, hp, rfl⟩ := mem_map.1 he
  have hformed := (h p hp).expr
  refine ⟨hformed, OperandBack.readsBack ?_⟩
  unfold Parameter.expr at hformed ⊢
  split
  · rename_i hname
    rw [if_pos hname] at hformed
    exact back_name hformed
  · rename_i hname
    rw [if_neg hname, WellFormed] at hformed
    exact hformed.elim back_wildcard back_unit

theorem innerAll_parameters (ps : List Parameter) : innerAll (ps.map Parameter.expr) ≤ 1 := by
  induction ps with
  | nil => rw [map_nil, innerAll]; exact Nat.zero_le _
  | cons p ps ih =>
    rw [map_cons, innerAll, p.inner_expr]
    exact Nat.max_le.2 ⟨Nat.le_refl _, ih⟩

/-- Expressions that stand for parameters are taken for them. -/
theorem parameters_back (h : ∀ p ∈ ps, p.WellFormed) {es : List Expr}
    (hes : bareEach es = bareEach (ps.map Parameter.expr)) (found : List Parameter)
    (tokens : List Token) :
    ∃ ps', ps'.map Parameter.bare = ps.map Parameter.bare ∧
      Parser.parameters found es tokens = .ok (found.reverse ++ ps') tokens := by
  induction ps generalizing es found with
  | nil =>
    rw [bareEach_eq_map, map_nil, bareEach, map_eq_nil_iff] at hes
    subst hes
    exact ⟨[], rfl, by rw [append_nil]; rfl⟩
  | cons p ps ih =>
    rw [map_cons, bareEach, bareEach_eq_map] at hes
    obtain ⟨e, es, rfl, he, hes⟩ := map_eq_cons_iff.1 hes
    rw [← bareEach_eq_map] at hes
    have hps := fun q hq => h q (mem_cons_of_mem p hq)
    -- The expression has the parameter's token, and so its name.
    obtain ⟨t, name, ht, hname, hstep⟩ : ∃ t name, t.bare = p.token.bare ∧ name = p.name ∧
        Parser.parameters found (e :: es) tokens =
          Parser.parameters (⟨t, name⟩ :: found) es tokens := by
      unfold Parameter.expr at he
      split at he
      · rename_i hkind
        cases e <;> simp only [bare, reduceCtorEq, Expr.name.injEq] at he
        refine ⟨_, _, he, ?_, rfl⟩
        rcases h p mem_cons_self with ⟨-, hname⟩ | ⟨hother, -⟩
        · rw [hname, lexeme_of_bare he]
        · rw [hkind] at hother
          exact absurd hother (by decide)
      · rename_i hkind
        cases e <;> simp only [bare, reduceCtorEq, Expr.empty.injEq] at he
        refine ⟨_, _, he, ?_, rfl⟩
        exact ((h p mem_cons_self).resolve_left fun h => hkind h.1).2.symm
    obtain ⟨ps', hps', hread⟩ := ih hps hes (⟨t, name⟩ :: found)
    refine ⟨⟨t, name⟩ :: ps', ?_, by rw [hstep, hread]; simp⟩
    simp only [map_cons, hps', Parameter.bare, ht, hname]

/-- The arrow and the body of a function are given back. -/
theorem ReadsBack.functionBody {body : Expr} (h : body.ReadsBack limit) (hformed : body.WellFormed)
    {depth : Nat} (hdepth : body.nesting ≤ depth) (ps : List Parameter) {t : Token}
    {ts rest : List Token} (hts : Alike ts body.written) (hfollows : Follows lowest rest)
    (hlimit : (ts ++ rest).length ≤ limit) :
    ∃ body', body'.bare = body.bare ∧
      Parser.functionBody (Parser.expression limit depth) ps (t :: (ts ++ rest)) =
        .ok (.function t "" ps body') rest := by
  obtain ⟨body', hbody', hread⟩ := h.whole hformed.lowest_lt_grip hdepth hts hfollows hlimit
  refine ⟨body', hbody', ?_⟩
  rw [Parser.functionBody, bind_take, bind_of_ok hread]
  rfl

theorem back_function {name : Text} (hformed : WellFormed (.function t name ps body))
    (h : body.ReadsBack limit) :
    OperandBack limit (.function t name ps body) := by
  intro depth ts rest hdepth hts hfollows hlimit
  rw [WellFormed] at hformed
  obtain ⟨hkind, hps, hbody⟩ := hformed
  rw [inner] at hdepth
  rw [written] at hts
  obtain ⟨o, ts, rfl, ho, hts⟩ := hts.cons_inv
  obtain ⟨before, ts, rfl, hbefore, hts⟩ := hts.append_inv
  obtain ⟨c, ts, rfl, hc, hts⟩ := hts.cons_inv
  obtain ⟨t', behind, rfl, ht', hbehind⟩ := hts.cons_inv
  have harrow : t'.kind = .functionArrow := (kind_of_bare ht').trans hkind
  simp only [cons_append, append_assoc] at hlimit ⊢
  have hlimit' : (behind ++ rest).length ≤ limit := by
    simp only [length_cons, length_append] at hlimit ⊢
    omega
  rw [operand_openParen (kind_of_bare ho)]
  cases ps with
  | nil =>
    obtain ⟨body', hbody', hread⟩ :=
      @ReadsBack.functionBody _ _ h hbody _ hdepth [] t' _ _ hbehind hfollows hlimit'
    refine ⟨.function t' "" [] body', by simp only [bare, ht', hbody', map_nil], ?_⟩
    rw [hbefore.eq_nil, nil_append, group_empty (kind_of_bare hc),
      headD_cons, if_pos harrow, hread]
  | cons p ps =>
    have hbefore' : Alike before
        (Token.separated (writtenEach ((p :: ps).map Parameter.expr))) := by
      rwa [writtenEach_eq_map, map_map, show written ∘ Parameter.expr = Parameter.written from
        funext Parameter.written_expr]
    obtain ⟨items', hitems', hread⟩ := @AllBack.group _ _ (allBack_parameters hps) (by simp) depth
      (Nat.le_trans (innerAll_parameters _) (Nat.le_trans (Nat.le_add_left 1 _) hdepth)) o _ _
      (t' :: (behind ++ rest)) hbefore' (kind_of_bare hc) (Nat.le_of_succ_le hlimit)
    obtain ⟨ps', hps', hparameters⟩ := parameters_back hps hitems' [] (t' :: (behind ++ rest))
    obtain ⟨body', hbody', hrest⟩ :=
      @ReadsBack.functionBody _ _ h hbody _ hdepth ps' t' _ _ hbehind hfollows hlimit'
    refine ⟨.function t' "" ps' body', by simp only [bare, ht', hbody', hps'], ?_⟩
    rw [hread, headD_cons, if_pos harrow, bind_of_ok hparameters, reverse_nil,
      nil_append, hrest]

end Expr

/-! ### Objects and choices -/

/-- The reader of entries gives an entry of an object back. -/
def Entry.ReadsBack (limit : Nat) (entry : Entry) : Prop :=
  ∀ depth, entry.inner ≤ depth →
    ReadsOne limit (Parser.entry (expression limit depth)) Entry.written Entry.bare entry

/-- The reader of arms gives an arm of a choice back. -/
def Arm.ReadsBack (limit : Nat) (a : Arm) : Prop :=
  ∀ depth, a.inner ≤ depth → ReadsOne limit (Parser.arm (expression limit depth)) Arm.written Arm.bare a

theorem key_of_ne (hname : t.kind ≠ .name) (hwildcard : t.kind ≠ .wildcard)
    (sub : Nat → Parser Expr) (rest : List Token) :
    Parser.key sub (t :: rest) = sub entryKey (t :: rest) := by
  rw [Parser.key, bind_peek]
  generalize t.kind = kind at hname hwildcard
  cases kind <;> first | rfl | contradiction

/-- The key of an entry is given back. -/
theorem Entry.key_back {k : Expr}
    (hkey : k.IsNameKey ∨ (k.WellFormed ∧ entryKey < k.grip ∧ ¬ k.startsWithName) ∧ k.ReadsBack limit)
    {depth : Nat} (hdepth : k.nesting ≤ depth) {ts rest : List Token} (hts : Alike ts k.written)
    (hfollows : Follows lowest rest) (hlimit : (ts ++ rest).length ≤ limit) :
    ∃ k', k'.bare = k.bare ∧ Parser.key (expression limit depth) (ts ++ rest) = .ok k' rest := by
  rcases hkey with hname | ⟨⟨hformed, hgrip, hstart⟩, hback⟩
  · obtain ⟨t, value, rfl⟩ := hname.exists_string
    rw [Expr.written] at hts
    obtain ⟨t', ts, rfl, ht', hnil⟩ := hts.cons_inv
    refine ⟨.string t' t'.lexeme, ?_, ?_⟩
    · rw [Expr.bare, Expr.bare, ht', hname.2, lexeme_of_bare ht']
    · rw [hnil.eq_nil, singleton_append, Parser.key, bind_peek]
      simp only [(kind_of_bare ht').trans hname.1]
      rfl
  · have hreach : lowest ≤ min entryKey k.reach := Nat.le_min.2 ⟨by decide, k.lowest_le_reach⟩
    obtain ⟨k', hk', hread⟩ := hback.expression hdepth hts hgrip (hfollows.mono hreach) hlimit
    refine ⟨k', hk', ?_⟩
    obtain ⟨t, us, hwritten, ht, -⟩ := hformed.written_eq_cons
    rw [hwritten] at hts
    obtain ⟨t', ts, rfl, ht', -⟩ := hts.cons_inv
    rw [Expr.startsWithName, ← ht, ← kind_of_bare ht'] at hstart
    rw [not_or] at hstart
    rw [cons_append] at hread ⊢
    rw [key_of_ne hstart.1 hstart.2, hread]

theorem Entry.back_mk {value : Expr}
    (hkey : k.IsNameKey ∨ (k.WellFormed ∧ entryKey < k.grip ∧ ¬ k.startsWithName) ∧ k.ReadsBack
      limit) (hformed : value.WellFormed) (hvalue : value.ReadsBack limit) :
    Entry.ReadsBack limit (.mk k value) := by
  intro depth hdepth
  rw [inner] at hdepth
  refine ⟨?_, fun ts rest hts hfollows hlimit => ?_⟩
  · obtain ⟨t, us, hwritten, hstarts⟩ : ∃ t us, k.written = t :: us ∧ t.kind.starts = true := by
      rcases hkey with hname | ⟨⟨hk, -⟩, -⟩
      · obtain ⟨t, ht, hkind⟩ := hname.starts
        exact ⟨t, [], ht, by rw [hkind]; rfl⟩
      · obtain ⟨t, us, hwritten, -, hstarts⟩ := hk.written_eq_cons
        exact ⟨t, us, hwritten, hstarts⟩
    exact ⟨t, _, by rw [written, hwritten, cons_append], hstarts⟩
  · rw [written] at hts
    obtain ⟨before, ts, rfl, hbefore, hts⟩ := hts.append_inv
    obtain ⟨c, behind, rfl, hc, hbehind⟩ := hts.cons_inv
    have hcolon : c.kind = .colon := kind_of_bare hc
    simp only [append_assoc, cons_append, length_append, length_cons] at hlimit ⊢
    obtain ⟨k', hk', hread⟩ := @Entry.key_back _ _ hkey depth (Nat.le_trans (Nat.le_max_left _ _) hdepth)
      before (c :: (behind ++ rest)) hbefore (.of_kind hcolon (by decide) (by decide)) (by simp; omega)
    obtain ⟨value', hvalue', hrest⟩ := hvalue.whole hformed.lowest_lt_grip
      (Nat.le_trans (Nat.le_max_right _ _) hdepth) hbehind hfollows (by simp; omega)
    refine ⟨.mk k' value', by rw [bare, bare, hk', hvalue'], ?_⟩
    rw [Parser.entry, bind_of_ok hread, bind_of_ok (expect_of_kind hcolon), bind_of_ok hrest]
    rfl

theorem Arm.back_otherwise (ht : t.kind = .arrow) (hformed : body.WellFormed)
    (hbody : body.ReadsBack limit) : Arm.ReadsBack limit (.otherwise t body) := by
  intro depth hdepth
  rw [inner] at hdepth
  refine ⟨⟨_, _, by rw [written], rfl⟩, fun ts rest hts hfollows hlimit => ?_⟩
  rw [written] at hts
  obtain ⟨w, ts, rfl, hw, hts⟩ := hts.cons_inv
  obtain ⟨t', behind, rfl, ht', hbehind⟩ := hts.cons_inv
  have harrow : t'.kind = .arrow := (kind_of_bare ht').trans ht
  have hwildcard : w.kind = .wildcard := kind_of_bare hw
  simp only [cons_append, length_append, length_cons] at hlimit ⊢
  obtain ⟨body', hbody', hread⟩ := hbody.whole hformed.lowest_lt_grip hdepth hbehind hfollows
    (by simp; omega)
  refine ⟨.otherwise t' body', by rw [bare, bare, ht', hbody'], ?_⟩
  have hstarts : Parser.startsOtherwise (w :: t' :: (behind ++ rest)) =
      .ok true (w :: t' :: (behind ++ rest)) := by
    simp [Parser.startsOtherwise, hwildcard, harrow]
  rw [Parser.arm, bind_of_ok hstarts, if_pos rfl, bind_take,
    bind_of_ok (expect_of_kind harrow), bind_of_ok hread]
  rfl

/-- A pattern is not taken for the wildcard in front of an arrow. -/
theorem startsOtherwise_of_pattern {pattern : Expr} (hformed : pattern.WellFormed)
    (hwildcard : ¬ pattern.IsWildcard) (hts : Alike ts pattern.written) (t : Token)
    (rest : List Token) :
    Parser.startsOtherwise (ts ++ t :: rest) = .ok false (ts ++ t :: rest) := by
  obtain ⟨u, us, hwritten, -, -⟩ := hformed.written_eq_cons
  have halone := hformed.wildcard_alone hwritten
  rw [hwritten] at hts
  obtain ⟨u', ts, rfl, hu', hts⟩ := hts.cons_inv
  rw [← kind_of_bare hu'] at halone
  by_cases hkind : u'.kind = .wildcard
  · rcases halone hkind with ⟨h, -⟩ | ⟨v, vs, rfl, hv⟩
    · exact absurd h hwildcard
    · obtain ⟨v', ts, rfl, hv', -⟩ := hts.cons_inv
      rw [← kind_of_bare hv'] at hv
      simp [Parser.startsOtherwise, hv]
  · cases ts with
    | nil => simp [Parser.startsOtherwise, hkind]
    | cons v vs => simp [Parser.startsOtherwise, hkind]

theorem Arm.back_case {pattern : Expr} (ht : t.kind = .arrow) (hpattern : pattern.WellFormed)
    (hwildcard : ¬ pattern.IsWildcard) (hformed : body.WellFormed) (hback : pattern.ReadsBack limit)
    (hbody : body.ReadsBack limit) :
    Arm.ReadsBack limit (.case t pattern body) := by
  intro depth hdepth
  rw [inner] at hdepth
  obtain ⟨u, us, hwritten, -, hstarts⟩ := hpattern.written_eq_cons
  refine ⟨⟨u, _, by rw [written, hwritten, cons_append], hstarts⟩,
    fun ts rest hts hfollows hlimit => ?_⟩
  rw [written] at hts
  obtain ⟨before, ts, rfl, hbefore, hts⟩ := hts.append_inv
  obtain ⟨t', behind, rfl, ht', hbehind⟩ := hts.cons_inv
  have harrow : t'.kind = .arrow := (kind_of_bare ht').trans ht
  simp only [append_assoc, cons_append, length_append, length_cons] at hlimit ⊢
  obtain ⟨pattern', hpattern', hread⟩ := @Expr.ReadsBack.whole _ _ hback hpattern.lowest_lt_grip depth
    before (t' :: (behind ++ rest)) (Nat.le_trans (Nat.le_max_left _ _) hdepth) hbefore
    (.of_kind harrow (by decide) (by decide)) (by simp; omega)
  obtain ⟨body', hbody', hrest⟩ := hbody.whole hformed.lowest_lt_grip
    (Nat.le_trans (Nat.le_max_right _ _) hdepth) hbehind hfollows (by simp; omega)
  refine ⟨.case t' pattern' body', by rw [bare, bare, ht', hpattern', hbody'], ?_⟩
  have hother := startsOtherwise_of_pattern hpattern hwildcard hbefore t' (behind ++ rest)
  rw [Parser.arm, bind_of_ok hother, if_neg (by simp), bind_of_ok hread,
    bind_of_ok (expect_of_kind harrow), bind_of_ok hrest]
  rfl

namespace Expr

theorem back_object {entries : List Entry} (hkind : t.kind = .openBrace)
    (h : ∀ entry ∈ entries, entry.ReadsBack limit) : OperandBack limit (.object t entries) := by
  intro depth ts rest hdepth hts _ hlimit
  rw [written, Entry.writtenEach_eq_map] at hts
  obtain ⟨t', ts, rfl, ht', hts⟩ := hts.cons_inv
  obtain ⟨ts', c, hsplit, hts', hc⟩ := hts.bracket_inv rest
  rw [cons_append, hsplit] at hlimit ⊢
  rw [inner] at hdepth
  obtain ⟨entries', hentries', hread⟩ := listed_separated_back rfl
    (fun entry hentry => h entry hentry depth (Nat.le_trans (Entry.inner_le_innerAll hentry) hdepth))
    hts' hc (Nat.le_of_succ_le hlimit)
  refine ⟨.object t' entries', ?_, ?_⟩
  · simp only [bare, ht', Entry.bareEach_eq_map, hentries']
  · rw [operand, bind_peek]
    simp only [(kind_of_bare ht').trans hkind]
    rw [bind_take, entriesUpTo_eq]
    exact bind_of_ok hread _

/-! ### Operators -/

theorem operation_of_isInfix (h : t.kind.isInfix = true) (sub : Nat → Parser Expr) (left : Expr)
    (rest : List Token) : Parser.operation limit sub left (t :: rest) =
      (sub (precedence t.kind) >>= fun right => pure (.binary t left right)) rest := by
  rw [Parser.operation, bind_take]
  generalize t.kind = kind at h
  cases kind <;> first | rfl | cases h

theorem back_binary {right : Expr} (hformed : WellFormed (.binary t left right))
    (hleft : left.ReadsBack limit) (hright : right.ReadsBack limit) :
    ReadsBack limit (.binary t left right) := by
  rw [WellFormed] at hformed
  obtain ⟨hoperator, -, hreach, -, hgrip⟩ := hformed
  refine hleft.operation (by rw [written]) (by rw [grip]) hreach (by rw [inner]; exact Nat.le_max_left _ _)
    (fun h => by rw [h] at hoperator; cases hoperator) ?_
  intro depth left' t' behind rest hleft' ht' hbehind hdepth hfollows hlimit
  rw [inner] at hdepth
  obtain ⟨right', hright', hread⟩ := hright.expression (Nat.le_trans (Nat.le_max_right _ _) hdepth)
    hbehind hgrip hfollows hlimit
  refine ⟨.binary t' left' right', by simp only [bare, ht', hleft', hright'], ?_⟩
  rw [← kind_of_bare ht'] at hoperator hread
  rw [operation_of_isInfix hoperator, bind_of_ok hread]
  rfl

theorem back_define {target value : Expr} (hformed : WellFormed (.define t target value))
    (htarget : target.ReadsBack limit) (hvalue : value.ReadsBack limit) :
    ReadsBack limit (.define t target value) := by
  rw [WellFormed] at hformed
  obtain ⟨hkind, -, hreach, hwell⟩ := hformed
  refine htarget.operation (by rw [written]) (by rw [grip, hkind]) (hkind ▸ hreach)
    (by rw [inner]; exact Nat.le_max_left _ _) (by rw [hkind]; decide) ?_
  intro depth target' t' behind rest htarget' ht' hbehind hdepth hfollows hlimit
  rw [inner] at hdepth
  obtain ⟨value', hvalue', hread⟩ := hvalue.whole hwell.lowest_lt_grip
    (Nat.le_trans (Nat.le_max_right _ _) hdepth) hbehind hfollows hlimit
  refine ⟨.define t' target' (Parser.named target' value'), ?_, ?_⟩
  · simp only [bare, ht', htarget', bare_named, hvalue']
  · rw [Parser.operation, bind_take]
    simp only [(kind_of_bare ht').trans hkind]
    rw [bind_of_ok hread]
    rfl

theorem back_call {callee : Expr} {arguments : List Expr}
    (hformed : WellFormed (.call t callee arguments)) (hcallee : callee.ReadsBack limit)
    (harguments : AllBack limit arguments) : ReadsBack limit (.call t callee arguments) := by
  rw [WellFormed] at hformed
  obtain ⟨hkind, -, hreach, -⟩ := hformed
  refine hcallee.operation (by rw [written]) (by rw [grip, hkind]) (hkind ▸ hreach)
    (by rw [inner]; exact Nat.le_max_left _ _) (by rw [hkind]; decide) ?_
  intro depth callee' t' behind rest hcallee' ht' hbehind hdepth _ hlimit
  rw [inner] at hdepth
  obtain ⟨ts, c, hsplit, hts, hc⟩ := hbehind.bracket_inv rest
  rw [hsplit] at hlimit ⊢
  obtain ⟨arguments', harguments', hread⟩ :=
    harguments.itemsUpTo (Nat.le_trans (Nat.le_max_right _ _) hdepth) rfl hts hc hlimit
  refine ⟨.call t' callee' arguments', by simp only [bare, ht', hcallee', harguments'], ?_⟩
  rw [Parser.operation, bind_take]
  simp only [(kind_of_bare ht').trans hkind]
  exact bind_of_ok hread _

theorem back_choose {subject : Expr} {arms : List Arm}
    (hformed : WellFormed (.choose t subject arms)) (hsubject : subject.ReadsBack limit)
    (harms : ∀ a ∈ arms, a.ReadsBack limit) : ReadsBack limit (.choose t subject arms) := by
  rw [WellFormed] at hformed
  obtain ⟨hkind, -, hreach, -⟩ := hformed
  refine hsubject.operation (by rw [written]) (by rw [grip, hkind]) (hkind ▸ hreach)
    (by rw [inner]; exact Nat.le_max_left _ _) (by rw [hkind]; decide) ?_
  intro depth subject' t' behind rest hsubject' ht' hbehind hdepth _ hlimit
  rw [inner] at hdepth
  rw [Arm.writtenEach_eq_map] at hbehind
  obtain ⟨o, behind, rfl, ho, hbehind⟩ := hbehind.cons_inv
  have hopen : o.kind = .openBrace := kind_of_bare ho
  obtain ⟨ts, c, hsplit, hts, hc⟩ := hbehind.bracket_inv rest
  rw [cons_append, hsplit] at hlimit ⊢
  obtain ⟨arms', harms', hread⟩ := listed_separated_back rfl
    (fun a ha => harms a ha depth
      (Nat.le_trans (Arm.inner_le_innerAll ha) (Nat.le_trans (Nat.le_max_right _ _) hdepth)))
    hts hc (Nat.le_of_succ_le hlimit)
  refine ⟨.choose t' subject' arms', ?_, ?_⟩
  · simp only [bare, ht', hsubject', Arm.bareEach_eq_map, harms']
  · rw [Parser.operation, bind_take]
    simp only [(kind_of_bare ht').trans hkind]
    rw [bind_of_ok (expect_of_kind hopen), armsUpTo_eq]
    exact bind_of_ok hread _

/-- A key behind a dot that is not a name is read as an operand. -/
theorem accessKey_of_fitsDot (hfits : k.FitsDot) (hformed : k.WellFormed) (hts : Alike ts k.written)
    (sub : Nat → Parser Expr) (rest : List Token) :
    accessKey limit sub (ts ++ rest) = operand limit sub (ts ++ rest) := by
  have hopening : k.opening = .number ∨ k.opening = .string ∨ k.opening = .openParen := by
    cases k <;> simp only [FitsDot] at hfits <;> rw [WellFormed] at hformed
    case number => exact .inl hformed.1
    case string => exact .inr (.inl hformed.1)
    case empty => exact .inr (.inr hfits)
    case group => exact .inr (.inr hformed.1)
    case function => exact .inr (.inr rfl)
  obtain ⟨t, us, hwritten, ht, -⟩ := hformed.written_eq_cons
  rw [hwritten] at hts
  obtain ⟨t', ts, rfl, ht', -⟩ := hts.cons_inv
  rw [← ht, ← kind_of_bare ht'] at hopening
  rw [cons_append, accessKey, operand, bind_peek, bind_peek]
  rcases hopening with hkind | hkind | hkind <;> simp only [hkind]

theorem FitsDot.dot_lt_grip (h : k.FitsDot) : precedence .dot < k.grip := by
  cases k <;> simp only [FitsDot] at h <;> exact Nat.lt_succ_self _

/-- The key of an access is given back. -/
theorem accessKey_back (hkey : k.IsNameKey ∨ (k.FitsDot ∧ k.WellFormed) ∧ k.ReadsBack limit)
    (hdepth : k.inner ≤ depth) (hts : Alike ts k.written) (hfollows : Follows k.reach rest)
    (hlimit : (ts ++ rest).length ≤ limit) :
    ∃ k', k'.bare = k.bare ∧ accessKey limit (Parser.expression limit depth) (ts ++ rest) = .ok k' rest := by
  rcases hkey with hname | ⟨⟨hfits, hformed⟩, hback⟩
  · obtain ⟨t, value, rfl⟩ := hname.exists_string
    rw [written] at hts
    obtain ⟨t', ts, rfl, ht', hnil⟩ := hts.cons_inv
    refine ⟨.string t' t'.lexeme, ?_, ?_⟩
    · rw [bare, bare, ht', hname.2, lexeme_of_bare ht']
    · rw [hnil.eq_nil, singleton_append, accessKey, bind_peek]
      simp only [(kind_of_bare ht').trans hname.1]
      rfl
  · rw [accessKey_of_fitsDot hfits hformed hts]
    exact hback.operandBack hfits.dot_lt_grip depth ts rest hdepth hts hfollows hlimit

theorem back_access {container key : Expr} (hformed : WellFormed (.access t container key))
    (hcontainer : container.ReadsBack limit)
    (hkey : key.IsNameKey ∨ (key.FitsDot ∧ key.WellFormed) ∧ key.ReadsBack limit) :
    ReadsBack limit (.access t container key) := by
  rw [WellFormed] at hformed
  obtain ⟨hkind, -, hreach, -⟩ := hformed
  refine hcontainer.operation (by rw [written]) (by rw [grip, hkind]) (hkind ▸ hreach)
    (by rw [inner]; exact Nat.le_max_left _ _) (by rw [hkind]; decide) ?_
  intro depth container' t' behind rest hcontainer' ht' hbehind hdepth hfollows hlimit
  rw [inner] at hdepth
  obtain ⟨key', hkey', hread⟩ := accessKey_back hkey (Nat.le_trans (Nat.le_max_right _ _) hdepth) hbehind
    hfollows hlimit
  refine ⟨.access t' container' key', by simp only [bare, ht', hcontainer', hkey'], ?_⟩
  rw [Parser.operation, bind_take]
  simp only [(kind_of_bare ht').trans hkind]
  exact bind_of_ok hread _

end Expr

/-! ### Every tree

One case for each form, by recursion over the tree. -/

mutual

theorem Expr.WellFormed.readsBack : ∀ {e : Expr}, e.WellFormed → e.ReadsBack limit
  | .number .., h => (Expr.back_number h).readsBack
  | .string .., h => (Expr.back_string h).readsBack
  | .boolean .., h => (Expr.back_boolean h).readsBack
  | .name _, h => (Expr.back_name h).readsBack
  | .empty _, h => by
      rw [Expr.WellFormed] at h
      exact (h.elim Expr.back_wildcard Expr.back_unit).readsBack
  | .negate t e, h => by
      have hformed := h
      rw [Expr.WellFormed] at h
      exact (Expr.back_negate hformed h.2.1.readsBack).readsBack
  | .binary t left right, h => by
      have hformed := h
      rw [Expr.WellFormed] at h
      exact Expr.back_binary hformed h.2.1.readsBack h.2.2.2.1.readsBack
  | .define t target value, h => by
      have hformed := h
      rw [Expr.WellFormed] at h
      exact Expr.back_define hformed h.2.1.readsBack h.2.2.2.readsBack
  | .access t container key, h => by
      have hformed := h
      rw [Expr.WellFormed] at h
      exact Expr.back_access hformed h.2.1.readsBack (h.2.2.2.imp_right fun hkey => ⟨hkey, hkey.2.readsBack⟩)
  | .call t callee arguments, h => by
      have hformed := h
      rw [Expr.WellFormed] at h
      exact Expr.back_call hformed h.2.1.readsBack h.2.2.2.allBack
  | .choose t subject arms, h => by
      have hformed := h
      rw [Expr.WellFormed] at h
      exact Expr.back_choose hformed h.2.1.readsBack h.2.2.2.allBack
  | .group t items, h => by
      rw [Expr.WellFormed] at h
      exact (Expr.back_group h.1 h.2.1 h.2.2.allBack).readsBack
  | .list t items, h => by
      rw [Expr.WellFormed] at h
      exact (Expr.back_list h.1 h.2.allBack).readsBack
  | .object t entries, h => by
      rw [Expr.WellFormed] at h
      exact (Expr.back_object h.1 h.2.allBack).readsBack
  | .function t name parameters body, h => by
      have hformed := h
      rw [Expr.WellFormed] at h
      exact (Expr.back_function hformed h.2.2.readsBack).readsBack

theorem Expr.AllWellFormed.allBack : ∀ {es : List Expr}, Expr.AllWellFormed es → Expr.AllBack limit es
  | [], _ => nofun
  | e :: rest, h => by
      rw [Expr.AllWellFormed] at h
      exact forall_mem_cons.2 ⟨⟨h.1, h.1.readsBack⟩, h.2.allBack⟩

theorem Arm.AllWellFormed.allBack : ∀ {arms : List Arm}, Arm.AllWellFormed arms →
    ∀ a ∈ arms, a.ReadsBack limit
  | [], _ => nofun
  | .case t pattern body :: rest, h => by
      rw [Arm.AllWellFormed] at h
      obtain ⟨⟨ht, hpattern, hwildcard, hbody⟩, hrest⟩ := h
      exact forall_mem_cons.2
        ⟨Arm.back_case ht hpattern hwildcard hbody hpattern.readsBack hbody.readsBack, hrest.allBack⟩
  | .otherwise t body :: rest, h => by
      rw [Arm.AllWellFormed] at h
      exact forall_mem_cons.2 ⟨Arm.back_otherwise h.1.1 h.1.2 h.1.2.readsBack, h.2.allBack⟩

theorem Entry.AllWellFormed.allBack : ∀ {entries : List Entry}, Entry.AllWellFormed entries →
    ∀ entry ∈ entries, entry.ReadsBack limit
  | [], _ => nofun
  | .mk key value :: rest, h => by
      rw [Entry.AllWellFormed] at h
      obtain ⟨⟨hkey, hvalue⟩, hrest⟩ := h
      exact forall_mem_cons.2
        ⟨Entry.back_mk (hkey.imp_right fun hkey => ⟨hkey, hkey.1.readsBack⟩) hvalue hvalue.readsBack,
          hrest.allBack⟩

end

end Expressions

/-! ## Programs -/

namespace Script

theorem itemsFrom_separator {found : List Expr} {problems : List Diagnostic}
    (h : t.kind = .separator) (rounds : Nat) (tokens : List Token) :
    Parser.itemsFrom limit found problems (rounds + 1) (t :: tokens) =
      Parser.itemsFrom limit found problems rounds tokens := by
  rw [Parser.itemsFrom, headD_cons, if_neg (by rw [h]; decide), if_pos h, tail_cons]

/-- Expressions with a separator in front of each are read back up to the end of the program. -/
theorem itemsFrom_back {limit : Nat} {items : List Expr}
    (h : ∀ e ∈ items, e.WellFormed ∧ e.nesting ≤ Parser.maxDepth) {found : List Expr}
    {problems : List Diagnostic} {rounds : Nat} {ts : List Token} {c : Token}
    (hts : Alike ts (items.flatMap fun e => Token.ofKind .separator :: e.written))
    (hc : c.kind = .finish) (hlimit : ts.length ≤ limit) (hrounds : ts.length < rounds) :
    ∃ items', items'.map Expr.bare = items.map Expr.bare ∧
      Parser.itemsFrom limit found problems rounds (ts ++ [c]) =
        (found.reverse ++ items', problems.reverse) := by
  induction items generalizing found rounds ts with
  | nil =>
    obtain ⟨rounds, rfl⟩ := Nat.exists_eq_succ_of_ne_zero (Nat.ne_of_gt (Nat.zero_lt_of_lt hrounds))
    refine ⟨[], rfl, ?_⟩
    rw [hts.eq_nil, nil_append, append_nil, Parser.itemsFrom, headD_cons, if_pos hc]
  | cons e items ih =>
    obtain ⟨⟨hformed, hdepth⟩, hitems⟩ := forall_mem_cons.1 h
    rw [flatMap_cons, cons_append] at hts
    obtain ⟨s, ts, rfl, hs, hts⟩ := hts.cons_inv
    obtain ⟨part, ts, rfl, hpart, hlater⟩ := hts.append_inv
    simp only [length_cons, length_append] at hlimit hrounds
    obtain ⟨v, vs, hnext, hv⟩ := @Parser.listed_next _ _ _ _ c [] hlater
    rw [hc] at hv
    have hfollows : Follows lowest (ts ++ [c]) := by
      rw [hnext]
      exact hv.elim (fun hv => .of_kind hv (by decide) (by decide))
        fun hv => .of_kind hv (by decide) (by decide)
    obtain ⟨e', he', hread⟩ := @Expr.ReadsBack.whole limit _ hformed.readsBack hformed.lowest_lt_grip _ _ _
      hdepth hpart hfollows (by simp; omega)
    obtain ⟨t, us, hwritten, -, hstarts⟩ := hformed.written_eq_cons
    rw [hwritten] at hpart
    obtain ⟨p, part, rfl, hp, -⟩ := hpart.cons_inv
    rw [← kind_of_bare hp] at hstarts
    -- One round for the separator and one for the expression.
    obtain ⟨rounds, rfl⟩ := Nat.exists_eq_add_of_le' (show 2 ≤ rounds by simp at hrounds; omega)
    obtain ⟨items', hitems', hrest⟩ := @ih hitems (e' :: found) rounds ts hlater (by omega)
      (by simp at hrounds; omega)
    refine ⟨e' :: items', by rw [map_cons, map_cons, he', hitems'], ?_⟩
    calc Parser.itemsFrom limit found problems (rounds + 2) (s :: (p :: part ++ ts) ++ [c])
        = Parser.itemsFrom limit found problems (rounds + 1) (p :: part ++ (ts ++ [c])) := by
          rw [cons_append, itemsFrom_separator (kind_of_bare hs), append_assoc]
      _ = Parser.itemsFrom limit (e' :: found) problems rounds (ts ++ [c]) := by
          rw [cons_append] at hread ⊢
          rw [Parser.itemsFrom, headD_cons, if_neg (Kind.ne_of_starts hstarts rfl),
            if_neg (Kind.ne_of_starts hstarts rfl), hread]
          simp only [hnext, headD_cons]
          rw [if_pos (by simpa using hv)]
      _ = (found.reverse ++ e' :: items', problems.reverse) := by rw [hrest]; simp

/-- Every well-formed program that is not nested too deep is read back from its tokens, without a
problem. -/
theorem parse_written (file : Text) (items : List Expr)
    (h : ∀ e ∈ items, e.WellFormed ∧ e.nesting ≤ Parser.maxDepth) :
    (Script.parse file (writtenTokens items)).2 = [] ∧
      (Script.parse file (writtenTokens items)).1.items.map Expr.bare = items.map Expr.bare := by
  have hunended : Token.Unended (writtenTokens items) := by
    rw [writtenTokens, Expr.writtenEach_eq_map]
    refine .separated fun part hpart => ?_
    obtain ⟨e, he, rfl⟩ := mem_map.1 hpart
    exact (h e he).1.unended_written
  have hcompleted : Parser.completed (writtenTokens items) = writtenTokens items ++ [.missingEnd] := by
    refine if_neg fun hfinish => ?_
    obtain ⟨t, ht, hkind⟩ := (Option.any_eq_true _ _).1 hfinish
    exact hunended t ht (by simpa using hkind)
  obtain ⟨ts, cs, hsplit, hts, hcs⟩ := (alike_numbered (writtenTokens items ++ [.missingEnd])).append_inv
  obtain ⟨c, cs, rfl, hc, hnil⟩ := hcs.cons_inv
  rw [hnil.eq_nil] at hsplit
  have hfinish : c.kind = .finish := kind_of_bare hc
  have hlength : (ts ++ [c]).length = ts.length + 1 := length_append
  obtain ⟨items', hitems', hread⟩ : ∃ items', items'.map Expr.bare = items.map Expr.bare ∧
      Parser.itemsFrom (ts ++ [c]).length [] [] ((ts ++ [c]).length + 1) (ts ++ [c]) = (items', []) := by
    rw [writtenTokens, Expr.writtenEach_eq_map] at hts
    cases items with
    | nil => exact itemsFrom_back h hts hfinish (by omega) (by omega)
    | cons e items =>
      -- A separator in front of the program takes one round more.
      have hts' : Alike (.ofKind .separator :: ts)
          ((e :: items).flatMap fun e => Token.ofKind .separator :: e.written) := by
        rw [← cons_separated]
        exact congrArg (Token.bare _ :: ·) hts
      obtain ⟨items', hitems', hread⟩ := @itemsFrom_back (ts ++ [c]).length _ h [] []
        ((ts ++ [c]).length + 2) _ c hts' hfinish (by simp) (by simp)
      rw [cons_append, itemsFrom_separator rfl] at hread
      exact ⟨items', hitems', hread⟩
  unfold Script.parse
  simp only [hcompleted, hsplit, hread, hitems', and_self]

/-- A definition of a function that chooses, and a call with an access behind it. -/
def chosen : List Expr :=
  let x : Token := { kind := .name, lexeme := "x" }
  let f : Token := { kind := .name, lexeme := "f" }
  let one : Token := { kind := .number, lexeme := "1", literal := some (.number ⟨1⟩) }
  [.define (.ofKind .define) (.name f)
    (.function (.ofKind .functionArrow) "f" [⟨x, "x"⟩]
      (.choose (.ofKind .choose) (.name x)
        [.case (.ofKind .arrow) (.number one ⟨1⟩) (.negate (.ofKind .tilde) (.name x)),
          .otherwise (.ofKind .arrow)
            (.binary (.ofKind .star)
              (.group (.ofKind .openParen)
                [.binary (.ofKind .plus) (.name x) (.number one ⟨1⟩)])
              (.empty (.ofKind .openParen)))])),
    .access (.ofKind .dot)
      (.call (.ofKind .openParen) (.name f)
        [.object (.ofKind .openBrace) [.mk (.string x "x") (.number one ⟨1⟩)],
          .list (.ofKind .openBracket) []])
      (.string x "x")]

theorem parse_written_chosen :
    (∀ e ∈ chosen, e.WellFormed ∧ e.nesting ≤ Parser.maxDepth) ∧
      (Script.parse "main" (writtenTokens chosen)).2 = [] ∧
      (Script.parse "main" (writtenTokens chosen)).1.items.map Expr.bare = chosen.map Expr.bare := by
  have h : ∀ e ∈ chosen, e.WellFormed ∧ e.nesting ≤ Parser.maxDepth := by
    simp [chosen, Expr.WellFormed, Expr.AllWellFormed, Arm.AllWellFormed, Entry.AllWellFormed,
      Parameter.WellFormed, Expr.IsNameKey, Expr.IsWildcard, Expr.grip, Expr.reach, Kind.isInfix,
      Token.ofKind, precedence, negation, Expr.nesting, Expr.inner, Expr.innerAll,
      Arm.innerAll, Arm.inner, Entry.innerAll, Entry.inner, Parser.maxDepth]
  exact ⟨h, parse_written "main" chosen h⟩

end Script

end Inkwell
