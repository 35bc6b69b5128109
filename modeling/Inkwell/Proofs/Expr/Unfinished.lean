import Mathlib
import Inkwell.Reading
import Inkwell.Proofs.Expr.ReadBack
import Inkwell.Proofs.Token.Beginning

/-!
# Programs that end too early

A program without a problem is cut at a line break, and what stands before it is read on its own. Every
reader goes through the same tokens as before, until it meets the end; from there on it can only return
what it has, or fail because the end came too early (`Parser.Cuts`). So the beginning of the program is
a program itself, or it is incomplete (`Reading.before_newline`).

There is one exception: the reader of expressions looks how deep it is before it looks at the next
token. Where brackets are open up to the limit, it finds that there are too many levels, although the
whole program closes the innermost bracket again without an expression in it.
-/

namespace Inkwell

open List

variable {kind : Kind}

/-- What is wrong is that the program ends at the given token. -/
def Diagnostic.IsEarlyEnd (finish : Token) (d : Diagnostic) : Prop :=
  d.problem.code = "P002" ∨ d = { problem := .tooDeep, position := finish.position }

namespace Parser

variable {α β : Type} {finish : Token} {us ts : List Token} {n m : Nat}

/-! ## Readers that have come to the end -/

/-- Reading has come to the end of the program. -/
def Stops (finish : Token) (result : Parsed α) : Prop :=
  (∃ a, result = .ok a [finish]) ∨ ∃ d, result = .failed d [finish] ∧ d.IsEarlyEnd finish

namespace Stops

theorem bind {p : Parser α} {f : α → Parser β} {tokens : List Token} (hp : Stops finish (p tokens))
    (hf : ∀ a, Stops finish (f a [finish])) : Stops finish ((p >>= f) tokens) := by
  rcases hp with ⟨a, ha⟩ | ⟨d, hd, hearly⟩
  · rw [bind_of_ok ha]
    exact hf a
  · rw [bind_of_failed hd]
    exact .inr ⟨d, rfl, hearly⟩

variable (hfinish : finish.kind = .finish)

include hfinish

theorem unexpected : Stops finish ((fail (.unexpected finish) finish : Parser α) [finish]) :=
  .inr ⟨_, rfl, .inl (if_pos hfinish)⟩

theorem expected (kind : Kind) :
    Stops finish ((fail (.expected kind finish) finish : Parser α) [finish]) :=
  .inr ⟨_, rfl, .inl (if_pos hfinish)⟩

end Stops

/-! ## Readers before the end -/

/-- Reading `ts` with the end behind it takes the same tokens, at least `n` of them, and gives the same
as reading `ts` with more behind it, or it comes to the end. In front of the end alone, it comes to it
whatever is behind. -/
structure Cuts (finish : Token) (us : List Token) (n : Nat) (p q : Parser α) (ts : List Token) :
    Prop where
  stops : ts = [] → Stops finish (q [finish])
  reads : ∀ a rest, p (ts ++ us) = .ok a rest →
    (∃ ts', ts'.length + n ≤ ts.length ∧ rest = ts' ++ us ∧
      q (ts ++ [finish]) = .ok a (ts' ++ [finish])) ∨ Stops finish (q (ts ++ [finish]))

namespace Cuts

theorem nil {p q : Parser α} (h : Stops finish (q [finish])) : Cuts finish us n p q [] :=
  ⟨fun _ => h, fun _ _ _ => .inr h⟩

theorem mono {p q : Parser α} (h : Cuts finish us n p q ts) (hmn : m ≤ n) :
    Cuts finish us m p q ts := by
  refine ⟨h.stops, fun a rest hp => (h.reads a rest hp).imp_left ?_⟩
  rintro ⟨ts', hlength, hrest⟩
  exact ⟨ts', by omega, hrest⟩

theorem pure (a : α) (ts : List Token) : Cuts finish us 0 (Pure.pure a) (Pure.pure a) ts := by
  refine ⟨fun _ => .inl ⟨a, rfl⟩, fun b rest hb => ?_⟩
  cases hb
  exact .inl ⟨ts, Nat.le_refl _, rfl, rfl⟩

theorem bind {p q : Parser α} {f g : α → Parser β} (hp : Cuts finish us n p q ts)
    (hf : ∀ a ts', ts'.length ≤ ts.length - n → Cuts finish us m (f a) (g a) ts') :
    Cuts finish us n (p >>= f) (q >>= g) ts := by
  have hg : ∀ a, Stops finish (g a [finish]) := fun a => (hf a [] (Nat.zero_le _)).stops rfl
  refine ⟨fun hnil => (hp.stops hnil).bind hg, fun b rest h => ?_⟩
  cases hread : p (ts ++ us) with
  | failed problem rest' =>
    rw [bind_of_failed hread] at h
    cases h
  | ok a rest' =>
    rw [bind_of_ok hread] at h
    rcases hp.reads a rest' hread with ⟨ts', hlength, rfl, hq⟩ | hstops
    · rw [bind_of_ok hq]
      refine ((hf a ts' (by omega)).reads b rest h).imp_left ?_
      rintro ⟨ts'', hlength', hrest'⟩
      exact ⟨ts'', by omega, hrest'⟩
    · exact .inr (hstops.bind hg)

variable {t : Token}

theorem fail (problem : Problem) (token : Token) (q : Parser α) (ts : List Token) :
    Cuts finish us n (Parser.fail problem token) q (t :: ts) := by
  refine ⟨nofun, fun _ _ h => ?_⟩
  cases h

theorem take {f g : Token → Parser β} (ts : List Token) (h : Cuts finish us n (f t) (g t) ts) :
    Cuts finish us 1 (Parser.take >>= f) (Parser.take >>= g) (t :: ts) := by
  refine ⟨nofun, fun a rest hread => (h.reads a rest hread).imp_left ?_⟩
  rintro ⟨ts', hlength, hrest⟩
  exact ⟨ts', by rw [length_cons]; omega, hrest⟩

/-- A token by itself. -/
theorem single (a : α) (ts : List Token) :
    Cuts finish us 1 (do let _ ← Parser.take; Pure.pure a) (do let _ ← Parser.take; Pure.pure a)
      (t :: ts) :=
  .take ts (.pure a ts)

theorem peek_cons {f g : Token → Parser β} (h : Cuts finish us n (f t) (g t) (t :: ts)) :
    Cuts finish us n (Parser.peek >>= f) (Parser.peek >>= g) (t :: ts) :=
  ⟨nofun, h.reads⟩

theorem peek {f g : Token → Parser β} (hend : Stops finish (g finish [finish]))
    (h : ∀ t ts', ts'.length < ts.length → Cuts finish us n (f t) (g t) (t :: ts')) :
    Cuts finish us n (Parser.peek >>= f) (Parser.peek >>= g) ts := by
  cases ts with
  | nil => exact .nil hend
  | cons t ts => exact peek_cons (h t ts (Nat.lt_succ_self _))

section

variable (hfinish : finish.kind = .finish)

include hfinish

/-- The end is not a token of another kind. -/
theorem branch {l : Nat} {p p' q q' : Parser β} (hkind : kind ≠ .finish)
    (hp : ∀ t ts', ts'.length < ts.length → Cuts finish us n p p' (t :: ts'))
    (hq : Cuts finish us l q q' ts) :
    Cuts finish us 0 (Parser.peek >>= fun t => if t.kind = kind then p else q)
      (Parser.peek >>= fun t => if t.kind = kind then p' else q') ts := by
  cases ts with
  | nil =>
    refine .nil ?_
    rw [bind_peek, if_neg (by rw [hfinish]; exact hkind.symm)]
    exact hq.stops rfl
  | cons t ts =>
    refine peek_cons ?_
    split
    · exact (hp t ts (Nat.lt_succ_self _)).mono (Nat.zero_le _)
    · exact hq.mono (Nat.zero_le _)

/-- Separators in front of the end, or of more. -/
theorem skipSeparators (ts : List Token) :
    Cuts finish us 0 Parser.skipSeparators Parser.skipSeparators ts := by
  have hstops : Parser.skipSeparators [finish] = .ok () [finish] :=
    skipSeparators_of_ne (by simp [hfinish])
  refine ⟨fun _ => .inl ⟨(), hstops⟩, ?_⟩
  rintro ⟨⟩ rest h
  change Parsed.ok () ((ts ++ us).dropWhile fun t => t.kind = .separator) = _ at h
  cases h
  show _ ∨ Stops finish (.ok () ((ts ++ [finish]).dropWhile fun t => t.kind = .separator))
  rw [dropWhile_append, dropWhile_append]
  split
  · exact .inr (.inl ⟨(), hstops⟩)
  · refine .inl ⟨ts.dropWhile fun t => t.kind = .separator, ?_, rfl, ?_⟩
    · exact (dropWhile_sublist _).length_le
    · show Parsed.ok () ((ts ++ [finish]).dropWhile fun t => t.kind = .separator) = _
      rw [dropWhile_append, if_neg (by assumption)]

theorem expect (hkind : kind ≠ .finish) (ts : List Token) :
    Cuts finish us 1 (Parser.expect kind) (Parser.expect kind) ts := by
  refine .peek ?_ fun t ts' _ => ?_
  · rw [if_neg (by rw [hfinish]; exact hkind.symm)]
    exact .expected hfinish kind
  · split
    · refine ⟨nofun, fun a rest h => ?_⟩
      cases h
      exact .inl ⟨ts', Nat.le_refl _, rfl, rfl⟩
    · exact fail _ _ _ _

/-- Lists are read alike if their items are. -/
theorem listed {one one' : Parser α} {close : Kind} (hclose : close ≠ .finish) {bound : Nat}
    (hone : ∀ ts : List Token, ts.length ≤ bound → Cuts finish us 1 one one' ts) {rounds' : Nat} :
    ∀ {rounds : Nat} {ts : List Token} {found : List α}, ts.length ≤ bound → ts.length ≤ rounds' →
      Cuts finish us 0 (listed one close found rounds) (listed one' close found rounds') ts := by
  induction rounds' with
  | zero =>
    intro rounds ts found _ hrounds
    obtain rfl := eq_nil_of_length_eq_zero (Nat.le_zero.1 hrounds)
    exact .nil (.unexpected hfinish)
  | succ rounds' ih =>
    intro rounds ts found hbound hrounds
    have hsucc : ∀ rounds, Cuts finish us 0 (Parser.listed one close found (rounds + 1))
        (Parser.listed one' close found (rounds' + 1)) ts := by
      intro rounds
      unfold Parser.listed
      refine .bind (m := 0) (.skipSeparators hfinish ts) fun _ ts' hts' => ?_
      refine .branch (l := 1) hfinish hclose (fun _ rest _ => single _ rest) ?_
      refine (hone ts' (by omega)).bind (m := 0) fun item rest hrest => .peek ?_ fun u rest' hrest' => ?_
      · rw [if_neg (by simp [hfinish, hclose.symm])]
        exact .expected hfinish close
      · split
        · exact ih (by rw [length_cons]; omega) (by rw [length_cons]; omega)
        · exact .fail _ _ _ _
    cases rounds with
    | zero =>
      refine ⟨(hsucc 0).stops, fun a rest h => ?_⟩
      cases h
    | succ rounds => exact hsucc rounds

end

end Cuts

/-! ## Expressions -/

/-- Reads the arm that matches everything. -/
def otherwiseArm (sub : Nat → Parser Expr) : Parser Arm := do
  let _ ← take
  let arrow ← expect .arrow
  let body ← sub lowest
  return .otherwise arrow body

/-- Reads an arm with a pattern. -/
def caseArm (sub : Nat → Parser Expr) : Parser Arm := do
  let pattern ← sub lowest
  let arrow ← expect .arrow
  let body ← sub lowest
  return .case arrow pattern body

theorem arm_of_otherwise (sub : Nat → Parser Expr) {t u : Token} (rest : List Token)
    (h : t.kind = .wildcard ∧ u.kind = .arrow) :
    arm sub (t :: u :: rest) = otherwiseArm sub (t :: u :: rest) := by
  have hstarts : startsOtherwise (t :: u :: rest) = .ok true (t :: u :: rest) := by
    simp [startsOtherwise, h]
  rw [arm, bind_of_ok hstarts]
  rfl

theorem arm_of_case (sub : Nat → Parser Expr) {t u : Token} (rest : List Token)
    (h : ¬ (t.kind = .wildcard ∧ u.kind = .arrow)) :
    arm sub (t :: u :: rest) = caseArm sub (t :: u :: rest) := by
  have hstarts : startsOtherwise (t :: u :: rest) = .ok false (t :: u :: rest) := by
    simpa [startsOtherwise] using h
  rw [arm, bind_of_ok hstarts]
  rfl

/-- The readers of the expressions inside a form, the one that has more to read and the one that has
not, in front of at most `bound` tokens. -/
structure Inner (finish : Token) (us : List Token) (bound : Nat) (sub sub' : Nat → Parser Expr) :
    Prop where
  ends : finish.kind = .finish
  cuts : ∀ least ts, lowest ≤ least → ts.length ≤ bound → Cuts finish us 1 (sub least) (sub' least) ts
  wildcard : ∀ (t : Token) tokens e rest, t.kind = .wildcard → sub lowest tokens = .ok e rest →
    Stops finish (sub' lowest [t, finish])

namespace Inner

variable {limit limit' bound : Nat} {sub sub' : Nat → Parser Expr} {t : Token}
  (h : Inner finish us bound sub sub')

include h

/-- An expression is the last thing in a form. -/
theorem last {least : Nat} (hleast : lowest ≤ least) (hts : ts.length ≤ bound) (make : Expr → β) :
    Cuts finish us 1 (do return make (← sub least)) (do return make (← sub' least)) ts :=
  (h.cuts least ts hleast hts).bind fun _ _ _ => .pure _ _

theorem functionBody (hts : ts.length ≤ bound) (parameters : List Parameter) :
    Cuts finish us 1 (functionBody sub parameters) (functionBody sub' parameters) (t :: ts) :=
  .take ts (h.last (Nat.le_refl _) hts _)

theorem itemsUpTo (hbound : bound ≤ limit')
    (hts : ts.length ≤ bound) {close : Kind} (hclose : close ≠ .finish) :
    Cuts finish us 0 (itemsUpTo sub close [] limit) (itemsUpTo sub' close [] limit') ts := by
  rw [itemsUpTo_eq, itemsUpTo_eq]
  exact .listed h.ends hclose (fun ts => h.cuts lowest ts (Nat.le_refl _)) hts (by omega)

omit h in
/-- Parameters are made of what has been read. -/
theorem parameters {f g : List Parameter → Parser β}
    (h : ∀ ps, Cuts finish us n (f ps) (g ps) (t :: ts)) (found : List Parameter)
    (items : List Expr) :
    Cuts finish us n (parameters found items >>= f) (parameters found items >>= g) (t :: ts) := by
  induction items generalizing found with
  | nil => exact h found.reverse
  | cons e items ih =>
    cases e with
    | name token => exact ih _
    | empty token => exact ih _
    | _ =>
      refine ⟨nofun, fun a rest hread => ?_⟩
      cases hread

theorem group (hbound : bound ≤ limit') (hts : ts.length ≤ bound) :
    Cuts finish us 1 (group limit sub) (group limit' sub') (t :: ts) := by
  refine .take ts (.bind (m := 0) (.skipSeparators h.ends ts) fun _ ts' hts' => ?_)
  refine .branch (l := 0) h.ends (by decide) (fun u middle hmiddle => .take (n := 0) middle ?_) ?_
  · -- empty parentheses, or a function without parameters
    exact .branch h.ends (by decide) (fun _ rest hrest => h.functionBody (by omega) _) (.pure _ _)
  · exact (h.itemsUpTo hbound (by omega) (by decide)).bind fun items rest hrest =>
      .branch h.ends (by decide) (fun v behind hbehind =>
        parameters (fun ps => h.functionBody (by omega) ps) [] items) (.pure _ _)

theorem key (hts : ts.length ≤ bound) : Cuts finish us 1 (key sub) (key sub') ts := by
  refine .peek ?_ fun t ts' hts' => ?_
  · simp only [h.ends]
    exact (h.cuts entryKey [] (by decide) (Nat.zero_le _)).stops rfl
  · split
    · exact .single _ _
    · exact .fail _ _ _ _
    · exact h.cuts entryKey _ (by decide) (by rw [length_cons]; omega)

/-- An arrow or a colon and the expression behind it. -/
theorem tail (kind : Kind) (hkind : kind ≠ .finish) (hts : ts.length ≤ bound) (make : Token → Expr → β) :
    Cuts finish us 1 (do let t ← Parser.expect kind; return make t (← sub lowest))
      (do let t ← Parser.expect kind; return make t (← sub' lowest)) ts :=
  (Cuts.expect h.ends hkind ts).bind fun _ _ hrest => h.last (Nat.le_refl _) (by omega) _

theorem entry (hts : ts.length ≤ bound) : Cuts finish us 1 (entry sub) (entry sub') ts :=
  (h.key hts).bind fun k _ hrest =>
    h.tail .colon (by decide) (by omega) fun _ => Entry.mk k

theorem caseArm (hts : ts.length ≤ bound) : Cuts finish us 1 (caseArm sub) (caseArm sub') ts :=
  (h.cuts lowest ts (Nat.le_refl _) hts).bind fun pattern _ hrest =>
    h.tail .arrow (by decide) (by omega) fun arrow => Arm.case arrow pattern

theorem otherwiseArm (hts : ts.length ≤ bound) :
    Cuts finish us 1 (otherwiseArm sub) (otherwiseArm sub') (t :: ts) :=
  .take ts (h.tail .arrow (by decide) hts Arm.otherwise)

theorem arm (hts : ts.length ≤ bound) : Cuts finish us 1 (arm sub) (arm sub') ts := by
  rcases ts with _ | ⟨t, _ | ⟨u, ts⟩⟩
  · exact .nil ((h.caseArm hts).stops rfl)
  · refine ⟨nofun, fun a rest hread => ?_⟩
    have hpart : Parser.arm sub' ([t] ++ [finish]) = Parser.caseArm sub' [t, finish] :=
      arm_of_case sub' [] (by simp [h.ends])
    rw [hpart]
    cases us with
    | nil => exact (h.caseArm hts).reads a rest hread
    | cons u us =>
      by_cases hotherwise : t.kind = .wildcard ∧ u.kind = .arrow
      · -- The arrow is behind the cut, so the wildcard is read as a pattern without one.
        right
        rw [singleton_append, arm_of_otherwise sub us hotherwise, Parser.otherwiseArm, bind_take,
          bind_of_ok (expect_of_kind hotherwise.2)] at hread
        cases hbody : sub lowest us with
        | failed problem rest' =>
          rw [bind_of_failed hbody] at hread
          cases hread
        | ok body rest' =>
          exact .bind (h.wildcard t us body rest' hotherwise.1 hbody) fun pattern =>
            (h.tail .arrow (by decide) (Nat.zero_le _) fun arrow => Arm.case arrow pattern).stops rfl
      · rw [singleton_append, arm_of_case sub us hotherwise] at hread
        exact (h.caseArm hts).reads a rest hread
  · refine ⟨nofun, fun a rest hread => ?_⟩
    simp only [cons_append] at hread ⊢
    by_cases hotherwise : t.kind = .wildcard ∧ u.kind = .arrow
    · rw [arm_of_otherwise _ _ hotherwise] at hread ⊢
      exact (h.otherwiseArm (Nat.le_of_succ_le hts)).reads a rest hread
    · rw [arm_of_case _ _ hotherwise] at hread ⊢
      exact (h.caseArm hts).reads a rest hread

/-- A name or a wildcard, or a function with it as its parameter. -/
theorem named (hts : ts.length ≤ bound) (p : Parameter) (e : Expr) :
    Cuts finish us 1 (do
        let _ ← Parser.take
        if (← Parser.peek).kind = .functionArrow then Parser.functionBody sub [p] else return e)
      (do
        let _ ← Parser.take
        if (← Parser.peek).kind = .functionArrow then Parser.functionBody sub' [p] else return e)
      (t :: ts) :=
  .take ts (.branch h.ends (by decide) (fun _ _ hrest => h.functionBody (by omega) _) (.pure _ _))

theorem operand (hbound : bound ≤ limit') (hts : ts.length ≤ bound) :
    Cuts finish us 1 (operand limit sub) (operand limit' sub') ts := by
  refine .peek ?_ fun t rest hrest => ?_
  · simp only [h.ends]
    exact .unexpected h.ends
  have hbehind : rest.length ≤ bound := by omega
  split
  · exact h.named hbehind _ _
  · exact h.named hbehind _ _
  · exact .single _ _
  · exact .single _ _
  · exact .single _ _
  · exact .single _ _
  · exact .take rest (h.last (by decide) hbehind _)
  · exact h.group hbound hbehind
  · exact .take rest ((h.itemsUpTo hbound hbehind (by decide)).bind fun _ _ _ => .pure _ _)
  · rw [entriesUpTo_eq, entriesUpTo_eq]
    exact .take rest (.bind (.listed h.ends (by decide) (fun _ => h.entry) hbehind (by omega))
      fun _ _ _ => .pure _ _)
  · exact .fail _ _ _ _

theorem accessKey (hbound : bound ≤ limit') (hts : ts.length ≤ bound) :
    Cuts finish us 1 (accessKey limit sub) (accessKey limit' sub') ts := by
  refine .peek ?_ fun t rest hrest => ?_
  · simp only [h.ends]
    exact .unexpected h.ends
  split
  · exact .single _ _
  · exact .single _ _
  · exact .single _ _
  · exact h.group hbound (by omega)
  · exact .fail _ _ _ _

theorem operation (hbound : bound ≤ limit') (hts : ts.length ≤ bound) (left : Expr) :
    Cuts finish us 1 (operation limit sub left) (operation limit' sub' left) (t :: ts) := by
  unfold Parser.operation
  rw [armsUpTo_eq, armsUpTo_eq]
  apply Cuts.take ts (n := 0)
  split
  · exact (h.last (Nat.le_refl _) hts _).mono (Nat.zero_le _)
  · refine ((Cuts.expect h.ends (by decide) ts).bind (m := 0) fun _ rest hrest => ?_).mono
      (Nat.zero_le _)
    exact .bind (.listed h.ends (by decide) (fun _ => h.arm) (by omega) (by omega))
      fun _ _ _ => .pure _ _
  · exact (h.itemsUpTo hbound hts (by decide)).bind fun _ _ _ => .pure _ _
  · exact ((h.accessKey hbound hts).bind fun _ _ _ => .pure _ _).mono (Nat.zero_le _)
  · exact (h.last (lowest_le_precedence _) hts _).mono (Nat.zero_le _)

theorem operations (hbound : bound ≤ limit') {least : Nat} (hleast : lowest ≤ least)
    {rounds' : Nat} : ∀ {rounds : Nat} {left : Expr} {ts : List Token},
    ts.length ≤ bound → ts.length ≤ rounds → ts.length ≤ rounds' →
      Cuts finish us 0 (operations limit sub least left rounds)
        (operations limit' sub' least left rounds') ts := by
  induction rounds' with
  | zero =>
    intro rounds left ts _ _ hrounds'
    obtain rfl := eq_nil_of_length_eq_zero (Nat.le_zero.1 hrounds')
    exact .nil (.inl ⟨left, rfl⟩)
  | succ rounds' ih =>
    intro rounds left ts hts hrounds hrounds'
    -- nothing binds an operand to the end
    have hend : ¬ least < precedence finish.kind := by
      rw [h.ends]
      exact Nat.not_lt.2 hleast
    have hsucc : ∀ rounds, ts.length ≤ rounds + 1 →
        Cuts finish us 0 (Parser.operations limit sub least left (rounds + 1))
          (Parser.operations limit' sub' least left (rounds' + 1)) ts := by
      intro rounds hrounds
      refine .peek ?_ fun t rest hrest => ?_
      · rw [if_neg hend]
        exact .inl ⟨left, rfl⟩
      · split
        · refine ((h.operation hbound (by omega) left).bind (m := 0) fun e behind hbehind => ?_).mono
            (Nat.zero_le _)
          rw [length_cons] at hbehind
          exact ih (by omega) (by omega) (by omega)
        · exact .pure _ _
    cases rounds with
    | zero =>
      obtain rfl := eq_nil_of_length_eq_zero (Nat.le_zero.1 hrounds)
      exact .nil ((hsucc 0 (Nat.zero_le _)).stops rfl)
    | succ rounds => exact hsucc rounds hrounds

end Inner

/-- Expressions of any depth are read alike up to the end. -/
theorem inner_expression {limit limit' bound : Nat} (hfinish : finish.kind = .finish)
    (hlimit : bound ≤ limit) (hlimit' : bound ≤ limit') (depth : Nat) :
    Inner finish us bound (expression limit depth) (expression limit' depth) := by
  induction depth with
  | zero =>
    refine ⟨hfinish, fun _ _ _ _ => ⟨fun _ => .inr ⟨_, rfl, .inr rfl⟩, ?_⟩, ?_⟩
    · intro a rest h
      cases h
    · intro t tokens e rest _ h
      cases h
  | succ depth ih =>
    have hleft : ∀ least e ts, lowest ≤ least → ts.length ≤ bound → Cuts finish us 0
        (operations limit (expression limit depth) least e limit)
        (operations limit' (expression limit' depth) least e limit') ts :=
      fun least e ts hleast hts => ih.operations hlimit' hleast hts (by omega) (by omega)
    refine ⟨hfinish, fun least ts hleast hts => ?_, fun t tokens e rest hwildcard _ => ?_⟩
    · exact (ih.operand hlimit' hts).bind fun e rest hrest => hleft least e rest hleast (by omega)
    · refine .bind (.inl ⟨.empty t, ?_⟩) fun e =>
        (hleft lowest e [] (Nat.le_refl _) (Nat.zero_le _)).stops rfl
      unfold operand
      rw [bind_peek]
      simp only [hwildcard]
      rw [bind_take, bind_peek, hfinish]
      rfl

/-! ## Programs -/

theorem itemsFrom_finish (hfinish : finish.kind = .finish) (limit : Nat) (items : List Expr)
    (problems : List Diagnostic) (rounds : Nat) :
    itemsFrom limit items problems rounds [finish] = (items.reverse, problems.reverse) := by
  cases rounds with
  | zero => rfl
  | succ rounds =>
    rw [itemsFrom, headD_cons]
    exact if_pos hfinish

/-- The part of a program without a problem has none either, or it ends too early. -/
theorem itemsFrom_cuts {limit limit' : Nat} (hfinish : finish.kind = .finish) (rounds : Nat) :
    ∀ {rounds' : Nat} {items items' : List Expr} {ts : List Token},
      ts.length ≤ limit → ts.length ≤ limit' → ts.length < rounds → ts.length < rounds' →
      (itemsFrom limit items [] rounds (ts ++ us)).2 = [] →
        (itemsFrom limit' items' [] rounds' (ts ++ [finish])).2 = [] ∨
          ∃ d : Diagnostic, (itemsFrom limit' items' [] rounds' (ts ++ [finish])).2 = [d] ∧
            d.IsEarlyEnd finish := by
  induction rounds with
  | zero => exact fun _ _ h => absurd h (Nat.not_lt_zero _)
  | succ rounds ih =>
    intro rounds' items items' ts hlimit hlimit' hrounds hrounds' hnone
    cases ts with
    | nil => exact .inl (by rw [nil_append, itemsFrom_finish hfinish]; rfl)
    | cons t ts =>
      rw [length_cons] at hrounds hrounds'
      obtain ⟨rounds', rfl⟩ : ∃ n, rounds' = n + 1 := ⟨rounds' - 1, by omega⟩
      rw [cons_append] at hnone ⊢
      rw [itemsFrom, headD_cons] at hnone ⊢
      dsimp only at hnone ⊢
      split at hnone
      · rename_i hend
        exact .inl (by rw [if_pos hend]; rfl)
      rename_i hgoes
      rw [if_neg hgoes]
      split at hnone
      · rename_i hseparator
        rw [if_pos hseparator]
        rw [length_cons] at hlimit hlimit'
        exact ih (by omega) (by omega) (by omega) (by omega) hnone
      rename_i hstarts
      rw [if_neg hstarts]
      have hfollow : ∀ item, (itemsFrom limit' (item :: items') [] rounds' [finish]).2 = [] :=
        fun item => by rw [itemsFrom_finish hfinish]; rfl
      cases hread : expression limit maxDepth lowest (t :: (ts ++ us)) with
      | failed problem rest =>
        rw [hread] at hnone
        exact absurd hnone (itemsFrom_problems_ne_nil _ _ _ _ _ (cons_ne_nil _ _))
      | ok item rest =>
        rw [hread] at hnone
        dsimp only at hnone
        split at hnone
        · rename_i hnext
          rcases ((inner_expression hfinish hlimit hlimit' maxDepth).cuts lowest (t :: ts)
              (Nat.le_refl _) (Nat.le_refl _)).reads item rest hread with
            ⟨ts', hlength, rfl, hpart⟩ | ⟨a, hpart⟩ | ⟨d, hpart, hearly⟩
          · rw [cons_append] at hpart
            rw [hpart]
            dsimp only
            rw [length_cons] at hlength hlimit hlimit'
            cases ts' with
            | nil =>
              rw [nil_append, headD_cons, if_pos (by simp [hfinish])]
              exact .inl (hfollow item)
            | cons u ts' =>
              rw [cons_append, headD_cons] at hnext ⊢
              rw [if_pos hnext]
              exact ih (by omega) (by omega) (by omega) (by omega) hnone
          · rw [cons_append] at hpart
            rw [hpart]
            dsimp only
            rw [headD_cons, if_pos (by simp [hfinish])]
            exact .inl (hfollow a)
          · rw [cons_append] at hpart
            rw [hpart]
            dsimp only
            refine .inr ⟨d, ?_, hearly⟩
            rw [resume, hfinish, itemsFrom_finish hfinish]
            rfl
        · exact absurd hnone (itemsFrom_problems_ne_nil _ _ _ _ _ (cons_ne_nil _ _))

/-- What is added to a list of tokens is added behind it. -/
theorem numbered_completed_append (ts us : List Token) :
    ∃ us', Token.numbered (completed (ts ++ us)) = Token.numbered ts ++ us' := by
  have hcompleted : ∃ us', completed (ts ++ us) = ts ++ us' := by
    unfold completed
    split
    · exact ⟨us, rfl⟩
    · exact ⟨us ++ [.missingEnd], by rw [append_assoc]⟩
  obtain ⟨us', hus'⟩ := hcompleted
  rw [hus', Token.numbered, mapIdx_append]
  exact ⟨_, rfl⟩

end Parser

/-- The expressions of a program without a problem, read up to some token, have none either, or they end
too early. -/
theorem Script.parse_cuts (file : Text) {ts us : List Token} {finish : Token}
    (hfinish : finish.kind = .finish) (h : (Script.parse file (ts ++ us)).2 = []) :
    (Script.parse file (ts ++ [finish])).2 = [] ∨
      ∃ d : Diagnostic, (Script.parse file (ts ++ [finish])).2 = [d] ∧ d.IsEarlyEnd finish := by
  obtain ⟨us', hwhole⟩ := Parser.numbered_completed_append ts us
  have hpart : Token.numbered (Parser.completed (ts ++ [finish])) =
      Token.numbered ts ++ [{ finish with index := ts.length }] := by
    rw [Parser.completed, if_pos (by simp [hfinish]), Token.numbered, mapIdx_append]
    simp [Token.numbered]
  unfold Script.parse at h ⊢
  dsimp only at h ⊢
  rw [hwhole] at h
  rw [hpart]
  simp only [length_append, length_singleton] at h ⊢
  have hlast : ({ finish with index := ts.length } : Token).kind = .finish := hfinish
  exact Parser.itemsFrom_cuts hlast _ (by omega) (by omega) (by omega) (by omega) h

namespace Reading

theorem isClean_ofSource (file source : Text) :
    (ofSource file source).isClean = true ↔ (Token.scan source).problems = [] ∧
      (Script.parse file (Token.scan source).tokens).2 = [] := by
  simp [isClean, ofSource, ofTokens]

/-- **What stands before a line break.** For every line break of a program without a problem, what
stands before it is a program without a problem too, or it is incomplete, or its end was found to be too
deep: the brackets that are open there go to the limit, and no expression follows in the innermost. -/
theorem before_newline (file : Text) {s t : Text}
    (h : (ofSource file (s ++ "\n" ++ t)).isClean = true) :
    (ofSource file s).isClean = true ∨ isIncomplete s = true ∨
      ∃ finish, (Token.scan s).tokens.getLast? = some finish ∧
        (ofSource file s).problems = [{ problem := .tooDeep, position := finish.position, file }] := by
  obtain ⟨hscan, hparse⟩ := (isClean_ofSource file _).1 h
  rcases Token.scan_newline s t with
    ⟨d, hd, hcode⟩ | hsame | ⟨ts, finish, hfinish, htokens, hts, hproblems⟩
  · right; left
    have hany : (Token.scan s).problems.any (·.problem.code == "L002") = true :=
      any_eq_true.2 ⟨d, hd, by simp [hcode]⟩
    simp [isIncomplete, hany]
  · left
    rw [hsame] at hscan hparse
    exact (isClean_ofSource file s).2 ⟨hscan, hparse⟩
  · obtain ⟨us, hus⟩ := hts
    have hnone : (Token.scan s).problems = [] := by
      rw [hscan] at hproblems
      exact prefix_nil.1 hproblems
    rw [← hus] at hparse
    rcases Script.parse_cuts file hfinish hparse with hclean | ⟨d, hd, hearly | rfl⟩
    · rw [← htokens] at hclean
      exact .inl ((isClean_ofSource file s).2 ⟨hnone, hclean⟩)
    · right; left
      rw [← htokens] at hd
      have hd' : (Script.parse "" (Token.scan s).tokens).2 = [d] := hd
      unfold isIncomplete
      dsimp only
      rw [hd']
      simp [hearly]
    · refine .inr (.inr ⟨finish, by rw [htokens, getLast?_concat], ?_⟩)
      rw [← htokens] at hd
      simp only [ofSource, ofTokens, hnone, hd]
      rfl

/-- A group over two lines. -/
theorem before_newline_group :
    (ofSource "main" ("out((1" ++ "\n" ++ "2))")).isClean = true ∧
      ((ofSource "main" "out((1").isClean = true ∨ isIncomplete "out((1" = true ∨
        ∃ finish, (Token.scan "out((1").tokens.getLast? = some finish ∧
          (ofSource "main" "out((1").problems =
            [{ problem := .tooDeep, position := finish.position, file := "main" }]) := by
  have hclean : (ofSource "main" ("out((1" ++ "\n" ++ "2))")).isClean = true := by cbv
  exact ⟨hclean, before_newline "main" hclean⟩

end Reading

end Inkwell
