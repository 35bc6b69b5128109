import Mathlib
import Inkwell.Proofs.Expr.Spelling

/-!
# Trees written out as tokens

A tree is written from left to right, with one separator between the elements of a list and between
the expressions of a program (`Expr.written`, `Script.writtenTokens`). Nodes write their own tokens, and a
token of the right kind where they keep none. What reading cannot give back is taken away by
`Expr.bare`: the places of the tokens in a list of tokens, and the names of functions.
-/

namespace Inkwell

open List

open Inkwell.Parser (precedence lowest negation entryKey pull)

/-! ## Writing a tree -/

/-- A token of a kind that needs no text. -/
def Token.ofKind (kind : Kind) : Token := { kind }

/-- Lists of tokens with one separator between each two. -/
def Token.separated (parts : List (List Token)) : List Token :=
  [Token.ofKind .separator].intercalate parts

theorem Token.cons_separated {α : Type} (written : α → List Token) (a : α) (as : List α) :
    .ofKind .separator :: separated ((a :: as).map written) =
      (a :: as).flatMap fun a => .ofKind .separator :: written a := by
  induction as generalizing a with
  | nil => simp [separated]
  | cons b bs ih =>
    rw [flatMap_cons, ← ih]
    simp [separated]

theorem Token.separated_cons {part ts : List Token} {t : Token} (parts : List (List Token))
    (h : part = t :: ts) : ∃ us, separated (part :: parts) = t :: us := by
  cases parts with
  | nil => exact ⟨ts, by simp [separated, h]⟩
  | cons part' parts =>
    exact ⟨ts ++ .ofKind .separator :: separated (part' :: parts), by simp [separated, h]⟩

/-- The tokens of a parameter. -/
def Parameter.written (p : Parameter) : List Token :=
  if p.token.kind = .openParen then [p.token, .ofKind .closeParen] else [p.token]

mutual

/-- The tokens of an expression. -/
def Expr.written : Expr → List Token
  | .number t _ | .string t _ | .boolean t _ | .name t => [t]
  | .empty t => if t.kind = .openParen then [t, .ofKind .closeParen] else [t]
  | .negate t operand => t :: operand.written
  | .binary t left right => left.written ++ t :: right.written
  | .define t target value => target.written ++ t :: value.written
  | .access t container key => container.written ++ t :: key.written
  | .call t callee arguments =>
    callee.written ++ t :: (Token.separated (Expr.writtenEach arguments) ++ [.ofKind .closeParen])
  | .choose t subject arms =>
    subject.written ++ t :: .ofKind .openBrace ::
      (Token.separated (Arm.writtenEach arms) ++ [.ofKind .closeBrace])
  | .group t items =>
    t :: (Token.separated (Expr.writtenEach items) ++ [.ofKind .closeParen])
  | .list t items =>
    t :: (Token.separated (Expr.writtenEach items) ++ [.ofKind .closeBracket])
  | .object t entries =>
    t :: (Token.separated (Entry.writtenEach entries) ++ [.ofKind .closeBrace])
  | .function t _ parameters body =>
    .ofKind .openParen :: (Token.separated (parameters.map Parameter.written) ++
      .ofKind .closeParen :: t :: body.written)

/-- The tokens of each of several expressions. -/
def Expr.writtenEach : List Expr → List (List Token)
  | [] => []
  | e :: rest => e.written :: Expr.writtenEach rest

/-- The tokens of an arm of a choice. -/
def Arm.written : Arm → List Token
  | .case t pattern body => pattern.written ++ t :: body.written
  | .otherwise t body => .ofKind .wildcard :: t :: body.written

/-- The tokens of each of several arms. -/
def Arm.writtenEach : List Arm → List (List Token)
  | [] => []
  | a :: rest => a.written :: Arm.writtenEach rest

/-- The tokens of an entry of an object. -/
def Entry.written : Entry → List Token
  | .mk key value => key.written ++ .ofKind .colon :: value.written

/-- The tokens of each of several entries. -/
def Entry.writtenEach : List Entry → List (List Token)
  | [] => []
  | entry :: rest => entry.written :: Entry.writtenEach rest

end

/-- The tokens of a program. -/
def Script.writtenTokens (items : List Expr) : List Token := Token.separated (Expr.writtenEach items)

mutual

/-- How many expressions are read inside one another within an expression, itself not counted. A left
operand is read at the level of the whole. -/
def Expr.inner : Expr → Nat
  | .negate _ operand => operand.inner + 1
  | .binary _ left right => max left.inner (right.inner + 1)
  | .define _ target value => max target.inner (value.inner + 1)
  | .access _ container key => max container.inner key.inner
  | .call _ callee arguments => max callee.inner (Expr.innerAll arguments)
  | .choose _ subject arms => max subject.inner (Arm.innerAll arms)
  | .group _ items | .list _ items => Expr.innerAll items
  | .object _ entries => Entry.innerAll entries
  | .function _ _ _ body => body.inner + 1
  | _ => 0

/-- How many expressions are read inside one another for the expressions of a list. -/
def Expr.innerAll : List Expr → Nat
  | [] => 0
  | e :: rest => max (e.inner + 1) (Expr.innerAll rest)

/-- How many expressions are read inside one another for an arm. -/
def Arm.inner : Arm → Nat
  | .case _ pattern body => max (pattern.inner + 1) (body.inner + 1)
  | .otherwise _ body => body.inner + 1

/-- How many expressions are read inside one another for the arms of a choice. -/
def Arm.innerAll : List Arm → Nat
  | [] => 0
  | a :: rest => max a.inner (Arm.innerAll rest)

/-- How many expressions are read inside one another for an entry. -/
def Entry.inner : Entry → Nat
  | .mk key value => max (key.inner + 1) (value.inner + 1)

/-- How many expressions are read inside one another for the entries of an object. -/
def Entry.innerAll : List Entry → Nat
  | [] => 0
  | entry :: rest => max entry.inner (Entry.innerAll rest)

end

/-- How many expressions are read inside one another to read an expression. -/
def Expr.nesting (e : Expr) : Nat := e.inner + 1

/-! ## Trees without what reading adds -/

/-- A token without its place in a list of tokens. -/
def Token.bare (t : Token) : Token := { t with index := 0 }

/-- A parameter whose token has no place in a list of tokens. -/
def Parameter.bare (p : Parameter) : Parameter := { p with token := p.token.bare }

mutual

/-- An expression whose tokens have no places in a list of tokens and whose functions have no
names. -/
def Expr.bare : Expr → Expr
  | .number t value => .number t.bare value
  | .string t value => .string t.bare value
  | .boolean t value => .boolean t.bare value
  | .empty t => .empty t.bare
  | .name t => .name t.bare
  | .negate t operand => .negate t.bare operand.bare
  | .binary t left right => .binary t.bare left.bare right.bare
  | .define t target value => .define t.bare target.bare value.bare
  | .access t container key => .access t.bare container.bare key.bare
  | .call t callee arguments => .call t.bare callee.bare (Expr.bareEach arguments)
  | .choose t subject arms => .choose t.bare subject.bare (Arm.bareEach arms)
  | .group t items => .group t.bare (Expr.bareEach items)
  | .list t items => .list t.bare (Expr.bareEach items)
  | .object t entries => .object t.bare (Entry.bareEach entries)
  | .function t _ parameters body =>
    .function t.bare "" (parameters.map Parameter.bare) body.bare

/-- The bare expressions of a list. -/
def Expr.bareEach : List Expr → List Expr
  | [] => []
  | e :: rest => e.bare :: Expr.bareEach rest

/-- A bare arm of a choice. -/
def Arm.bare : Arm → Arm
  | .case t pattern body => .case t.bare pattern.bare body.bare
  | .otherwise t body => .otherwise t.bare body.bare

/-- The bare arms of a choice. -/
def Arm.bareEach : List Arm → List Arm
  | [] => []
  | a :: rest => a.bare :: Arm.bareEach rest

/-- A bare entry of an object. -/
def Entry.bare : Entry → Entry
  | .mk key value => .mk key.bare value.bare

/-- The bare entries of an object. -/
def Entry.bareEach : List Entry → List Entry
  | [] => []
  | entry :: rest => entry.bare :: Entry.bareEach rest

end

section Each

/-- A function that follows a list is the map over it. -/
theorem eq_map_of_cons {α β : Type} {f : α → β} {each : List α → List β} (hnil : each [] = [])
    (hcons : ∀ a as, each (a :: as) = f a :: each as) (as : List α) : each as = as.map f := by
  induction as with
  | nil => exact hnil
  | cons a as ih => rw [hcons, ih, map_cons]

/-- What is largest in a list bounds every element. -/
theorem le_of_mem_of_cons {α : Type} {f : α → Nat} {all : List α → Nat}
    (hcons : ∀ a as, all (a :: as) = max (f a) (all as)) {as : List α} {a : α} (h : a ∈ as) :
    f a ≤ all as := by
  induction as with
  | nil => cases h
  | cons b bs ih =>
    rw [hcons]
    rcases mem_cons.1 h with rfl | h
    · exact Nat.le_max_left _ _
    · exact Nat.le_trans (ih h) (Nat.le_max_right _ _)

theorem Expr.writtenEach_eq_map (es : List Expr) : writtenEach es = es.map written :=
  eq_map_of_cons (by rw [writtenEach]) (fun _ _ => by rw [writtenEach]) es

theorem Arm.writtenEach_eq_map (arms : List Arm) : writtenEach arms = arms.map written :=
  eq_map_of_cons (by rw [writtenEach]) (fun _ _ => by rw [writtenEach]) arms

theorem Entry.writtenEach_eq_map (entries : List Entry) :
    writtenEach entries = entries.map written :=
  eq_map_of_cons (by rw [writtenEach]) (fun _ _ => by rw [writtenEach]) entries

theorem Expr.bareEach_eq_map (es : List Expr) : bareEach es = es.map bare :=
  eq_map_of_cons (by rw [bareEach]) (fun _ _ => by rw [bareEach]) es

theorem Arm.bareEach_eq_map (arms : List Arm) : bareEach arms = arms.map bare :=
  eq_map_of_cons (by rw [bareEach]) (fun _ _ => by rw [bareEach]) arms

theorem Entry.bareEach_eq_map (entries : List Entry) : bareEach entries = entries.map bare :=
  eq_map_of_cons (by rw [bareEach]) (fun _ _ => by rw [bareEach]) entries

theorem Expr.nesting_le_innerAll {es : List Expr} {e : Expr} (h : e ∈ es) :
    e.nesting ≤ innerAll es :=
  le_of_mem_of_cons (fun _ _ => by rw [innerAll]; rfl) h

theorem Arm.inner_le_innerAll {arms : List Arm} {a : Arm} (h : a ∈ arms) :
    a.inner ≤ innerAll arms :=
  le_of_mem_of_cons (fun _ _ => by rw [innerAll]) h

theorem Entry.inner_le_innerAll {entries : List Entry} {entry : Entry} (h : entry ∈ entries) :
    entry.inner ≤ innerAll entries :=
  le_of_mem_of_cons (fun _ _ => by rw [innerAll]) h

end Each

/-- Tokens that are the same but for their places. -/
def Token.Alike (ts us : List Token) : Prop := ts.map Token.bare = us.map Token.bare

namespace Token

variable {t u : Token} {ts us vs : List Token}

theorem kind_of_bare (h : t.bare = u.bare) : t.kind = u.kind := (Token.mk.injEq .. ▸ h).1

theorem lexeme_of_bare (h : t.bare = u.bare) : t.lexeme = u.lexeme := (Token.mk.injEq .. ▸ h).2.1

theorem literal_of_bare (h : t.bare = u.bare) : t.literal = u.literal := (Token.mk.injEq .. ▸ h).2.2.1

theorem Alike.eq_nil (h : Alike ts []) : ts = [] := map_eq_nil_iff.1 h

theorem Alike.cons_inv (h : Alike ts (u :: us)) :
    ∃ t ts', ts = t :: ts' ∧ t.bare = u.bare ∧ Alike ts' us := by
  obtain ⟨t, ts', rfl, ht, hts⟩ := map_eq_cons_iff.1 h
  exact ⟨t, ts', rfl, ht, hts⟩

theorem Alike.append_inv (h : Alike ts (us ++ vs)) :
    ∃ ts₁ ts₂, ts = ts₁ ++ ts₂ ∧ Alike ts₁ us ∧ Alike ts₂ vs := by
  unfold Alike at h
  rw [map_append] at h
  obtain ⟨ts₁, ts₂, rfl, h₁, h₂⟩ := map_eq_append_iff.1 h
  exact ⟨ts₁, ts₂, rfl, h₁, h₂⟩

/-- Tokens with a closing bracket behind them. -/
theorem Alike.bracket_inv {kind : Kind} (h : Alike ts (us ++ [.ofKind kind])) (rest : List Token) :
    ∃ ts' c, ts ++ rest = ts' ++ c :: rest ∧ Alike ts' us ∧ c.kind = kind := by
  obtain ⟨ts₁, ts₂, rfl, h₁, h₂⟩ := h.append_inv
  obtain ⟨c, ts₂, rfl, hc, hnil⟩ := h₂.cons_inv
  rw [hnil.eq_nil, append_assoc]
  exact ⟨ts₁, c, rfl, h₁, kind_of_bare hc⟩

theorem alike_numbered (ts : List Token) : Alike (numbered ts) ts := by
  unfold Alike numbered
  refine ext_getElem? fun i => ?_
  simp only [getElem?_map, getElem?_mapIdx, Option.map_map]
  rfl

/-- The tokens do not end with the end of a program. -/
def Unended (ts : List Token) : Prop := ∀ t ∈ ts.getLast?, t.kind ≠ .finish

theorem Unended.nil : Unended [] := nofun

theorem Unended.append (ht : t.kind ≠ .finish) (hus : Unended us) : Unended (ts ++ t :: us) := by
  intro u hu
  rw [getLast?_append_cons, getLast?_cons, Option.mem_some_iff] at hu
  subst hu
  cases hlast : us.getLast? with
  | none => exact ht
  | some u => exact hus u hlast

theorem Unended.separated {parts : List (List Token)} (h : ∀ part ∈ parts, Unended part) :
    Unended (Token.separated parts) := by
  induction parts with
  | nil => exact .nil
  | cons part parts ih =>
    obtain ⟨hpart, hparts⟩ := forall_mem_cons.1 h
    cases parts with
    | nil => simpa [Token.separated] using hpart
    | cons next parts =>
      have hsplit : Token.separated (part :: next :: parts) =
          part ++ .ofKind .separator :: Token.separated (next :: parts) := by
        simp [Token.separated]
      rw [hsplit]
      exact .append (by decide) (ih hparts)

theorem Unended.token (ht : t.kind ≠ .finish) : Unended [t] := @append t [] [] ht .nil

end Token

open Token (Alike)

/-- A kind of token that an expression can start with. -/
def Kind.starts : Kind → Bool
  | name | wildcard | number | string | yes | no | tilde | openParen | openBracket | openBrace => true
  | _ => false

namespace Expr

theorem IsNameKey.starts {e : Expr} (h : e.IsNameKey) : ∃ t, e.written = [t] ∧ t.kind = .name := by
  obtain ⟨t, value, rfl⟩ := h.exists_string
  exact ⟨t, by rw [written], h.1⟩

/-- The first token of a well-formed expression. -/
theorem WellFormed.written_eq_cons : ∀ {e : Expr}, e.WellFormed →
    ∃ t ts, e.written = t :: ts ∧ t.kind = e.opening ∧ t.kind.starts = true
  | .binary t left _, h | .define t left _, h | .access t left _, h | .call t left _, h
  | .choose t left _, h => by
      rw [WellFormed] at h
      obtain ⟨u, us, hleft, hu⟩ := h.2.1.written_eq_cons
      exact ⟨u, _, by rw [written, hleft, cons_append], hu⟩
  | .function .., _ => ⟨_, _, by rw [written], rfl, rfl⟩
  | .empty t, h => by
      rw [WellFormed] at h
      rw [written]
      have hstarts : t.kind.starts = true := h.elim (by rw [·]; rfl) (by rw [·]; rfl)
      split
      · exact ⟨t, _, rfl, rfl, hstarts⟩
      · exact ⟨t, _, rfl, rfl, hstarts⟩
  | .boolean t value, h => by
      rw [WellFormed] at h
      exact ⟨t, _, by rw [written], rfl, h.1.elim (by rw [·]; rfl) (by rw [·]; rfl)⟩
  | .name t, h => by
      rw [WellFormed] at h
      exact ⟨t, _, by rw [written], rfl, by rw [h]; rfl⟩
  | .number t _, h | .string t _, h | .negate t _, h | .group t _, h | .list t _, h
  | .object t _, h => by
      rw [WellFormed] at h
      exact ⟨t, _, by rw [written], rfl, by rw [h.1]; rfl⟩

/-- The last token of a well-formed expression does not end a program. -/
theorem WellFormed.unended_written : ∀ {e : Expr}, e.WellFormed → Token.Unended e.written
  | .binary t left right, h => by
      rw [WellFormed] at h
      rw [written]
      exact .append (by intro ht; rw [ht] at h; exact absurd h.1 (by decide)) h.2.2.2.1.unended_written
  | .define t left value, h => by
      rw [WellFormed] at h
      rw [written]
      exact .append (by rw [h.1]; decide) h.2.2.2.unended_written
  | .access t left key, h => by
      rw [WellFormed] at h
      rw [written]
      refine .append (by rw [h.1]; decide) ?_
      rcases h.2.2.2 with hname | ⟨-, hkey⟩
      · obtain ⟨u, hu, hkind⟩ := hname.starts
        rw [hu]
        exact .token (by rw [hkind]; decide)
      · exact hkey.unended_written
  | .negate t operand, h => by
      rw [WellFormed] at h
      rw [written, ← nil_append (t :: _)]
      exact .append (by rw [h.1]; decide) h.2.1.unended_written
  | .function t _ parameters body, h => by
      rw [WellFormed] at h
      rw [written, append_cons, ← cons_append]
      exact .append (by rw [h.1]; decide) h.2.2.unended_written
  | .call .., _ | .choose .., _ | .group .., _ | .list .., _ | .object .., _ => by
      rw [written]
      simp only [← cons_append, ← append_assoc]
      exact .append (by decide) .nil
  | .empty t, h => by
      rw [WellFormed] at h
      rw [written]
      split
      · show Token.Unended ([t] ++ Token.ofKind .closeParen :: [])
        exact .append (by decide) .nil
      · exact .token (by rcases h with h | h <;> simp [h])
  | .boolean t _, h => by
      rw [WellFormed] at h
      rw [written]
      exact .token (by rcases h.1 with h | h <;> simp [h])
  | .name t, h => by
      rw [WellFormed] at h
      rw [written]
      exact .token (by simp [h])
  | .number t _, h | .string t _, h => by
      rw [WellFormed] at h
      rw [written]
      exact .token (by simp [h.1])

/-- An expression that starts with the wildcard is the wildcard alone, or something other than the
arrow of an arm follows. -/
theorem WellFormed.wildcard_alone : ∀ {e : Expr}, e.WellFormed → ∀ {t ts}, e.written = t :: ts →
    t.kind = .wildcard → (e.IsWildcard ∧ ts = []) ∨ ∃ u us, ts = u :: us ∧ u.kind ≠ .arrow
  | .binary t left right, h, u, us, hwritten, hu | .define t left right, h, u, us, hwritten, hu
  | .access t left right, h, u, us, hwritten, hu | .call t left right, h, u, us, hwritten, hu
  | .choose t left right, h, u, us, hwritten, hu => by
      rw [WellFormed] at h
      obtain ⟨v, vs, hleft, -, -⟩ := h.2.1.written_eq_cons
      have htoken : t.kind ≠ .arrow := by
        intro ht
        rw [ht] at h
        exact absurd h.1 (by decide)
      rw [written, hleft, cons_append, List.cons.injEq] at hwritten
      obtain ⟨rfl, rfl⟩ := hwritten
      rcases h.2.1.wildcard_alone hleft hu with ⟨-, rfl⟩ | ⟨w, ws, rfl, hw⟩
      · exact .inr ⟨t, _, rfl, htoken⟩
      · exact .inr ⟨w, _, rfl, hw⟩
  | .empty t, h, u, us, hwritten, hu => by
      rw [written] at hwritten
      split at hwritten
      · rename_i hopen
        cases hwritten
        rw [hu] at hopen
        cases hopen
      · cases hwritten
        exact .inl ⟨hu, rfl⟩
  | .boolean t _, h, u, us, hwritten, hu => by
      rw [WellFormed] at h
      rw [written] at hwritten
      cases hwritten
      rw [hu] at h
      exact absurd h.1 (by decide)
  | .name t, h, u, us, hwritten, hu => by
      rw [WellFormed] at h
      rw [written] at hwritten
      cases hwritten
      rw [hu] at h
      cases h
  | .number t _, h, u, us, hwritten, hu | .string t _, h, u, us, hwritten, hu
  | .negate t _, h, u, us, hwritten, hu | .group t _, h, u, us, hwritten, hu
  | .list t _, h, u, us, hwritten, hu | .object t _, h, u, us, hwritten, hu => by
      rw [WellFormed] at h
      rw [written] at hwritten
      cases hwritten
      rw [hu] at h
      cases h.1
  | .function .., h, u, us, hwritten, hu => by
      rw [written] at hwritten
      cases hwritten
      cases hu

theorem bare_named (target value : Expr) : (Parser.named target value).bare = value.bare := by
  unfold Parser.named
  split
  · rw [bare, bare]
  · rfl

end Expr

/-! ## Parameters -/

/-- The expression that stands for a parameter where it is read. -/
def Parameter.expr (p : Parameter) : Expr :=
  if p.token.kind = .name then .name p.token else .empty p.token

namespace Parameter

theorem written_expr (p : Parameter) : p.expr.written = p.written := by
  unfold expr written
  split
  · rename_i hname
    rw [Expr.written, if_neg (by rw [hname]; decide)]
  · rw [Expr.written]

theorem WellFormed.expr {p : Parameter} (h : p.WellFormed) : p.expr.WellFormed := by
  unfold Parameter.expr
  split
  · rename_i hname
    rwa [Expr.WellFormed]
  · rename_i hname
    rw [Expr.WellFormed]
    exact (h.resolve_left fun h => hname h.1).1

theorem inner_expr (p : Parameter) : p.expr.inner = 0 := by
  unfold expr
  split <;> rw [Expr.inner] <;> simp

end Parameter

end Inkwell
