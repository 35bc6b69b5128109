import Mathlib
import Inkwell.Proofs.Expr.Unfinished

/-!
# Brackets up to the limit

Brackets inside one another, as many as there may be: read up to the innermost, there are too many of
them, and the whole text is a program (`Reading.before_newline_tooDeep`). So the last case of what may
stand before a line break is a case that there is.
-/

namespace Inkwell

open List Token

/-! ## Tokens -/

/-- Opening brackets inside one another; the innermost is another one. -/
def Text.opened (n : Nat) : Text := Text.ofBytes (List.replicate (n + 1) 40 ++ [91])

/-- The closing brackets for them. -/
def Text.closed (n : Nat) : Text := Text.ofBytes (93 :: List.replicate (n + 1) 41)

namespace Token

theorem scan_opened : (Token.scan (Text.opened 998)).problems = [] ∧
    (Token.scan (Text.opened 998)).tokens.map (·.kind) =
      List.replicate 999 .openParen ++ [.openBracket, .finish] := by
  decide +kernel

/-- No expression ends with the opening bracket, so the line break is a blank. -/
theorem scan_nested : (Token.scan (Text.opened 998 ++ "\n" ++ Text.closed 998)).problems = [] ∧
    (Token.scan (Text.opened 998 ++ "\n" ++ Text.closed 998)).tokens.map (·.kind) =
      List.replicate 999 .openParen ++
        .openBracket :: .closeBracket :: (List.replicate 999 .closeParen ++ [.finish]) := by
  decide +kernel

/-- What brackets are opened with. -/
theorem cons_of_opened {ts : List Token} {n : Nat} {kinds : List Kind}
    (h : ts.map (·.kind) = List.replicate n .openParen ++ .openBracket :: kinds) :
    ∃ t rest, ts = t :: rest ∧ (t.kind = .openParen ∨ t.kind = .openBracket) := by
  cases n with
  | zero =>
    obtain ⟨t, rest, rfl, ht, -⟩ := map_eq_cons_iff.1 h
    exact ⟨t, rest, rfl, .inr ht⟩
  | succ n =>
    obtain ⟨t, rest, rfl, ht, -⟩ := map_eq_cons_iff.1 h
    exact ⟨t, rest, rfl, .inl ht⟩

end Token

/-! ## Expressions -/

namespace Parser

variable {α β : Type} {limit depth : Nat} {t u : Token} {rest : List Token}

/-- A group goes on with the first expression in it. -/
theorem group_of_ne (sub : Nat → Parser Expr) (hseparator : u.kind ≠ .separator)
    (hclose : u.kind ≠ .closeParen) :
    group limit sub (t :: u :: rest) = (do
      let items ← itemsUpTo sub .closeParen [] limit
      if (← peek).kind = .functionArrow then
        let ps ← parameters [] items
        functionBody sub ps
      else return .group t items : Parser Expr) (u :: rest) := by
  rw [group, bind_take, bind_of_ok (skipSeparators_of_ne hseparator), bind_peek, if_neg hclose]

section

variable {least : Nat} {rest' : List Token} (ht : t.kind = .openParen)
  (hu : u.kind = .openParen ∨ u.kind = .openBracket)

include ht hu

/-- Reading fails where the first expression in a group does. -/
theorem expression_group_failed {d : Diagnostic} (hlimit : 0 < limit)
    (h : expression limit depth lowest (u :: rest) = .failed d rest') :
    expression limit (depth + 1) least (t :: u :: rest) = .failed d rest' := by
  obtain ⟨limit, rfl⟩ : ∃ n, limit = n + 1 := ⟨limit - 1, by omega⟩
  have hseparator : u.kind ≠ .separator := by rcases hu with hu | hu <;> simp [hu]
  have hclose : u.kind ≠ .closeParen := by rcases hu with hu | hu <;> simp [hu]
  refine bind_of_failed ?_ _
  rw [Expr.operand_openParen ht, group_of_ne _ hseparator hclose]
  refine bind_of_failed ?_ _
  rw [itemsUpTo, bind_of_ok (skipSeparators_of_ne hseparator), bind_peek, if_neg hclose]
  exact bind_of_failed h _

/-- A group of one expression. -/
theorem expression_group {e : Expr} {c v : Token} (hlimit : 1 < limit) (hc : c.kind = .closeParen)
    (hv : precedence v.kind ≤ least ∧ v.kind ≠ .functionArrow)
    (h : expression limit depth lowest (u :: rest) = .ok e (c :: v :: rest')) :
    expression limit (depth + 1) least (t :: u :: rest) = .ok (.group t [e]) (v :: rest') := by
  obtain ⟨limit, rfl⟩ : ∃ n, limit = n + 2 := ⟨limit - 2, by omega⟩
  have hseparator : u.kind ≠ .separator := by rcases hu with hu | hu <;> simp [hu]
  have hclose : u.kind ≠ .closeParen := by rcases hu with hu | hu <;> simp [hu]
  have hitems : itemsUpTo (expression (limit + 2) depth) .closeParen [] (limit + 2) (u :: rest) =
      .ok [e] (v :: rest') := by
    have hstop : c.kind ≠ .separator := by rw [hc]; decide
    rw [itemsUpTo, bind_of_ok (skipSeparators_of_ne hseparator), bind_peek, if_neg hclose,
      bind_of_ok h, bind_peek, if_pos (by simp [hc]), itemsUpTo,
      bind_of_ok (skipSeparators_of_ne hstop), bind_peek, if_pos hc, bind_take]
    rfl
  have hoperand : operand (limit + 2) (expression (limit + 2) depth) (t :: u :: rest) =
      .ok (.group t [e]) (v :: rest') := by
    rw [Expr.operand_openParen ht, group_of_ne _ hseparator hclose, bind_of_ok hitems, bind_peek,
      if_neg hv.2]
    rfl
  rw [expression, bind_of_ok hoperand]
  exact operations_of_pull_le _ hv.1 _

end

/-- Too many brackets are open at the end. -/
theorem expression_opened (hlimit : 0 < limit) : ∀ (n : Nat) {ts : List Token},
    ts.map (·.kind) = List.replicate n .openParen ++ [.openBracket, .finish] →
      ∃ finish, finish.kind = .finish ∧ expression limit (n + 1) lowest ts =
        .failed { problem := .tooDeep, position := finish.position } [finish] := by
  intro n
  induction n with
  | zero =>
    intro ts hts
    obtain ⟨limit, rfl⟩ : ∃ n, limit = n + 1 := ⟨limit - 1, by omega⟩
    obtain ⟨bracket, ts, rfl, hbracket, hts⟩ := map_eq_cons_iff.1 hts
    obtain ⟨finish, ts, rfl, hfinish, hts⟩ := map_eq_cons_iff.1 hts
    obtain rfl := map_eq_nil_iff.1 hts
    refine ⟨finish, hfinish, bind_of_failed ?_ _⟩
    rw [operand, bind_peek]
    simp only [hbracket]
    rw [bind_take]
    refine bind_of_failed ?_ _
    rw [itemsUpTo, bind_of_ok (skipSeparators_of_ne (by rw [hfinish]; decide)), bind_peek,
      if_neg (by rw [hfinish]; decide)]
    rfl
  | succ n ih =>
    intro ts hts
    obtain ⟨t, ts, rfl, ht, hts⟩ := map_eq_cons_iff.1 hts
    obtain ⟨finish, hfinish, hinner⟩ := ih hts
    obtain ⟨u, rest, rfl, hu⟩ := cons_of_opened hts
    exact ⟨finish, hfinish, expression_group_failed ht hu hlimit hinner⟩

/-- As many brackets as are open are closed again. -/
theorem expression_nested (hlimit : 1 < limit) : ∀ (n : Nat) {ts : List Token} {kind : Kind}
    {kinds : List Kind}, kind = .closeParen ∨ kind = .finish →
    ts.map (·.kind) = List.replicate n .openParen ++
      .openBracket :: .closeBracket :: (List.replicate n .closeParen ++ kind :: kinds) →
    ∃ e rest, rest.map (·.kind) = kind :: kinds ∧ expression limit (n + 1) lowest ts = .ok e rest := by
  have hstop : ∀ {kind : Kind}, kind = .closeParen ∨ kind = .finish →
      precedence kind ≤ lowest ∧ kind ≠ .functionArrow := by
    rintro _ (rfl | rfl) <;> decide
  intro n
  induction n with
  | zero =>
    intro ts kind kinds hkind hts
    obtain ⟨limit, rfl⟩ : ∃ n, limit = n + 1 := ⟨limit - 1, by omega⟩
    obtain ⟨opening, ts, rfl, hopening, hts⟩ := map_eq_cons_iff.1 hts
    obtain ⟨closing, ts, rfl, hclosing, hrest⟩ := map_eq_cons_iff.1 hts
    obtain ⟨v, rest, rfl, rfl, -⟩ := map_eq_cons_iff.1 hrest
    have hoperand : operand (limit + 1) (expression (limit + 1) 0) (opening :: closing :: v :: rest) =
        .ok (.list opening []) (v :: rest) := by
      rw [operand, bind_peek]
      simp only [hopening]
      rw [bind_take, itemsUpTo, bind_assoc,
        bind_of_ok (skipSeparators_of_ne (by rw [hclosing]; decide)), bind_assoc, bind_peek,
        if_pos hclosing]
      rfl
    refine ⟨.list opening [], _, hrest, ?_⟩
    rw [expression, bind_of_ok hoperand]
    exact operations_of_pull_le _ (hstop hkind).1 _
  | succ n ih =>
    intro ts kind kinds hkind hts
    rw [replicate_succ' (a := Kind.closeParen), append_assoc] at hts
    obtain ⟨t, ts, rfl, ht, hts⟩ := map_eq_cons_iff.1 hts
    obtain ⟨e, rest, hrest, he⟩ := ih (.inl rfl) hts
    obtain ⟨c, rest, rfl, hc, hrest⟩ := map_eq_cons_iff.1 hrest
    obtain ⟨v, rest, rfl, rfl, -⟩ := map_eq_cons_iff.1 hrest
    obtain ⟨u, ts, rfl, hu⟩ := cons_of_opened hts
    exact ⟨_, _, hrest, expression_group ht hu hlimit hc (hstop hkind) he⟩

end Parser

/-! ## Programs -/

/-- A program of one expression. -/
theorem Parser.itemsFrom_single {limit rounds : Nat} {t finish : Token} {rest : List Token}
    (ht : t.kind ≠ .finish ∧ t.kind ≠ .separator) (hfinish : finish.kind = .finish) :
    (∀ e, expression limit maxDepth lowest (t :: rest) = .ok e [finish] →
      (itemsFrom limit [] [] (rounds + 1) (t :: rest)).2 = []) ∧
    ∀ d, expression limit maxDepth lowest (t :: rest) = .failed d [finish] →
      (itemsFrom limit [] [] (rounds + 1) (t :: rest)).2 = [d] := by
  constructor
  · intro e he
    rw [itemsFrom, headD_cons, if_neg ht.1, if_neg ht.2, he]
    dsimp only
    rw [headD_cons, if_pos (by simp [hfinish]), itemsFrom_finish hfinish]
    rfl
  · intro d hd
    rw [itemsFrom, headD_cons, if_neg ht.1, if_neg ht.2, hd]
    dsimp only
    rw [resume, hfinish, itemsFrom_finish hfinish]
    rfl

/-- The tokens that expressions are read from have the kinds of those that were found. -/
theorem Token.map_kind_numbered_completed {tokens : List Token}
    (h : (tokens.map (·.kind)).getLast? = some .finish) :
    (Token.numbered (Parser.completed tokens)).map (·.kind) = tokens.map (·.kind) := by
  obtain ⟨finish, hlast, hfinish⟩ := Option.map_eq_some_iff.1 (getLast?_map ▸ h)
  rw [Parser.completed, if_pos (by simp [hlast, hfinish])]
  refine ext_getElem (by simp [Token.numbered]) fun i hi hi' => ?_
  simp [Token.numbered]

/-- Where brackets are open up to the limit, the end is too deep. -/
theorem Script.parse_opened (file : Text) {ts : List Token} {n : Nat} (hn : n + 1 = Parser.maxDepth)
    (hts : ts.map (·.kind) = List.replicate n .openParen ++ [.openBracket, .finish]) :
    ∃ position, (Script.parse file ts).2 = [{ problem := .tooDeep, position }] := by
  have hkinds := (map_kind_numbered_completed (by simp [hts])).trans hts
  unfold Script.parse
  dsimp only
  generalize Token.numbered (Parser.completed ts) = tokens at hkinds ⊢
  obtain ⟨t, rest, rfl, ht⟩ := cons_of_opened hkinds
  obtain ⟨finish, hfinish, hread⟩ := Parser.expression_opened (Nat.succ_pos rest.length) n hkinds
  rw [hn] at hread
  refine ⟨finish.position, (Parser.itemsFrom_single ?_ hfinish).2 _ hread⟩
  rcases ht with ht | ht <;> simp [ht]

/-- Brackets up to the limit that are closed again. -/
theorem Script.parse_nested (file : Text) {ts : List Token} {n : Nat} (hn : n + 1 = Parser.maxDepth)
    (hts : ts.map (·.kind) = List.replicate n .openParen ++
      .openBracket :: .closeBracket :: (List.replicate n .closeParen ++ [.finish])) :
    (Script.parse file ts).2 = [] := by
  have hkinds := (map_kind_numbered_completed (by simp [hts, getLast?_cons])).trans hts
  unfold Script.parse
  dsimp only
  generalize Token.numbered (Parser.completed ts) = tokens at hkinds ⊢
  have hlimit : 1 < tokens.length := by
    rw [← length_map (·.kind), hkinds]
    simp only [length_append, length_cons]
    omega
  obtain ⟨e, rest, hrest, hread⟩ := Parser.expression_nested hlimit n (.inr rfl) hkinds
  obtain ⟨finish, rest, rfl, hfinish, hrest⟩ := map_eq_cons_iff.1 hrest
  obtain rfl := map_eq_nil_iff.1 hrest
  obtain ⟨t, rest, rfl, ht⟩ := cons_of_opened hkinds
  rw [hn] at hread
  refine (Parser.itemsFrom_single ?_ hfinish).1 e hread
  rcases ht with ht | ht <;> simp [ht]

/-- **Brackets up to the limit.** The text in front of the line break has a problem and is not
incomplete, although the whole is a program without a problem. -/
theorem Reading.before_newline_tooDeep :
    (ofSource "" (Text.opened 998 ++ "\n" ++ Text.closed 998)).isClean = true ∧
      (ofSource "" (Text.opened 998)).isClean = false ∧ isIncomplete (Text.opened 998) = false := by
  obtain ⟨hscan, hts⟩ := scan_opened
  obtain ⟨hscan', hts'⟩ := scan_nested
  obtain ⟨position, hparse⟩ := Script.parse_opened "" rfl hts
  refine ⟨(isClean_ofSource _ _).2 ⟨hscan', Script.parse_nested "" rfl hts'⟩, ?_, ?_⟩
  · rw [Bool.eq_false_iff, Ne, isClean_ofSource, hparse]
    simp
  · unfold isIncomplete
    dsimp only
    rw [hscan, hparse]
    rfl

end Inkwell
