import Mathlib
import Inkwell.Proofs.Expr.Spelling
import Inkwell.Proofs.Scope.Levels

/-!
# Every token is used once

What a traversal of an expression meets is met at different ones of the tokens that spell the
expression (`Expr.meets`). The parser numbers the tokens of a program and takes them one after the
other. So no two names of a program that was parsed are spelled by the same token, and no two scopes
are opened by the same one.
-/

namespace Inkwell

open List Inkwell.Expr

open Lexical (Event Path Site)

/-- The events are met at different ones of the tokens. -/
def Meets (events : List Event) (ts : List Token) : Prop :=
  (events.map Event.index : Multiset Nat) ≤ (ts.map Token.index : Multiset Nat)

namespace Meets

variable {events events' : List Event} {ts us : List Token} {e : Event} {t : Token}

theorem nil : Meets [] ts := Multiset.zero_le _

variable (h : Meets events ts)

include h

theorem append (h' : Meets events' us) : Meets (events ++ events') (ts ++ us) := by
  unfold Meets
  rw [map_append, map_append, ← Multiset.coe_add, ← Multiset.coe_add]
  exact add_le_add h h'

theorem perm (hperm : events.Perm events') : Meets events' ts := by
  unfold Meets
  rw [← Multiset.coe_eq_coe.2 (hperm.map Event.index)]
  exact h

theorem sublist (hsub : ts.Sublist us) : Meets events us :=
  le_trans h (Multiset.coe_le.2 (hsub.map _).subperm)

theorem cons (he : e.index = t.index) : Meets (e :: events) (t :: ts) := by
  unfold Meets
  rw [map_cons, map_cons, he, ← Multiset.cons_coe, ← Multiset.cons_coe]
  exact Multiset.cons_le_cons _ h

/-- One more token in front. -/
theorem behind : Meets events (t :: ts) := h.sublist (sublist_cons_self t ts)

/-- One more token at the end. -/
theorem closed : Meets events (ts ++ [t]) := h.sublist (sublist_append_left ts [t])

/-- A function is met at its arrow, in front of its parameters. -/
theorem function (h' : Meets events' us) (he : e.index = t.index) :
    Meets (e :: (events ++ events')) (ts ++ t :: us) :=
  (h.append (h'.cons he)).perm perm_middle

end Meets

theorem Parameter.AllSpelled.meets {parameters : List Parameter} {ts : List Token}
    (h : Parameter.AllSpelled parameters ts) (path : Path) :
    ∀ place, Meets (Lexical.parameterEvents path place parameters) ts := by
  induction h with
  | nil => exact fun _ => .nil
  | cons p _ _ ih =>
    intro place
    unfold Lexical.parameterEvents
    dsimp only
    split
    · exact (ih _).behind
    · exact (ih _).cons rfl
  | unit p _ _ _ ih =>
    intro place
    unfold Lexical.parameterEvents
    dsimp only
    split
    · exact (ih _).behind.behind
    · exact (ih _).behind.cons rfl

mutual

/-- What a traversal of an expression meets is met at the tokens that spell it. -/
theorem Expr.meets (e : Expr) {ts : List Token} (h : e.Spelled ts) (unit : CodeUnit) (path : Path) :
    Meets (e.events unit path) ts := by
  match e with
  | .number .. | .string .. | .boolean .. | .empty .. => exact .nil
  | .name _ =>
    cases h
    exact Meets.nil.cons rfl
  | .negate _ operand =>
    cases h with
    | negate _ _ inner => exact (operand.meets inner _ path).behind
  | .binary _ left right =>
    cases h with
    | binary _ before _ behind =>
      exact (left.meets before _ path).append (right.meets behind _ path).behind
  | .define _ target value =>
    cases h with
    | define _ before _ behind =>
      exact ((target.meets_target before path).append (value.meets behind _ path).behind).perm
        perm_append_comm
  | .access _ container key =>
    cases h with
    | access _ before _ behind =>
      exact (container.meets before _ path).append (key.meets behind _ path).behind
  | .call _ callee arguments =>
    cases h with
    | call _ before _ inner _ =>
      exact (callee.meets before _ path).append (meets_items arguments inner path).closed.behind
  | .choose _ subject arms =>
    cases h with
    | choose _ before _ _ inner _ =>
      exact (subject.meets before _ path).append (meets_arms arms inner path).closed.behind.behind
  | .group token items =>
    cases h with
    | group _ _ inner _ => exact (meets_items items inner _).closed.cons rfl
  | .list _ items =>
    cases h with
    | list _ _ inner _ => exact (meets_items items inner path).closed.behind
  | .object _ entries =>
    cases h with
    | object _ _ inner _ => exact (meets_entries entries inner path).closed.behind
  | .function token _ parameters body =>
    cases h with
    | function _ _ p before _ behind =>
      exact .function ((Parameter.AllSpelled.cons p before .nil).meets _ 0) (body.meets behind _ _) rfl
    | bracketed _ _ _ before _ _ behind =>
      exact .function (before.meets _ 0).closed.behind (body.meets behind _ _) rfl

theorem Expr.meets_target (e : Expr) {ts : List Token} (h : e.Spelled ts) (path : Path) :
    Meets (e.targetEvents path) ts := by
  match e with
  | .name _ =>
    cases h
    exact Meets.nil.cons rfl
  | .access _ container key =>
    cases h with
    | access _ before _ behind =>
      exact (container.meets before _ path).append (key.meets behind _ path).behind
  | .number .. | .string .. | .boolean .. | .empty .. | .negate .. | .binary .. | .define ..
  | .call .. | .choose .. | .group .. | .list .. | .object .. | .function .. => exact .nil

theorem Expr.meets_items (items : List Expr) {ts : List Token} (h : Expr.AllSpelled items ts)
    (path : Path) : Meets (Expr.itemEvents items path) ts := by
  match items with
  | [] => exact .nil
  | e :: rest =>
    cases h with
    | cons first later => exact (e.meets first _ path).append (meets_items rest later path)

theorem Expr.meets_arms (arms : List Arm) {ts : List Token} (h : Arm.AllSpelled arms ts) (path : Path) :
    Meets (Expr.armEvents arms path) ts := by
  match arms with
  | [] => exact .nil
  | .case _ pattern body :: rest =>
    cases h with
    | case _ before _ behind later =>
      rw [append_assoc]
      exact (pattern.meets before _ path).append
        ((body.meets behind _ path).append (meets_arms rest later path)).behind
  | .otherwise _ body :: rest =>
    cases h with
    | otherwise _ _ _ behind later =>
      exact ((body.meets behind _ path).append (meets_arms rest later path)).behind.behind

theorem Expr.meets_entries (entries : List Entry) {ts : List Token} (h : Entry.AllSpelled entries ts)
    (path : Path) : Meets (Expr.entryEvents entries path) ts := by
  match entries with
  | [] => exact .nil
  | .mk key value :: rest =>
    cases h with
    | cons before _ behind later =>
      rw [append_assoc]
      exact (key.meets before _ path).append
        ((value.meets behind _ path).append (meets_entries rest later path)).behind

end

theorem Expr.itemEvents_append (es es' : List Expr) (path : Path) :
    itemEvents (es ++ es') path = itemEvents es path ++ itemEvents es' path := by
  induction es with
  | nil => rfl
  | cons e rest ih => rw [cons_append, itemEvents, itemEvents, ih, append_assoc]

namespace Parser

theorem resume_suffix (tokens : List Token) : ∀ depth, resume depth tokens <:+ tokens := by
  induction tokens with
  | nil => exact fun _ => suffix_rfl
  | cons t rest ih =>
    intro depth
    unfold resume
    split
    · exact suffix_rfl
    all_goals first
      | exact (ih _).trans (suffix_cons t rest)
      | skip
    split
    · exact suffix_cons t rest
    · exact (ih _).trans (suffix_cons t rest)

/-- What is read goes on from tokens to later ones, also behind a problem. -/
theorem itemsFrom_meets (limit rounds : Nat) (path : Path) : ∀ {items : List Expr}
    {problems : List Diagnostic} {taken tokens : List Token}, tokens.length ≤ limit →
      Meets (Expr.itemEvents items.reverse path) taken →
        Meets (Expr.itemEvents (itemsFrom limit items problems rounds tokens).1 path)
          (taken ++ tokens) := by
  induction rounds with
  | zero => exact fun _ hitems => hitems.sublist (sublist_append_left _ _)
  | succ rounds ih =>
    intro items problems taken tokens hlimit hitems
    -- the rest of the tokens is read behind some that were taken
    have hgo : ∀ {items : List Expr} {problems : List Diagnostic} {rest : List Token} (ts : List Token),
        Meets (Expr.itemEvents items.reverse path) (taken ++ ts) → ts ++ rest = tokens →
        Meets (Expr.itemEvents (itemsFrom limit items problems rounds rest).1 path)
          (taken ++ tokens) := by
      intro items problems rest ts hitems hrest
      subst hrest
      rw [← append_assoc]
      rw [length_append] at hlimit
      exact ih (by omega) hitems
    have hsame : ∀ ts, Meets (Expr.itemEvents items.reverse path) (taken ++ ts) := fun ts =>
      hitems.sublist (sublist_append_left _ _)
    unfold itemsFrom
    dsimp only
    split
    · exact hsame _
    split
    · obtain ⟨ts, hts⟩ := tail_suffix tokens
      exact hgo ts (hsame ts) hts
    have hspec := expression_reads maxDepth lowest tokens (Nat.le_refl _) (by decide) hlimit
    unfold Spec at hspec
    split
    · rename_i item rest heq
      rw [heq] at hspec
      obtain ⟨-, hreads, -⟩ := hspec
      obtain ⟨ts, ⟨read, rfl, rfl, -⟩, hspelled⟩ := hreads.spelled
      have hitem : ∀ more, Meets (Expr.itemEvents (item :: items).reverse path) (taken ++ (read ++ more)) := by
        intro more
        rw [reverse_cons, itemEvents_append, Expr.itemEvents, Expr.itemEvents, append_nil]
        exact hitems.append (((item.meets hspelled _ path).sublist filter_sublist).sublist
          (sublist_append_left _ _))
      split
      · exact hgo read (by simpa using hitem []) rfl
      · obtain ⟨more, hmore⟩ := resume_suffix rest 0
        exact hgo (read ++ more) (hitem more) (by rw [append_assoc, hmore])
    · rename_i problem rest heq
      rw [heq] at hspec
      obtain ⟨ts, hts⟩ := (resume_suffix rest 0).trans hspec
      exact hgo ts (hsame ts) hts

end Parser

/-- No two names of a program that was parsed, and no two of its scopes, are at the same token. -/
theorem Script.distinct_parse (file : Text) (tokens : List Token) :
    Resolve.Distinct (Script.parse file tokens).1.events := by
  have hmeets := @Parser.itemsFrom_meets _ ((Token.numbered (Parser.completed tokens)).length + 1)
    [.program] [] [] [] _ (Nat.le_refl (Token.numbered (Parser.completed tokens)).length) .nil
  have hnumbers : (Token.numbered (Parser.completed tokens)).map Token.index =
      List.range (Parser.completed tokens).length := by
    refine ext_getElem? fun i => ?_
    unfold Token.numbered
    simp only [getElem?_map, getElem?_mapIdx, Option.map_map]
    by_cases hi : i < (Parser.completed tokens).length
    · simp [hi]
    · simp [hi]
  refine Multiset.coe_nodup.1 (Multiset.nodup_of_le hmeets ?_)
  rw [nil_append, hnumbers]
  exact Multiset.coe_nodup.2 nodup_range

end Inkwell
