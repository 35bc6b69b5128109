import Mathlib
import Inkwell.Proofs.Expr.Shape

/-!
# Trees and the tokens that spell them

The parser loses, adds and reorders nothing. Reading a tree from left to right gives the tokens it was
read from: the token of a node is the very token, and where a node keeps none, as of a closing bracket,
a token of the right kind stands (`Expr.Spelled`). Separators are not part of a tree, and a tree does
not say whether the parameters of a function were in parentheses.

Every reader is described by what it takes (`Parser.Takes`) and what it gives (`Parser.Reads`). Lists of
expressions, of entries and of arms are all read by the same loop around a reader of one of them
(`Parser.listed`), so its description is proved once. The loop over operators keeps `Parser.Reads` and
stops where nothing binds tighter than it was asked to read.
-/

namespace Inkwell

open List

variable {tokens : List Token} {kind : Kind} {least : Nat}

/-! ## Spelling -/

/-- The tokens spell the parameters of a function, one after the other. -/
inductive Parameter.AllSpelled : List Parameter → List Token → Prop
  | nil : AllSpelled [] []
  | cons (p : Parameter) {rest : List Parameter} {ts : List Token}
      (kind : p.token.kind = .name ∨ p.token.kind = .wildcard) (later : AllSpelled rest ts) :
      AllSpelled (p :: rest) (p.token :: ts)
  /-- A parameter without a use may be spelled by empty parentheses. -/
  | unit (p : Parameter) {close : Token} {rest : List Parameter} {ts : List Token}
      (kind : p.token.kind = .openParen) (closed : close.kind = .closeParen)
      (later : AllSpelled rest ts) : AllSpelled (p :: rest) (p.token :: close :: ts)

mutual

/-- The tokens, among which are no separators, spell the expression from left to right. -/
inductive Expr.Spelled : Expr → List Token → Prop
  | number (t : Token) (value : Number) (kind : t.kind = .number) : Expr.Spelled (.number t value) [t]
  /-- The text of a string may be a name, as a key. -/
  | string (t : Token) (value : Text) (kind : t.kind = .string ∨ t.kind = .name) :
      Expr.Spelled (.string t value) [t]
  | boolean (t : Token) (value : Bool) (kind : t.kind = if value then .yes else .no) :
      Expr.Spelled (.boolean t value) [t]
  | wildcard (t : Token) (kind : t.kind = .wildcard) : Expr.Spelled (.empty t) [t]
  | unit (t : Token) {close : Token} (kind : t.kind = .openParen)
      (closed : close.kind = .closeParen) : Expr.Spelled (.empty t) [t, close]
  | name (t : Token) (kind : t.kind = .name) : Expr.Spelled (.name t) [t]
  | negate (t : Token) {operand : Expr} {ts : List Token} (kind : t.kind = .tilde)
      (inner : operand.Spelled ts) : Expr.Spelled (.negate t operand) (t :: ts)
  | binary (t : Token) {left right : Expr} {ts us : List Token} (before : left.Spelled ts)
      (kind : t.kind.isInfix = true) (behind : right.Spelled us) :
      Expr.Spelled (.binary t left right) (ts ++ t :: us)
  | define (t : Token) {target value : Expr} {ts us : List Token} (before : target.Spelled ts)
      (kind : t.kind = .define) (behind : value.Spelled us) :
      Expr.Spelled (.define t target value) (ts ++ t :: us)
  | access (t : Token) {container key : Expr} {ts us : List Token} (before : container.Spelled ts)
      (kind : t.kind = .dot) (behind : key.Spelled us) :
      Expr.Spelled (.access t container key) (ts ++ t :: us)
  | call (t : Token) {close : Token} {callee : Expr} {arguments : List Expr} {ts us : List Token}
      (before : callee.Spelled ts) (kind : t.kind = .openParen)
      (inner : Expr.AllSpelled arguments us) (closed : close.kind = .closeParen) :
      Expr.Spelled (.call t callee arguments) (ts ++ t :: (us ++ [close]))
  | choose (t : Token) {brace close : Token} {subject : Expr} {arms : List Arm} {ts us : List Token}
      (before : subject.Spelled ts) (kind : t.kind = .choose) (opened : brace.kind = .openBrace)
      (inner : Arm.AllSpelled arms us) (closed : close.kind = .closeBrace) :
      Expr.Spelled (.choose t subject arms) (ts ++ t :: brace :: (us ++ [close]))
  | group (t : Token) {close : Token} {items : List Expr} {ts : List Token}
      (kind : t.kind = .openParen) (inner : Expr.AllSpelled items ts)
      (closed : close.kind = .closeParen) : Expr.Spelled (.group t items) (t :: (ts ++ [close]))
  | list (t : Token) {close : Token} {items : List Expr} {ts : List Token}
      (kind : t.kind = .openBracket) (inner : Expr.AllSpelled items ts)
      (closed : close.kind = .closeBracket) : Expr.Spelled (.list t items) (t :: (ts ++ [close]))
  | object (t : Token) {close : Token} {entries : List Entry} {ts : List Token}
      (kind : t.kind = .openBrace) (inner : Entry.AllSpelled entries ts)
      (closed : close.kind = .closeBrace) : Expr.Spelled (.object t entries) (t :: (ts ++ [close]))
  /-- A single parameter may stand without parentheses. -/
  | function (t : Token) (name : Text) (p : Parameter) {body : Expr} {us : List Token}
      (before : p.token.kind = .name ∨ p.token.kind = .wildcard) (kind : t.kind = .functionArrow)
      (behind : body.Spelled us) : Expr.Spelled (.function t name [p] body) (p.token :: t :: us)
  | bracketed (t : Token) (name : Text) {paren close : Token} {parameters : List Parameter}
      {body : Expr} {ts us : List Token} (opened : paren.kind = .openParen)
      (before : Parameter.AllSpelled parameters ts) (closed : close.kind = .closeParen)
      (kind : t.kind = .functionArrow) (behind : body.Spelled us) :
      Expr.Spelled (.function t name parameters body) (paren :: (ts ++ [close]) ++ t :: us)

/-- The tokens spell the expressions one after the other. -/
inductive Expr.AllSpelled : List Expr → List Token → Prop
  | nil : Expr.AllSpelled [] []
  | cons {e : Expr} {rest : List Expr} {ts us : List Token} (first : e.Spelled ts)
      (later : Expr.AllSpelled rest us) : Expr.AllSpelled (e :: rest) (ts ++ us)

/-- The tokens spell the arms of a choice one after the other. -/
inductive Arm.AllSpelled : List Arm → List Token → Prop
  | nil : Arm.AllSpelled [] []
  | case (t : Token) {pattern body : Expr} {rest : List Arm} {ts us vs : List Token}
      (before : pattern.Spelled ts) (kind : t.kind = .arrow) (behind : body.Spelled us)
      (later : Arm.AllSpelled rest vs) :
      Arm.AllSpelled (.case t pattern body :: rest) (ts ++ t :: us ++ vs)
  | otherwise (t : Token) {wildcard : Token} {body : Expr} {rest : List Arm} {us vs : List Token}
      (before : wildcard.kind = .wildcard) (kind : t.kind = .arrow) (behind : body.Spelled us)
      (later : Arm.AllSpelled rest vs) :
      Arm.AllSpelled (.otherwise t body :: rest) (wildcard :: t :: us ++ vs)

/-- The tokens spell the entries of an object one after the other. -/
inductive Entry.AllSpelled : List Entry → List Token → Prop
  | nil : Entry.AllSpelled [] []
  | cons {colon : Token} {key value : Expr} {rest : List Entry} {ts us vs : List Token}
      (before : key.Spelled ts) (between : colon.kind = .colon) (behind : value.Spelled us)
      (later : Entry.AllSpelled rest vs) :
      Entry.AllSpelled (.mk key value :: rest) (ts ++ colon :: us ++ vs)

end

/-! ## What a reader takes -/

/-- Whether a token separates expressions. -/
def Token.separates (t : Token) : Bool := t.kind = .separator

namespace Parser

variable {rest ts : List Token} {e : Expr} {parts : List (List Token)}

/-- What a reader gives, and that it only goes forward. -/
def Spec {α : Type} (p : Parser α) (tokens : List Token) (post : α → List Token → Prop) : Prop :=
  match p tokens with
  | .ok value rest => rest <:+ tokens ∧ post value rest
  | .failed _ rest => rest <:+ tokens

namespace Spec

variable {α β : Type} {p : Parser α} {tokens : List Token} {post post' : α → List Token → Prop}

theorem pure {value : α} (h : post value tokens) : Spec (Pure.pure value) tokens post :=
  ⟨suffix_rfl, h⟩

theorem fail (problem : Problem) (token : Token) : Spec (Parser.fail problem token) tokens post :=
  suffix_rfl

theorem bind {f : α → Parser β} {post : β → List Token → Prop}
    (h : Spec p tokens fun value rest => Spec (f value) rest post) : Spec (p >>= f) tokens post := by
  unfold Spec at h ⊢
  show match (match p tokens with
    | .ok value rest => f value rest
    | .failed problem rest => .failed problem rest) with
    | .ok value rest => rest <:+ tokens ∧ post value rest
    | .failed _ rest => rest <:+ tokens
  cases hp : p tokens with
  | failed problem rest =>
    rw [hp] at h
    exact h
  | ok value rest =>
    rw [hp] at h
    obtain ⟨hrest, hpost⟩ := h
    dsimp only at hpost ⊢
    cases hf : f value rest with
    | failed problem rest' =>
      rw [hf] at hpost
      exact hpost.trans hrest
    | ok value' rest' =>
      rw [hf] at hpost
      exact ⟨hpost.1.trans hrest, hpost.2⟩

theorem imp (h : Spec p tokens post)
    (himp : ∀ value rest, rest <:+ tokens → post value rest → post' value rest) :
    Spec p tokens post' := by
  unfold Spec at h ⊢
  split at h
  · exact ⟨h.1, himp _ _ h.1 h.2⟩
  · exact h

theorem peek {post : Token → List Token → Prop} (h : post (tokens.headD .missingEnd) tokens) :
    Spec peek tokens post :=
  ⟨suffix_rfl, h⟩

theorem take {post : Token → List Token → Prop} (h : post (tokens.headD .missingEnd) tokens.tail) :
    Spec take tokens post :=
  ⟨tail_suffix _, h⟩

end Spec

theorem Spec.expect {post : Token → List Token → Prop} (hkind : kind ≠ .finish)
    (h : ∀ t rest, tokens = t :: rest → t.kind = kind → post t rest) :
    Spec (expect kind) tokens post := by
  refine .bind (.peek ?_)
  cases tokens with
  | nil =>
    rw [if_neg (by exact hkind.symm)]
    exact .fail _ _
  | cons t rest =>
    rw [headD_cons]
    by_cases hmatch : t.kind = kind
    · rw [if_pos hmatch]
      exact .take (h t rest rfl hmatch)
    · rw [if_neg hmatch]
      exact .fail _ _

/-- Reading goes from one place in a list of tokens to a later one, over the given tokens and over
separators, and does not come to the end of the program. -/
def Takes (tokens rest spelled : List Token) : Prop :=
  ∃ taken, tokens = taken ++ rest ∧ taken.filter (fun t => !t.separates) = spelled ∧
    ∀ t ∈ taken, t.kind ≠ .finish

namespace Takes

variable {tokens middle rest ts us : List Token}

theorem refl (tokens : List Token) : Takes tokens tokens [] := ⟨[], rfl, rfl, by simp⟩

theorem trans (h : Takes tokens middle ts) (h' : Takes middle rest us) :
    Takes tokens rest (ts ++ us) := by
  obtain ⟨taken, rfl, rfl, hfinish⟩ := h
  obtain ⟨taken', rfl, rfl, hfinish'⟩ := h'
  refine ⟨taken ++ taken', by rw [append_assoc], filter_append _ _, fun t ht => ?_⟩
  exact (mem_append.1 ht).elim (hfinish t) (hfinish' t)

/-- A token that is neither a separator nor the end. -/
theorem token {t : Token} (h : t.kind = kind)
    (hkind : kind ≠ .separator ∧ kind ≠ .finish := by decide) : Takes (t :: rest) rest [t] := by
  refine ⟨[t], rfl, ?_, fun u hu => ?_⟩
  · simp [Token.separates, h, hkind.1]
  · rw [mem_singleton.1 hu, h]
    exact hkind.2

theorem separators (tokens : List Token) :
    Takes tokens (tokens.dropWhile fun t => t.kind = .separator) [] := by
  refine ⟨tokens.takeWhile fun t => t.kind = .separator, takeWhile_append_dropWhile.symm, ?_, ?_⟩
  · refine filter_eq_nil_iff.2 fun t ht => ?_
    simpa [Token.separates] using mem_takeWhile_imp ht
  · intro t ht
    have hkind := mem_takeWhile_imp ht
    simp only [decide_eq_true_eq] at hkind
    simp [hkind]

theorem cons {t : Token} {kind : Kind} (h : Takes middle rest ts) (hmiddle : tokens = t :: middle)
    (ht : t.kind = kind) (hkind : kind ≠ .separator ∧ kind ≠ .finish := by decide) :
    Takes tokens rest (t :: ts) := by
  subst hmiddle
  exact (token ht hkind).trans h

theorem length_le (h : Takes tokens rest ts) : rest.length ≤ tokens.length := by
  obtain ⟨taken, rfl, -, -⟩ := h
  simp

end Takes

/-- How tight the next token binds what stands in front of it. -/
def pull (tokens : List Token) : Nat := precedence (tokens.headD .missingEnd).kind

/-- An expression has been read whose operators bind tighter than `least`. -/
structure Reads (least : Nat) (tokens : List Token) (e : Expr) (rest : List Token) : Prop where
  spelled : ∃ ts, Takes tokens rest ts ∧ e.Spelled ts
  wellFormed : e.WellFormed
  tight : least < e.grip
  follows : pull rest ≤ e.reach
  named : e.startsWithName →
    (tokens.headD .missingEnd).kind = .name ∨ (tokens.headD .missingEnd).kind = .wildcard
  alone : e.IsWildcard → tokens = e.token :: rest

/-- An expression of one token. -/
theorem Reads.atom {t : Token} (ht : t.kind = kind) (hspelled : e.Spelled [t])
    (hformed : e.WellFormed) (hgrip : e.grip = precedence .dot + 1)
    (hreach : e.reach = precedence .dot) (hopening : e.opening = t.kind) (hsome : ¬ e.IsWildcard)
    (hkind : kind ≠ .separator ∧ kind ≠ .finish := by decide) :
    Reads (precedence .dot) (t :: rest) e rest where
  spelled := ⟨[t], .token ht hkind, hspelled⟩
  wellFormed := hformed
  tight := by rw [hgrip]; exact Nat.lt_succ_self _
  follows := by rw [hreach]; exact precedence_le_dot _
  named := by rw [Expr.startsWithName, hopening]; exact id
  alone := fun h => absurd h hsome

theorem Spec.skip {post : Unit → List Token → Prop}
    (h : post () (tokens.dropWhile fun t => t.kind = .separator)) :
    Spec Parser.skipSeparators tokens post :=
  ⟨dropWhile_suffix _, h⟩

/-- The next token is one of a kind that is not the end. -/
theorem exists_cons (h : (tokens.headD .missingEnd).kind = kind)
    (hkind : kind ≠ .finish := by decide) :
    ∃ t rest, tokens = t :: rest ∧ t.kind = kind := by
  cases tokens with
  | nil => exact absurd h.symm hkind
  | cons t rest => exact ⟨t, rest, rfl, h⟩

theorem Spec.take_of_kind {post : Token → List Token → Prop}
    (hkind : (tokens.headD .missingEnd).kind = kind)
    (h : ∀ t rest, tokens = t :: rest → t.kind = kind → post t rest)
    (hfinish : kind ≠ .finish := by decide) : Spec Parser.take tokens post := by
  obtain ⟨t, rest, rfl, ht⟩ := exists_cons hkind hfinish
  exact .take (h t rest rfl ht)

/-! ## Lists -/

section Lists

variable {α : Type}

/-- Reads things with separators between them up to a token of the kind `close`, behind those in
`found`, latest first. -/
def listed (one : Parser α) (close : Kind) (found : List α) : Nat → Parser (List α)
  | 0 => do
    let token ← peek
    fail (.unexpected token) token
  | rounds + 1 => do
    skipSeparators
    if (← peek).kind = close then
      let _ ← take
      return found.reverse
    let item ← one
    let token ← peek
    if token.kind = .separator || token.kind = close then
      listed one close (item :: found) rounds
    else fail (.expected close token) token

/-- Reads an entry of an object. -/
def entry (sub : Nat → Parser Expr) : Parser Entry := do
  let k ← key sub
  let _ ← expect .colon
  let value ← sub lowest
  return .mk k value

theorem bind_assoc {β γ : Type} (p : Parser α) (f : α → Parser β) (g : β → Parser γ) :
    p >>= f >>= g = p >>= fun a => f a >>= g := by
  funext tokens
  show Parser.bind (Parser.bind p f) g tokens = Parser.bind p (fun a => Parser.bind (f a) g) tokens
  unfold Parser.bind
  cases p tokens <;> rfl

theorem itemsUpTo_eq (sub : Nat → Parser Expr) (close : Kind) (items : List Expr) (rounds : Nat) :
    itemsUpTo sub close items rounds = listed (sub lowest) close items rounds := by
  induction rounds generalizing items with
  | zero => rfl
  | succ rounds ih => simp only [itemsUpTo, listed, ih]

theorem armsUpTo_eq (sub : Nat → Parser Expr) (arms : List Arm) (rounds : Nat) :
    armsUpTo sub arms rounds = listed (arm sub) .closeBrace arms rounds := by
  induction rounds generalizing arms with
  | zero => rfl
  | succ rounds ih => simp only [armsUpTo, listed, ih]

theorem entriesUpTo_eq (sub : Nat → Parser Expr) (entries : List Entry) (rounds : Nat) :
    entriesUpTo sub entries rounds = listed (entry sub) .closeBrace entries rounds := by
  induction rounds generalizing entries with
  | zero => rfl
  | succ rounds ih =>
    simp only [entriesUpTo, listed, entry, bind_assoc, ih]
    rfl

/-- What a list that has been read says about its elements, each with the tokens that spell it. -/
structure ReadsList (spelling : α → List Token → Prop) (close : Kind) (tokens : List Token)
    (found items : List α) (rest : List Token) : Prop where
  spelled : ∃ new parts closing, items = found.reverse ++ new ∧ List.Forall₂ spelling new parts ∧
    closing.kind = close ∧ Takes tokens rest (parts.flatten ++ [closing])
  empty : items = [] → ((tokens.dropWhile fun t => t.kind = .separator).headD .missingEnd).kind = close

theorem listed_reads {one : Parser α} {close : Kind} {spelling : α → List Token → Prop} {limit : Nat}
    (hclose : close ≠ .separator ∧ close ≠ .finish)
    (hone : ∀ tokens, tokens.length ≤ limit →
      Spec one tokens fun a rest => ∃ ts, Takes tokens rest ts ∧ spelling a ts)
    (rounds : Nat) : ∀ {found : List α} {tokens : List Token}, tokens.length ≤ limit →
      Spec (listed one close found rounds) tokens (ReadsList spelling close tokens found) := by
  induction rounds with
  | zero => exact fun _ => .bind (.peek (.fail _ _))
  | succ rounds ih =>
    intro found tokens hlimit
    refine .bind (.skip (.bind (.peek ?_)))
    have hskip := Takes.separators tokens
    have hlimit₁ := Nat.le_trans hskip.length_le hlimit
    generalize hmiddle : tokens.dropWhile (fun t => decide (t.kind = .separator)) = middle
      at hskip hlimit₁ ⊢
    split
    · rename_i hkind
      refine .bind (.take_of_kind hkind (fun closing rest hrest hclosing => ?_) hclose.2)
      subst hrest
      refine .pure ⟨⟨[], [], closing, by simp, .nil, hclosing, ?_⟩, fun _ => ?_⟩
      · exact hskip.trans (.token hclosing hclose)
      · rw [hmiddle]
        exact hkind
    · refine .bind ((hone middle hlimit₁).imp fun item rest _ hitem => .bind (.peek ?_))
      obtain ⟨ts, htakes, hspelled⟩ := hitem
      split
      · refine (ih (Nat.le_trans htakes.length_le hlimit₁)).imp fun items rest' _ hitems => ?_
        obtain ⟨⟨new, parts, closing, hsplit, hparts, hclosing, hrest⟩, -⟩ := hitems
        rw [reverse_cons, append_assoc, singleton_append] at hsplit
        refine ⟨⟨item :: new, ts :: parts, closing, hsplit, .cons hspelled hparts, hclosing, ?_⟩, ?_⟩
        · rw [flatten_cons, append_assoc]
          exact hskip.trans (htakes.trans hrest)
        · intro hnil
          rw [hsplit] at hnil
          exact absurd hnil (by simp)
      · exact .fail _ _

end Lists

/-- What is said of one expression of a list. -/
def SpelledWell (e : Expr) (ts : List Token) : Prop := e.Spelled ts ∧ e.WellFormed

theorem allSpelled_of_forall₂ {es : List Expr} (h : List.Forall₂ SpelledWell es parts) :
    Expr.AllSpelled es parts.flatten ∧ Expr.AllWellFormed es := by
  induction h with
  | nil => exact ⟨.nil, trivial⟩
  | cons hfirst _ ih =>
    rw [flatten_cons, Expr.AllWellFormed]
    exact ⟨.cons hfirst.1 ih.1, hfirst.2, ih.2⟩

theorem allSpelled_arms_of_forall₂ {arms : List Arm}
    (h : List.Forall₂ (fun a ts => Arm.AllSpelled [a] ts ∧ Arm.AllWellFormed [a]) arms parts) :
    Arm.AllSpelled arms parts.flatten ∧ Arm.AllWellFormed arms := by
  induction h with
  | nil => exact ⟨.nil, trivial⟩
  | @cons a ts arms parts hfirst _ ih =>
    obtain ⟨hspelled, hformed⟩ := hfirst
    rw [flatten_cons]
    cases hspelled with
    | case t before kind behind later =>
      cases later
      rw [Arm.AllWellFormed] at hformed ⊢
      rw [append_nil]
      exact ⟨.case t before kind behind ih.1, hformed.1, ih.2⟩
    | otherwise t before kind behind later =>
      cases later
      rw [Arm.AllWellFormed] at hformed ⊢
      rw [append_nil]
      exact ⟨.otherwise t before kind behind ih.1, hformed.1, ih.2⟩

theorem allSpelled_entries_of_forall₂ {entries : List Entry}
    (h : List.Forall₂ (fun a ts => Entry.AllSpelled [a] ts ∧ Entry.AllWellFormed [a])
      entries parts) :
    Entry.AllSpelled entries parts.flatten ∧ Entry.AllWellFormed entries := by
  induction h with
  | nil => exact ⟨.nil, trivial⟩
  | @cons a ts entries parts hfirst _ ih =>
    obtain ⟨hspelled, hformed⟩ := hfirst
    rw [flatten_cons]
    cases hspelled with
    | cons before between behind later =>
      cases later
      rw [Entry.AllWellFormed] at hformed ⊢
      rw [append_nil]
      exact ⟨.cons before between behind ih.1, hformed.1, ih.2⟩

/-! ## Forms -/

section Forms

variable {limit : Nat} {sub : Nat → Parser Expr}
  (hsub : ∀ least tokens, lowest ≤ least → least ≤ precedence .dot → tokens.length ≤ limit →
    Spec (sub least) tokens fun e rest => Reads least tokens e rest ∧ pull rest ≤ least)

include hsub

/-- The arrow and the body of a function. -/
theorem functionBody_reads (parameters : List Parameter) (hlimit : tokens.length ≤ limit)
    (harrow : (tokens.headD .missingEnd).kind = .functionArrow) :
    Spec (functionBody sub parameters) tokens fun e rest =>
      ∃ t body ts, e = .function t "" parameters body ∧ Takes tokens rest (t :: ts) ∧
        body.Spelled ts ∧ t.kind = .functionArrow ∧ body.WellFormed ∧ pull rest ≤ lowest := by
  refine .bind (.take_of_kind harrow fun t middle hmiddle ht => ?_)
  subst hmiddle
  have hlimit' : middle.length ≤ limit := Nat.le_of_succ_le hlimit
  refine .bind ((hsub lowest middle (Nat.le_refl _) (by decide) hlimit').imp fun body rest _ hbody => .pure ?_)
  obtain ⟨⟨⟨ts, htakes, hspelled⟩, hformed, -, -, -, -⟩, hstop⟩ := hbody
  exact ⟨t, body, ts, rfl, htakes.cons rfl ht, hspelled, ht, hformed, hstop⟩

/-- Expressions up to a closing bracket. -/
theorem itemsUpTo_reads {close : Kind} (hclose : close ≠ .separator ∧ close ≠ .finish)
    (hlimit : tokens.length ≤ limit) :
    Spec (itemsUpTo sub close [] limit) tokens fun es rest =>
      (∃ ts closing, Takes tokens rest (ts ++ [closing]) ∧ closing.kind = close ∧
        Expr.AllSpelled es ts ∧ Expr.AllWellFormed es) ∧
      (es = [] → ((tokens.dropWhile fun t => t.kind = .separator).headD .missingEnd).kind = close) := by
  rw [itemsUpTo_eq]
  have hone : ∀ tokens, tokens.length ≤ limit → Spec (sub lowest) tokens fun e rest =>
      ∃ ts, Takes tokens rest ts ∧ SpelledWell e ts := by
    intro tokens hlimit
    refine (hsub lowest tokens (Nat.le_refl _) (by decide) hlimit).imp fun e rest _ he => ?_
    obtain ⟨ts, htakes, hspelled⟩ := he.1.spelled
    exact ⟨ts, htakes, hspelled, he.1.wellFormed⟩
  refine (listed_reads hclose hone limit hlimit).imp fun es rest _ hes => ?_
  obtain ⟨⟨new, parts, closing, hnew, hparts, hclosing, htakes⟩, hempty⟩ := hes
  rw [reverse_nil, nil_append] at hnew
  subst hnew
  obtain ⟨hspelled, hformed⟩ := allSpelled_of_forall₂ hparts
  exact ⟨⟨_, closing, htakes, hclosing, hspelled, hformed⟩, hempty⟩

omit hsub in
/-- Expressions that stand for parameters spell the parameters. -/
theorem parameters_reads (es : List Expr) : ∀ {found : List Parameter} {tokens : List Token}
    {ts us : List Token}, Expr.AllSpelled es us → Expr.AllWellFormed es →
      Parameter.AllSpelled found.reverse ts → (∀ p ∈ found, p.WellFormed) →
        Spec (parameters found es) tokens fun ps rest =>
          rest = tokens ∧ Parameter.AllSpelled ps (ts ++ us) ∧ ∀ p ∈ ps, p.WellFormed := by
  have happend : ∀ {ps qs : List Parameter} {ts us : List Token}, Parameter.AllSpelled ps ts →
      Parameter.AllSpelled qs us → Parameter.AllSpelled (ps ++ qs) (ts ++ us) := by
    intro ps qs ts us hps hqs
    induction hps with
    | nil => exact hqs
    | cons p kind _ ih => exact .cons p kind ih
    | unit p kind closed _ ih => exact .unit p kind closed ih
  induction es with
  | nil =>
    intro found tokens ts us hes _ hfound hwell
    cases hes
    refine .pure ⟨rfl, by rwa [append_nil], fun p hp => hwell p (mem_reverse.1 hp)⟩
  | cons e rest ih =>
    intro found tokens ts us hes hformed hfound hwell
    rw [Expr.AllWellFormed] at hformed
    cases hes with
    | @cons _ _ vs us hfirst hlater =>
      -- the parameter joins those that were found before
      have hstep : ∀ p : Parameter, p.WellFormed → Parameter.AllSpelled [p] vs →
          Spec (parameters (p :: found) rest) tokens fun ps rest' =>
            rest' = tokens ∧ Parameter.AllSpelled ps (ts ++ (vs ++ us)) ∧
              ∀ p ∈ ps, p.WellFormed := by
        intro p hp hspelled
        rw [← append_assoc]
        refine ih hlater hformed.2 ?_ ?_
        · rw [reverse_cons]
          exact happend hfound hspelled
        · intro q hq
          rcases mem_cons.1 hq with rfl | hq
          · exact hp
          · exact hwell q hq
      cases hfirst with
      | name t kind => exact hstep ⟨t, t.lexeme⟩ (.inl ⟨kind, rfl⟩) (.cons _ (.inl kind) .nil)
      | wildcard t kind => exact hstep ⟨t, "_"⟩ (.inr ⟨.inl kind, rfl⟩) (.cons _ (.inr kind) .nil)
      | unit t kind closed =>
        exact hstep ⟨t, "_"⟩ (.inr ⟨.inr kind, rfl⟩) (.unit _ kind closed .nil)
      | _ => exact .fail _ _

section

variable (hlimit : tokens.length ≤ limit)

include hlimit

/-- Something in parentheses: the empty value, a group, or a function with its parameters. -/
theorem group_reads (hopening : (tokens.headD .missingEnd).kind = .openParen) :
    Spec (group limit sub) tokens fun e rest =>
      Reads (precedence .dot) tokens e rest ∧ e.FitsDot := by
  refine .bind (.take_of_kind hopening fun t start hstart ht => ?_)
  subst hstart
  have hlimit₁ : start.length ≤ limit := Nat.le_of_succ_le hlimit
  refine .bind (.skip (.bind (.peek ?_)))
  have hskip := Takes.separators start
  have hidem : (start.dropWhile fun t => decide (t.kind = .separator)).dropWhile
      (fun t => decide (t.kind = .separator)) = start.dropWhile fun t => decide (t.kind = .separator) :=
    dropWhile_idempotent _ _
  generalize start.dropWhile (fun t => decide (t.kind = .separator)) = inner at hskip hidem ⊢
  have hlimit₂ := Nat.le_trans hskip.length_le hlimit₁
  have htight : precedence .dot < precedence .dot + 1 := Nat.lt_succ_self _
  -- a function reads as far as it can, so nothing binds it
  have hfunction : ∀ {arrow : Token} {ps : List Parameter} {body : Expr} {rest ts us : List Token},
      Takes (t :: start) rest (t :: ts ++ arrow :: us) →
        (Expr.function arrow "" ps body).Spelled (t :: ts ++ arrow :: us) → arrow.kind = .functionArrow →
          (∀ p ∈ ps, p.WellFormed) → body.WellFormed → pull rest ≤ lowest →
            Reads (precedence .dot) (t :: start) (.function arrow "" ps body) rest ∧
              (Expr.function arrow "" ps body).FitsDot := by
    intro arrow ps body rest ts us htakes hspelled harrow hps hbody hstop
    refine ⟨⟨⟨_, htakes, hspelled⟩, ?_, htight, hstop, ?_, fun h => h.elim⟩, trivial⟩
    · rw [Expr.WellFormed]
      exact ⟨harrow, hps, hbody⟩
    · intro h
      rcases h with h | h <;> cases h
  split
  · rename_i hclosed
    refine .bind (.take_of_kind hclosed fun close rest hrest hclose => ?_)
    subst hrest
    have hclosing : Takes (t :: start) rest [t, close] :=
      (Takes.token ht).trans (hskip.trans (.token hclose))
    refine .bind (.peek ?_)
    split
    · rename_i harrow
      refine (functionBody_reads hsub [] (Nat.le_of_succ_le hlimit₂) harrow).imp
        fun e rest' _ he => ?_
      obtain ⟨arrow, body, us, rfl, htakes, hspelled, hkind, hbody, hstop⟩ := he
      exact hfunction (hclosing.trans htakes) (.bracketed arrow "" ht .nil hclose hkind hspelled) hkind
        (by simp) hbody hstop
    · refine .pure ⟨⟨⟨_, hclosing, .unit t ht hclose⟩, ?_, htight, precedence_le_dot _, ?_, ?_⟩, ht⟩
      · rw [Expr.WellFormed]
        exact .inr ht
      · intro (h : t.kind = .name ∨ t.kind = .wildcard)
        simp [ht] at h
      · intro h
        rw [Expr.IsWildcard, ht] at h
        cases h
  · rename_i hopen
    refine .bind ((itemsUpTo_reads hsub (by decide) hlimit₂).imp fun es rest _ hes => .bind (.peek ?_))
    obtain ⟨⟨ts, close, htakes, hclose, hspelled, hformed⟩, hempty⟩ := hes
    have hall : Takes (t :: start) rest (t :: (ts ++ [close])) :=
      (Takes.token ht).trans (hskip.trans htakes)
    split
    · rename_i harrow
      have hnone : Parameter.AllSpelled (List.reverse []) [] := .nil
      refine .bind ((parameters_reads es hspelled hformed hnone (by simp)).imp fun ps same _ hps => ?_)
      obtain ⟨rfl, hps, hwell⟩ := hps
      refine (functionBody_reads hsub ps (Nat.le_trans htakes.length_le hlimit₂) harrow).imp
        fun e rest' _ he => ?_
      obtain ⟨arrow, body, us, rfl, htakes', hspelled', hkind, hbody, hstop⟩ := he
      rw [nil_append] at hps
      exact hfunction (hall.trans htakes') (.bracketed arrow "" ht hps hclose hkind hspelled')
        hkind hwell hbody hstop
    · refine .pure ⟨⟨⟨_, hall, .group t ht hspelled hclose⟩, ?_, htight, precedence_le_dot _, ?_,
        fun h => h.elim⟩, trivial⟩
      · rw [Expr.WellFormed]
        refine ⟨ht, fun hnil => hopen ?_, hformed⟩
        have hkind := hempty hnil
        rwa [hidem] at hkind
      · intro (h : t.kind = .name ∨ t.kind = .wildcard)
        simp [ht] at h

/-- The key of an entry, which is a name or an operand that starts with something else. -/
theorem key_reads :
    Spec (key sub) tokens fun k rest => (∃ ts, Takes tokens rest ts ∧ k.Spelled ts) ∧
      (k.IsNameKey ∨ (k.WellFormed ∧ entryKey < k.grip ∧ ¬ k.startsWithName)) := by
  refine .bind (.peek ?_)
  split
  · rename_i hkind
    refine .bind (.take_of_kind hkind fun t rest hrest ht => .pure ?_)
    subst hrest
    exact ⟨⟨_, .token ht, .string t t.lexeme (.inr ht)⟩, .inl ⟨ht, rfl⟩⟩
  · exact .fail _ _
  · rename_i hname hwildcard
    refine (hsub entryKey tokens (by decide) (by decide) hlimit).imp fun k rest _ hk => ⟨hk.1.spelled, .inr ?_⟩
    refine ⟨hk.1.wellFormed, hk.1.tight, fun hstarts => ?_⟩
    rcases hk.1.named hstarts with hkind | hkind
    · exact hname hkind
    · exact hwildcard hkind

theorem entry_reads : Spec (entry sub) tokens fun a rest => ∃ ts, Takes tokens rest ts ∧
      Entry.AllSpelled [a] ts ∧ Entry.AllWellFormed [a] := by
  refine .bind ((key_reads hsub hlimit).imp fun k rest _ hk => ?_)
  obtain ⟨⟨ts, htakes, hspelled⟩, hkey⟩ := hk
  refine .bind (.expect (by decide) fun colon rest₁ hrest₁ hcolon => ?_)
  subst hrest₁
  have hlimit₁ : rest₁.length ≤ limit := by
    have hle := htakes.length_le
    rw [length_cons] at hle
    omega
  refine .bind ((hsub lowest rest₁ (Nat.le_refl _) (by decide) hlimit₁).imp fun value rest₂ _ hvalue => .pure ?_)
  obtain ⟨us, htakes', hspelled'⟩ := hvalue.1.spelled
  refine ⟨ts ++ colon :: us ++ [], ?_, .cons hspelled hcolon hspelled' .nil, ?_⟩
  · rw [append_nil]
    exact htakes.trans (htakes'.cons rfl hcolon)
  · rw [Entry.AllWellFormed, Entry.AllWellFormed]
    exact ⟨⟨hkey, hvalue.1.wellFormed⟩, trivial⟩

omit hsub hlimit in
/-- The answer about the next two tokens is right. -/
theorem startsOtherwise_spec {post : Bool → List Token → Prop}
    (hyes : ∀ t u rest, tokens = t :: u :: rest → t.kind = .wildcard → u.kind = .arrow → post true
      tokens)
    (hno : (∀ t u rest, tokens = t :: u :: rest → t.kind = .wildcard → u.kind ≠ .arrow) → post false
      tokens) : Spec startsOtherwise tokens post := by
  unfold Spec startsOtherwise
  match tokens with
  | [] => exact ⟨suffix_rfl, hno fun t u rest h => by cases h⟩
  | [t] => exact ⟨suffix_rfl, hno fun t u rest h => by cases h⟩
  | t :: u :: rest =>
    refine ⟨suffix_rfl, ?_⟩
    by_cases h : t.kind = .wildcard ∧ u.kind = .arrow
    · rw [h.1, h.2]
      exact hyes t u rest rfl h.1 h.2
    · have hfalse : (decide (t.kind = .wildcard) && decide (u.kind = .arrow)) = false := by
        simpa using h
      rw [hfalse]
      refine hno fun t' u' rest' heq ht hu => h ?_
      cases heq
      exact ⟨ht, hu⟩

theorem arm_reads : Spec (arm sub) tokens fun a rest => ∃ ts, Takes tokens rest ts ∧
      Arm.AllSpelled [a] ts ∧ Arm.AllWellFormed [a] := by
  refine .bind (startsOtherwise_spec ?_ ?_)
  · intro wildcard arrow rest htokens hwildcard harrow
    subst htokens
    refine .bind (.take (.bind (.expect (by decide) fun arrow' rest' hrest _ => ?_)))
    cases hrest
    have hlimit' : rest.length ≤ limit := by
      simp only [length_cons] at hlimit
      omega
    refine .bind ((hsub lowest rest (Nat.le_refl _) (by decide) hlimit').imp fun body rest' _ hbody => .pure ?_)
    obtain ⟨us, htakes, hspelled⟩ := hbody.1.spelled
    refine ⟨wildcard :: arrow :: us ++ [], ?_, .otherwise arrow hwildcard harrow hspelled .nil, ?_⟩
    · rw [append_nil]
      exact (htakes.cons rfl harrow).cons rfl hwildcard
    · rw [Arm.AllWellFormed, Arm.AllWellFormed]
      exact ⟨⟨harrow, hbody.1.wellFormed⟩, trivial⟩
  · intro hno
    refine .bind ((hsub lowest tokens (Nat.le_refl _) (by decide) hlimit).imp fun pattern rest _ hpattern => ?_)
    refine .bind (.expect (by decide) fun arrow rest₁ hrest₁ harrow => ?_)
    subst hrest₁
    obtain ⟨⟨⟨ts, htakes, hspelled⟩, hformed, -, -, -, halone⟩, -⟩ := hpattern
    have hlimit₁ : rest₁.length ≤ limit := by
      have hle := htakes.length_le
      rw [length_cons] at hle
      omega
    refine .bind ((hsub lowest rest₁ (Nat.le_refl _) (by decide) hlimit₁).imp fun body rest₂ _ hbody => .pure ?_)
    obtain ⟨us, htakes', hspelled'⟩ := hbody.1.spelled
    refine ⟨ts ++ arrow :: us ++ [], ?_, .case arrow hspelled harrow hspelled' .nil, ?_⟩
    · rw [append_nil]
      exact htakes.trans (htakes'.cons rfl harrow)
    · rw [Arm.AllWellFormed, Arm.AllWellFormed]
      refine ⟨⟨harrow, hformed, fun hwildcard => ?_, hbody.1.wellFormed⟩, trivial⟩
      -- the wildcard alone would have been taken for the arm that always matches
      refine hno pattern.token arrow rest₁ (halone hwildcard) ?_ harrow
      cases pattern <;> first | exact hwildcard | exact hwildcard.elim

/-! ## Operands and operators -/

/-- The operand that an expression starts with. -/
theorem operand_reads : Spec (operand limit sub) tokens (Reads (precedence .dot) tokens) := by
  have htight : precedence .dot < precedence .dot + 1 := Nat.lt_succ_self _
  refine .bind (.peek ?_)
  split
  · -- a name, or a function with a name for its parameter
    rename_i hkind
    refine .bind (.take_of_kind hkind fun t rest hrest ht => ?_)
    subst hrest
    refine .bind (.peek ?_)
    split
    · rename_i harrow
      refine (functionBody_reads hsub _ (Nat.le_of_succ_le hlimit) harrow).imp fun e rest' _ he => ?_
      obtain ⟨arrow, body, us, rfl, htakes, hspelled, hkind', hbody, hstop⟩ := he
      refine ⟨⟨_, htakes.cons rfl ht, .function arrow "" ⟨t, t.lexeme⟩ (.inl ht) hkind' hspelled⟩, ?_, htight,
        hstop, fun _ => .inl ht, fun h => h.elim⟩
      rw [Expr.WellFormed]
      refine ⟨hkind', fun p hp => ?_, hbody⟩
      rw [mem_singleton.1 hp]
      exact .inl ⟨ht, rfl⟩
    · exact .pure (.atom ht (.name t ht) (by rw [Expr.WellFormed]; exact ht) rfl rfl rfl id)
  · -- the empty value, or a function that does not use its parameter
    rename_i hkind
    refine .bind (.take_of_kind hkind fun t rest hrest ht => ?_)
    subst hrest
    refine .bind (.peek ?_)
    split
    · rename_i harrow
      refine (functionBody_reads hsub _ (Nat.le_of_succ_le hlimit) harrow).imp fun e rest' _ he => ?_
      obtain ⟨arrow, body, us, rfl, htakes, hspelled, hkind', hbody, hstop⟩ := he
      refine ⟨⟨_, htakes.cons rfl ht, .function arrow "" ⟨t, "_"⟩ (.inr ht) hkind' hspelled⟩, ?_, htight,
        hstop, fun _ => .inr ht, fun h => h.elim⟩
      rw [Expr.WellFormed]
      refine ⟨hkind', fun p hp => ?_, hbody⟩
      rw [mem_singleton.1 hp]
      exact .inr ⟨.inl ht, rfl⟩
    · exact .pure ⟨⟨_, .token ht, .wildcard t ht⟩, by rw [Expr.WellFormed]; exact .inl ht, htight,
        precedence_le_dot _, fun _ => .inr ht, fun _ => rfl⟩
  · rename_i hkind
    refine .bind (.take_of_kind hkind fun t rest hrest ht => .pure ?_)
    subst hrest
    exact .atom ht (.number t _ ht) (by rw [Expr.WellFormed]; exact ⟨ht, numberOf_eq_iff.1 rfl⟩) rfl rfl
      rfl id
  · rename_i hkind
    refine .bind (.take_of_kind hkind fun t rest hrest ht => .pure ?_)
    subst hrest
    exact .atom ht (.string t _ (.inl ht)) (by rw [Expr.WellFormed]; exact ⟨ht, textOf_eq_iff.1 rfl⟩) rfl
      rfl rfl id
  · rename_i hkind
    refine .bind (.take_of_kind hkind fun t rest hrest ht => .pure ?_)
    subst hrest
    exact .atom ht (.boolean t _ (by simp [ht])) (by rw [Expr.WellFormed]; exact ⟨.inl ht, rfl⟩) rfl rfl rfl id
  · rename_i hkind
    refine .bind (.take_of_kind hkind fun t rest hrest ht => .pure ?_)
    subst hrest
    exact .atom ht (.boolean t _ (by simp [ht])) (by rw [Expr.WellFormed]; exact ⟨.inr ht, rfl⟩) rfl rfl rfl id
  · rename_i hkind
    refine .bind (.take_of_kind hkind fun t rest hrest ht => ?_)
    subst hrest
    refine .bind ((hsub negation rest (by decide) (by decide) (Nat.le_of_succ_le hlimit)).imp
      fun e rest' _ he => .pure ?_)
    obtain ⟨us, htakes, hspelled⟩ := he.1.spelled
    refine ⟨⟨_, htakes.cons rfl ht, .negate t ht hspelled⟩, ?_, htight, ?_, fun h => h, fun h => h.elim⟩
    · rw [Expr.WellFormed]
      exact ⟨ht, he.1.wellFormed, he.1.tight⟩
    · exact Nat.le_min.2 ⟨he.2, he.1.follows⟩
  · rename_i hkind
    exact (group_reads hsub hlimit hkind).imp fun e rest _ he => he.1
  · rename_i hkind
    refine .bind (.take_of_kind hkind fun t rest hrest ht => ?_)
    subst hrest
    refine .bind ((itemsUpTo_reads hsub (by decide) (Nat.le_of_succ_le hlimit)).imp
      fun es rest' _ hes => .pure ?_)
    obtain ⟨⟨ts, close, htakes, hclose, hspelled, hformed⟩, -⟩ := hes
    refine ⟨⟨_, htakes.cons rfl ht, .list t ht hspelled hclose⟩, ?_, htight, precedence_le_dot _,
      fun h => h, fun h => h.elim⟩
    rw [Expr.WellFormed]
    exact ⟨ht, hformed⟩
  · rename_i hkind
    refine .bind (.take_of_kind hkind fun t rest hrest ht => ?_)
    subst hrest
    rw [entriesUpTo_eq]
    refine .bind ((listed_reads (by decide) (fun tokens h => entry_reads hsub h) limit
      (Nat.le_of_succ_le hlimit)).imp fun entries rest' _ hentries => .pure ?_)
    obtain ⟨⟨new, parts, close, hnew, hparts, hclose, htakes⟩, -⟩ := hentries
    rw [reverse_nil, nil_append] at hnew
    subst hnew
    obtain ⟨hspelled, hformed⟩ := allSpelled_entries_of_forall₂ hparts
    refine ⟨⟨_, htakes.cons rfl ht, .object t ht hspelled hclose⟩, ?_, htight, precedence_le_dot _,
      fun h => h, fun h => h.elim⟩
    rw [Expr.WellFormed]
    exact ⟨ht, hformed⟩
  · exact .fail _ _

/-- The key behind a dot. -/
theorem accessKey_reads :
    Spec (accessKey limit sub) tokens fun k rest => (∃ ts, Takes tokens rest ts ∧ k.Spelled ts) ∧
      (k.IsNameKey ∨ k.FitsDot ∧ k.WellFormed) ∧ pull rest ≤ k.reach := by
  refine .bind (.peek ?_)
  split
  · rename_i hkind
    refine .bind (.take_of_kind hkind fun t rest hrest ht => .pure ?_)
    subst hrest
    exact ⟨⟨_, .token ht, .string t t.lexeme (.inr ht)⟩, .inl ⟨ht, rfl⟩, precedence_le_dot _⟩
  · rename_i hkind
    refine .bind (.take_of_kind hkind fun t rest hrest ht => .pure ?_)
    subst hrest
    refine ⟨⟨_, .token ht, .number t _ ht⟩, .inr ⟨trivial, ?_⟩, precedence_le_dot _⟩
    rw [Expr.WellFormed]
    exact ⟨ht, numberOf_eq_iff.1 rfl⟩
  · rename_i hkind
    refine .bind (.take_of_kind hkind fun t rest hrest ht => .pure ?_)
    subst hrest
    refine ⟨⟨_, .token ht, .string t _ (.inl ht)⟩, .inr ⟨trivial, ?_⟩, precedence_le_dot _⟩
    rw [Expr.WellFormed]
    exact ⟨ht, textOf_eq_iff.1 rfl⟩
  · rename_i hkind
    exact (group_reads hsub hlimit hkind).imp fun k rest _ hk =>
      ⟨hk.1.spelled, .inr ⟨hk.2, hk.1.wellFormed⟩, hk.1.follows⟩
  · exact .fail _ _

end

omit hsub in
/-- A name that is given to a function changes nothing else. -/
theorem named_reads {target value : Expr} {ts : List Token} (hspelled : value.Spelled ts)
    (hformed : value.WellFormed) :
    (named target value).Spelled ts ∧ (named target value).WellFormed := by
  unfold named
  split
  · rw [Expr.WellFormed] at hformed ⊢
    refine ⟨?_, hformed⟩
    cases hspelled with
    | function _ _ p before kind behind => exact .function _ _ p before kind behind
    | bracketed _ _ opened before closed kind behind =>
      exact .bracketed _ _ opened before closed kind behind
  · exact ⟨hspelled, hformed⟩

/-- An operator that binds tighter than asked for, with what follows it. -/
theorem operation_reads {start : List Token} {left : Expr} (hleast : lowest ≤ least)
    (hlimit : tokens.length ≤ limit) (hleft : Reads least start left tokens)
    (hpull : least < pull tokens) :
    Spec (operation limit sub left) tokens fun e rest =>
      Reads least start e rest ∧ rest.length < tokens.length := by
  obtain ⟨⟨ts, htakes, hspelled⟩, hformed, htight, hfollows, hnamed, -⟩ := hleft
  cases tokens with
  | nil => exact absurd hpull (Nat.not_lt.2 hleast)
  | cons t rest =>
  have hlimit' : rest.length ≤ limit := Nat.le_of_succ_le hlimit
  have hshorter : ∀ {rest' us : List Token}, Takes rest rest' us →
      rest'.length < (t :: rest).length := fun h => Nat.lt_succ_of_le h.length_le
  have hbinds : least < precedence t.kind := hpull
  have hreach : precedence t.kind ≤ left.reach := hfollows
  refine .bind (.take ?_)
  rw [headD_cons, tail_cons]
  split
  · rename_i hkind
    rw [hkind] at hbinds hreach
    refine .bind ((hsub lowest rest (Nat.le_refl _) (by decide) hlimit').imp fun value rest' _ hvalue => .pure ?_)
    obtain ⟨us, htakes', hspelled'⟩ := hvalue.1.spelled
    obtain ⟨hvalueSpelled, hvalueFormed⟩ := @named_reads left _ _ hspelled' hvalue.1.wellFormed
    refine ⟨⟨⟨_, htakes.trans (htakes'.cons rfl hkind), .define t hspelled hkind hvalueSpelled⟩, ?_,
      Nat.lt_min.2 ⟨htight, hbinds⟩, hvalue.2, hnamed, fun h => h.elim⟩, hshorter htakes'⟩
    rw [Expr.WellFormed]
    exact ⟨hkind, hformed, hreach, hvalueFormed⟩
  · rename_i hkind
    rw [hkind] at hbinds hreach
    refine .bind (.expect (by decide) fun brace rest₁ hrest₁ hbrace => ?_)
    subst hrest₁
    rw [armsUpTo_eq]
    refine .bind ((listed_reads (by decide) (fun tokens h => arm_reads hsub h) limit
      (Nat.le_of_succ_le hlimit')).imp fun arms rest' _ harms => .pure ?_)
    obtain ⟨⟨new, parts, close, hnew, hparts, hclose, htakes'⟩, -⟩ := harms
    rw [reverse_nil, nil_append] at hnew
    subst hnew
    obtain ⟨hspelled', hformed'⟩ := allSpelled_arms_of_forall₂ hparts
    have hbraced := htakes'.cons rfl hbrace
    refine ⟨⟨⟨_, htakes.trans (hbraced.cons rfl hkind), .choose t hspelled hkind hbrace hspelled' hclose⟩, ?_,
      Nat.lt_min.2 ⟨htight, hbinds⟩, precedence_le_dot _, hnamed, fun h => h.elim⟩, hshorter hbraced⟩
    rw [Expr.WellFormed]
    exact ⟨hkind, hformed, hreach, hformed'⟩
  · rename_i hkind
    rw [hkind] at hbinds hreach
    refine .bind ((itemsUpTo_reads hsub (by decide) hlimit').imp fun es rest' _ hes => .pure ?_)
    obtain ⟨⟨us, close, htakes', hclose, hspelled', hformed'⟩, -⟩ := hes
    refine ⟨⟨⟨_, htakes.trans (htakes'.cons rfl hkind), .call t hspelled hkind hspelled' hclose⟩, ?_,
      Nat.lt_min.2 ⟨htight, hbinds⟩, precedence_le_dot _, hnamed, fun h => h.elim⟩, hshorter htakes'⟩
    rw [Expr.WellFormed]
    exact ⟨hkind, hformed, hreach, hformed'⟩
  · rename_i hkind
    rw [hkind] at hbinds hreach
    refine .bind ((accessKey_reads hsub hlimit').imp fun key rest' _ hkey => .pure ?_)
    obtain ⟨⟨us, htakes', hspelled'⟩, hformed', hstop⟩ := hkey
    refine ⟨⟨⟨_, htakes.trans (htakes'.cons rfl hkind), .access t hspelled hkind hspelled'⟩, ?_,
      Nat.lt_min.2 ⟨htight, hbinds⟩, hstop, hnamed, fun h => h.elim⟩, hshorter htakes'⟩
    rw [Expr.WellFormed]
    exact ⟨hkind, hformed, hreach, hformed'⟩
  · rename_i hdefine hchoose hcall hdot
    have hoperator := isInfix_of_lowest_lt (Nat.lt_of_le_of_lt hleast hbinds) hdefine hchoose hcall hdot
    have hkind : t.kind ≠ .separator ∧ t.kind ≠ .finish := by
      constructor <;> intro h <;> rw [h] at hoperator <;> cases hoperator
    refine .bind ((hsub (precedence t.kind) rest (lowest_le_precedence _) (precedence_le_dot _) hlimit').imp
      fun right rest' _ hright => .pure ?_)
    obtain ⟨us, htakes', hspelled'⟩ := hright.1.spelled
    refine ⟨⟨⟨_, htakes.trans (htakes'.cons rfl rfl hkind), .binary t hspelled hoperator hspelled'⟩, ?_,
      Nat.lt_min.2 ⟨htight, hbinds⟩, Nat.le_min.2 ⟨hright.2, hright.1.follows⟩, hnamed,
      fun h => h.elim⟩, hshorter htakes'⟩
    rw [Expr.WellFormed]
    exact ⟨hoperator, hformed, hreach, hright.1.wellFormed, hright.1.tight⟩

/-- The loop over operators stops where nothing binds tighter than asked for. Every round takes a
token, so there are enough of them. -/
theorem operations_reads {start : List Token} (hleast : lowest ≤ least) (rounds : Nat) :
    ∀ {left : Expr} {tokens : List Token}, tokens.length ≤ limit → tokens.length ≤ rounds →
      Reads least start left tokens →
        Spec (operations limit sub least left rounds) tokens fun e rest =>
          Reads least start e rest ∧ pull rest ≤ least := by
  induction rounds with
  | zero =>
    intro left tokens _ hrounds hleft
    have hnil := length_eq_zero_iff.1 (Nat.le_zero.1 hrounds)
    subst hnil
    exact .pure ⟨hleft, hleast⟩
  | succ rounds ih =>
    intro left tokens hlimit hrounds hleft
    refine .bind (.peek ?_)
    split
    · rename_i hpull
      refine .bind ((operation_reads hsub hleast hlimit hleft hpull).imp fun e rest _ he => ?_)
      exact ih (by omega) (by omega) he.1
    · rename_i hpull
      exact .pure ⟨hleft, Nat.not_lt.1 hpull⟩

end Forms

theorem Reads.mono {least' : Nat} (h : Reads least tokens e rest) (hle : least' ≤ least) :
    Reads least' tokens e rest :=
  { h with tight := Nat.lt_of_le_of_lt hle h.tight }

/-- An expression of any depth is spelled by what is taken for it. -/
theorem expression_reads {limit : Nat} (depth : Nat) : ∀ least tokens, lowest ≤ least →
    least ≤ precedence .dot → tokens.length ≤ limit →
      Spec (expression limit depth least) tokens fun e rest =>
        Reads least tokens e rest ∧ pull rest ≤ least := by
  induction depth with
  | zero => exact fun _ _ _ _ _ => .bind (.peek (.fail _ _))
  | succ depth ih =>
    intro least tokens hleast hdot hlimit
    refine .bind ((operand_reads ih hlimit).imp fun left rest hrest hleft => ?_)
    have hlength := Nat.le_trans hrest.length_le hlimit
    exact operations_reads ih hleast limit hlength hlength (hleft.mono hdot)

/-! ## Programs -/

/-- No expression is spelled by nothing. -/
theorem spelled_ne_nil (h : e.Spelled ts) : ts ≠ [] := by
  cases h <;> simp

theorem Takes.length_lt (h : Takes tokens rest ts) (hts : ts ≠ []) :
    rest.length < tokens.length := by
  obtain ⟨taken, rfl, rfl, -⟩ := h
  have hpos : 0 < taken.length := by
    rw [length_pos_iff]
    rintro rfl
    exact hts rfl
  rw [length_append]
  omega

/-- A problem that has been found is reported. -/
theorem itemsFrom_problems_ne_nil (limit rounds : Nat) : ∀ (items : List Expr)
    (problems : List Diagnostic) (tokens : List Token), problems ≠ [] →
      (itemsFrom limit items problems rounds tokens).2 ≠ [] := by
  induction rounds with
  | zero => exact fun _ problems _ h => by simpa [itemsFrom] using h
  | succ rounds ih =>
    intro items problems tokens h
    unfold itemsFrom
    dsimp only
    split
    · simpa using h
    split
    · exact ih _ _ _ h
    split
    · split
      · exact ih _ _ _ h
      · exact ih _ _ _ (cons_ne_nil _ _)
    · exact ih _ _ _ (cons_ne_nil _ _)

/-- If no problem is found, the expressions of a program are spelled by all tokens up to its end. -/
theorem itemsFrom_reads (limit rounds : Nat) : ∀ {items : List Expr} {problems : List Diagnostic}
    {tokens : List Token}, tokens.length ≤ limit → tokens.length < rounds →
      (itemsFrom limit items problems rounds tokens).2 = [] →
        ∃ new ts rest, (itemsFrom limit items problems rounds tokens).1 = items.reverse ++ new ∧
          Takes tokens rest ts ∧ (rest.headD .missingEnd).kind = .finish ∧
            Expr.AllSpelled new ts ∧ Expr.AllWellFormed new := by
  induction rounds with
  | zero => exact fun _ h => absurd h (Nat.not_lt_zero _)
  | succ rounds ih =>
    intro items problems tokens hlimit hrounds hnone
    unfold itemsFrom at hnone ⊢
    dsimp only at hnone ⊢
    split at hnone
    · rename_i hfinish
      rw [if_pos hfinish]
      exact ⟨[], [], tokens, by simp, .refl _, hfinish, .nil, trivial⟩
    rename_i hgoes
    rw [if_neg hgoes]
    split at hnone
    · rename_i hseparator
      rw [if_pos hseparator]
      obtain ⟨t, rest, rfl, ht⟩ := exists_cons hseparator
      rw [length_cons] at hlimit hrounds
      rw [tail_cons] at hnone ⊢
      have hrest := ih (by omega) (by omega) hnone
      obtain ⟨new, ts, rest', heq, htakes, hend⟩ := hrest
      refine ⟨new, ts, rest', heq, ?_, hend⟩
      have hskip : Takes (t :: rest) rest [] :=
        ⟨[t], rfl, by simp [Token.separates, ht], by simp [ht]⟩
      exact hskip.trans htakes
    rename_i hstarts
    rw [if_neg hstarts]
    have hspec := expression_reads maxDepth lowest tokens (Nat.le_refl _) (by decide) hlimit
    unfold Spec at hspec
    cases hread : expression limit maxDepth lowest tokens with
    | failed problem rest =>
      rw [hread] at hnone
      exact absurd hnone (itemsFrom_problems_ne_nil _ _ _ _ _ (cons_ne_nil _ _))
    | ok item rest =>
      rw [hread] at hnone hspec
      obtain ⟨-, ⟨⟨ts, htakes, hspelled⟩, hformed, -, -, -, -⟩, -⟩ := hspec
      have hshorter := htakes.length_lt (spelled_ne_nil hspelled)
      dsimp only at hnone ⊢
      split at hnone
      · rename_i hnext
        rw [if_pos hnext]
        have hrest := ih (by omega) (by omega) hnone
        obtain ⟨new, us, rest', heq, htakes', hend, hall, hwell⟩ := hrest
        refine ⟨item :: new, ts ++ us, rest', ?_, htakes.trans htakes', hend, .cons hspelled hall, ?_⟩
        · rw [heq, reverse_cons, append_assoc, singleton_append]
        · rw [Expr.AllWellFormed]
          exact ⟨hformed, hwell⟩
      · exact absurd hnone (itemsFrom_problems_ne_nil _ _ _ _ _ (cons_ne_nil _ _))

/-- What is taken up to the end of the program is what stands in front of its first end. -/
theorem Takes.takeWhile (h : Takes tokens rest ts)
    (hend : (rest.headD .missingEnd).kind = .finish) :
    (tokens.takeWhile fun t => t.kind ≠ .finish).filter (fun t => !t.separates) = ts := by
  obtain ⟨taken, rfl, rfl, hfinish⟩ := h
  have htaken : taken.takeWhile (fun t => decide (t.kind ≠ .finish)) = taken :=
    takeWhile_eq_self_iff.2 fun t ht => by simpa using hfinish t ht
  rw [takeWhile_append, if_pos (congrArg List.length htaken)]
  cases rest with
  | nil => simp
  | cons t rest =>
    have ht : t.kind = .finish := hend
    simp [ht]

end Parser

/-- An end that is added to a list of tokens is none of those in front of the end. -/
theorem Token.takeWhile_numbered_completed (tokens : List Token) :
    (Token.numbered (Parser.completed tokens)).takeWhile (fun t => t.kind ≠ .finish) =
      (Token.numbered tokens).takeWhile fun t => t.kind ≠ .finish := by
  have hadded : ∀ (l : List Token) (last : Token), last.kind = .finish →
      (l ++ [last]).takeWhile (fun t => decide (t.kind ≠ .finish)) =
        l.takeWhile fun t => decide (t.kind ≠ .finish) := by
    intro l last hlast
    induction l with
    | nil => simp [hlast]
    | cons t rest ih => simp only [cons_append, takeWhile_cons, ih]
  unfold Parser.completed
  split
  · rfl
  · rw [Token.numbered, mapIdx_append]
    exact hadded _ _ rfl

/-- The expressions of a program without a problem give back the tokens up to the first end, read
from left to right and but for separators and the parentheses around parameters; operators bind in
them as their precedence says, and what extends to the right as far as it can is never a left
operand. -/
theorem Script.parse_spelled (file : Text) (tokens : List Token)
    (h : (Script.parse file tokens).2 = []) :
    Expr.AllSpelled (Script.parse file tokens).1.items
        (((Token.numbered tokens).takeWhile fun t => t.kind ≠ .finish).filter fun t =>
          t.kind ≠ .separator) ∧
      ∀ e ∈ (Script.parse file tokens).1.items, ∀ part : Expr, part.IsPart e →
        part.Balanced ∧ part.Closed := by
  have hlength : (Token.numbered (Parser.completed tokens)).length <
      (Token.numbered (Parser.completed tokens)).length + 1 := Nat.lt_succ_self _
  obtain ⟨new, ts, rest, hitems, htakes, hend, hspelled, hformed⟩ :=
    Parser.itemsFrom_reads _ _ (Nat.le_refl _) hlength h
  have hread : (Script.parse file tokens).1.items = new := hitems
  have htokens := htakes.takeWhile hend
  rw [Token.takeWhile_numbered_completed] at htokens
  rw [hread]
  refine ⟨?_, fun e he part hpart => ?_⟩
  · rw [← htokens] at hspelled
    simpa [Token.separates] using hspelled
  · exact (Expr.allWellFormed_iff.1 hformed e he).part hpart

/-- The tokens of `twice := (n, _) => n * 2 + 1`. -/
def Token.twice : List Token :=
  [{ kind := .name, lexeme := "twice" }, { kind := .define }, { kind := .openParen },
    { kind := .name, lexeme := "n" }, { kind := .separator }, { kind := .wildcard },
    { kind := .closeParen }, { kind := .functionArrow }, { kind := .name, lexeme := "n" },
    { kind := .star }, { kind := .number }, { kind := .plus }, { kind := .number }]

theorem Script.parse_spelled_twice :
    (Script.parse "" Token.twice).2 = [] ∧
      Expr.AllSpelled (Script.parse "" Token.twice).1.items
        (((Token.numbered Token.twice).takeWhile fun t => t.kind ≠ .finish).filter fun t =>
          t.kind ≠ .separator) ∧
      ∀ e ∈ (Script.parse "" Token.twice).1.items, ∀ part : Expr, part.IsPart e →
        part.Balanced ∧ part.Closed :=
  ⟨rfl, Script.parse_spelled "" Token.twice rfl⟩

end Inkwell
