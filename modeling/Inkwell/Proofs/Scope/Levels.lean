import Mathlib.Data.List.Perm.Basic
import Inkwell.Proofs.Scope.Tracks

/-!
# The order of the resolution

The resolution looks at the body of a function after everything around the function, depth by depth.
So it meets what a traversal meets, sorted by the number of functions around it (`byDepth`). The
functions that stand directly in an expression account for all that is met deeper in it (`Nests`).
-/

namespace Inkwell

open List

open Lexical (Event Path Site)
open Resolve (Deferred State Tracks openedPaths metSites)

/-! ## Functions in an expression -/

mutual

/-- The functions that stand directly in an expression, in a scope. If the expression is a group,
`unit` holds the names declared in it. -/
def Expr.functions : Expr → CodeUnit → Path → List Deferred
  | .number .., _, _ | .string .., _, _ | .boolean .., _, _ | .empty .., _, _ | .name _, _, _ => []
  | .negate _ operand, _, path => operand.functions path.unit path
  | .binary _ left right, _, path =>
    left.functions path.unit path ++ right.functions path.unit path
  | .define _ target value, _, path =>
    value.functions path.unit path ++ target.targetFunctions path
  | .access _ container key, _, path =>
    container.functions path.unit path ++ key.functions path.unit path
  | .call _ callee arguments, _, path =>
    callee.functions path.unit path ++ Expr.itemFunctions arguments path
  | .choose _ subject arms, _, path =>
    subject.functions path.unit path ++ Expr.armFunctions arms path
  | .group token items, unit, path => Expr.itemFunctions items (.group token.index unit :: path)
  | .list _ items, _, path => Expr.itemFunctions items path
  | .object _ entries, _, path => Expr.entryFunctions entries path
  | .function token _ parameters body, _, path => [⟨token.index, parameters, body, path⟩]

/-- The functions that stand directly in the target of a definition. -/
def Expr.targetFunctions : Expr → Path → List Deferred
  | .access _ container key, path =>
    container.functions path.unit path ++ key.functions path.unit path
  | _, _ => []

/-- The functions that stand directly in several expressions. -/
def Expr.itemFunctions : List Expr → Path → List Deferred
  | [], _ => []
  | e :: rest, path => e.functions path.unit path ++ Expr.itemFunctions rest path

/-- The functions that stand directly in the arms of a choice. -/
def Expr.armFunctions : List Arm → Path → List Deferred
  | [], _ => []
  | .case token pattern body :: rest, path =>
    pattern.functions path.unit path ++
      (body.functions (.arm token.index) path ++ Expr.armFunctions rest path)
  | .otherwise token body :: rest, path =>
    body.functions (.arm token.index) path ++ Expr.armFunctions rest path

/-- The functions that stand directly in the entries of an object. -/
def Expr.entryFunctions : List Entry → Path → List Deferred
  | [], _ => []
  | .mk key value :: rest, path =>
    key.functions path.unit path ++
      (value.functions path.unit path ++ Expr.entryFunctions rest path)

end

namespace Lexical

/-- The events that are inside of `k` functions. -/
def level (k : Nat) (events : List Event) : List Event := events.filter fun e => e.depth = k

/-- The events that are inside of more than `k` functions. -/
def deeper (k : Nat) (events : List Event) : List Event := events.filter fun e => k < e.depth

/-- The events met inside of `k` functions or more. Those met deeper are the events of functions that
stand directly in there, and in whose bodies there are fewer than `bound` functions inside one
another. -/
structure Nests (k bound : Nat) (events : List Event) (fs : List Deferred) : Prop where
  le : ∀ e ∈ events, k ≤ e.depth
  deeper : deeper k events = fs.flatMap Deferred.events
  path : ∀ f ∈ fs, f.path.depth = k
  bound : ∀ f ∈ fs, f.body.functionDepth < bound

namespace Nests

variable {k bound bound' : Nat} {events events' : List Event} {fs fs' : List Deferred}

theorem nil : Nests k bound [] [] :=
  ⟨by simp, rfl, by simp, by simp⟩

theorem append (h : Nests k bound events fs) (h' : Nests k bound' events' fs') :
    Nests k (max bound bound') (events ++ events') (fs ++ fs') where
  le := by
    intro e he
    rcases mem_append.1 he with he | he
    · exact h.le e he
    · exact h'.le e he
  deeper := by
    rw [Lexical.deeper, filter_append, flatMap_append, ← h.deeper, ← h'.deeper]
    rfl
  path := by
    intro f hf
    rcases mem_append.1 hf with hf | hf
    · exact h.path f hf
    · exact h'.path f hf
  bound := by
    intro f hf
    rcases mem_append.1 hf with hf | hf
    · exact Nat.lt_of_lt_of_le (h.bound f hf) (Nat.le_max_left _ _)
    · exact Nat.lt_of_lt_of_le (h'.bound f hf) (Nat.le_max_right _ _)

theorem cons (h : Nests k bound events fs) {e : Event} (he : e.depth = k) :
    Nests k bound (e :: events) fs where
  le := by
    intro e' he'
    rcases mem_cons.1 he' with rfl | he'
    · exact Nat.le_of_eq he.symm
    · exact h.le e' he'
  deeper := by
    rw [Lexical.deeper, filter_cons, if_neg (by simp [he]), ← h.deeper]
    rfl
  path := h.path
  bound := h.bound

end Nests

theorem depth_parameterEvents {path : Path} (parameters : List Parameter) :
    ∀ place, ∀ e ∈ parameterEvents path place parameters, e.depth = path.depth := by
  induction parameters with
  | nil => simp [parameterEvents]
  | cons p rest ih =>
    intro place e he
    unfold parameterEvents at he
    dsimp only at he
    split at he
    · exact ih _ e he
    · rcases mem_cons.1 he with rfl | he
      · rfl
      · exact ih _ e he

/-- A function is met with all that is inside of it. -/
theorem nests_function (f : Deferred) 
    (hbody : ∀ e ∈ f.body.events (.function f.index) f.inner, f.inner.depth ≤ e.depth) :
    Nests f.path.depth (f.body.functionDepth + 1) f.events [f] := by
  have hinner : f.inner.depth = f.path.depth + 1 := rfl
  have hall : ∀ e ∈ f.events, f.path.depth + 1 ≤ e.depth := by
    intro e he
    rcases mem_cons.1 he with rfl | he
    · exact Nat.le_of_eq hinner.symm
    · rcases mem_append.1 he with he | he
      · exact Nat.le_of_eq (depth_parameterEvents _ _ e he).symm
      · exact hinner ▸ hbody e he
  refine ⟨fun e he => Nat.le_of_succ_le (hall e he), ?_, by simp, by simp⟩
  rw [deeper, flatMap_singleton, filter_eq_self]
  exact fun e he => decide_eq_true (hall e he)

end Lexical

open Lexical (Nests level)

mutual

theorem Expr.nests (e : Expr) (unit : CodeUnit) (path : Path) :
    Nests path.depth e.functionDepth (e.events unit path) (e.functions unit path) := by
  match e with
  | .number .. | .string .. | .boolean .. | .empty .. => exact .nil
  | .name token => exact .cons .nil rfl
  | .negate _ operand => exact operand.nests _ path
  | .binary _ left right => exact (left.nests _ path).append (right.nests _ path)
  | .define _ target value =>
    rw [Expr.functionDepth, Nat.max_comm]
    exact (value.nests _ path).append (target.nests_target path)
  | .access _ container key => exact (container.nests _ path).append (key.nests _ path)
  | .call _ callee arguments => exact (callee.nests _ path).append (Expr.nests_items arguments path)
  | .choose _ subject arms => exact (subject.nests _ path).append (Expr.nests_arms arms path)
  | .group token items => exact .cons (Expr.nests_items items (.group token.index unit :: path)) rfl
  | .list _ items => exact Expr.nests_items items path
  | .object _ entries => exact Expr.nests_entries entries path
  | .function token _ parameters body =>
    exact Lexical.nests_function ⟨token.index, parameters, body, path⟩
      (body.nests (.function token.index) (.function token.index :: path)).le

theorem Expr.nests_target (e : Expr) (path : Path) :
    Nests path.depth e.functionDepth (e.targetEvents path) (e.targetFunctions path) := by
  match e with
  | .name token => exact .cons .nil rfl
  | .access _ container key => exact (container.nests _ path).append (key.nests _ path)
  | .number .. | .string .. | .boolean .. | .empty .. | .negate .. | .binary .. | .define ..
  | .call .. | .choose .. | .group .. | .list .. | .object .. | .function .. => exact .nil

theorem Expr.nests_items (items : List Expr) (path : Path) :
    Nests path.depth (Expr.functionDepthItems items) (Expr.itemEvents items path)
      (Expr.itemFunctions items path) := by
  match items with
  | [] => exact .nil
  | e :: rest => exact (e.nests _ path).append (Expr.nests_items rest path)

theorem Expr.nests_arms (arms : List Arm) (path : Path) :
    Nests path.depth (Expr.functionDepthArms arms) (Expr.armEvents arms path)
      (Expr.armFunctions arms path) := by
  match arms with
  | [] => exact .nil
  | .case token pattern body :: rest =>
    rw [Expr.functionDepthArms, Nat.max_assoc]
    exact (pattern.nests _ path).append ((body.nests _ path).append (Expr.nests_arms rest path))
  | .otherwise token body :: rest => exact (body.nests _ path).append (Expr.nests_arms rest path)

theorem Expr.nests_entries (entries : List Entry) (path : Path) :
    Nests path.depth (Expr.functionDepthEntries entries) (Expr.entryEvents entries path)
      (Expr.entryFunctions entries path) := by
  match entries with
  | [] => exact .nil
  | .mk key value :: rest =>
    rw [Expr.functionDepthEntries, Nat.max_assoc]
    exact (key.nests _ path).append ((value.nests _ path).append (Expr.nests_entries rest path))

end

/-! ## Expressions, one after the other -/

namespace Lexical

/-- The index of the token that opens a scope. -/
def Opening.index : Opening → Nat
  | .program => 0
  | .function index => index
  | .group index _ => index

/-- The index of the token that an event is met at. -/
def Event.index : Event → Nat
  | .opened path => (path.head?.map Opening.index).getD 0
  | .met site => site.token.index

theorem level_append (k : Nat) (events events' : List Event) :
    level k (events ++ events') = level k events ++ level k events' :=
  filter_append ..

theorem level_cons_of_depth {k : Nat} {e : Event} (h : e.depth = k) (events : List Event) :
    level k (e :: events) = e :: level k events := by
  rw [level, filter_cons, if_pos (by simpa using h)]
  rfl

theorem level_eq_self {k : Nat} {events : List Event} (h : ∀ e ∈ events, e.depth = k) :
    level k events = events :=
  filter_eq_self.2 fun e he => decide_eq_true (h e he)

end Lexical

namespace Resolve

variable {events : List Event} {path : Path}
variable {globals : Text → Bool} {st : State} {done : List Event} {fs : List Deferred}

/-- All events are met at different tokens. -/
def Distinct (events : List Event) : Prop := (events.map Event.index).Nodup

theorem Distinct.left {events' : List Event} (h : Distinct (events ++ events')) :
    Distinct events := by
  unfold Distinct at h
  rw [map_append] at h
  exact (nodup_append.1 h).1

theorem Distinct.index_ne {events' : List Event} {e e' : Event}
    (h : Distinct (events ++ e :: events')) (he' : e' ∈ events) : e'.index ≠ e.index := by
  unfold Distinct at h
  rw [map_append, map_cons] at h
  exact (nodup_append.1 h).2.2 _ (mem_map_of_mem he') _ mem_cons_self

theorem Distinct.met {u : Site} (h : Distinct (done ++ .met u :: events)) :
    ∀ d ∈ metSites done, d.token.index ≠ u.token.index := by
  intro d hd
  obtain ⟨e, he, hsite⟩ := mem_filterMap.1 hd
  cases e with
  | opened path => cases hsite
  | met site =>
    cases hsite
    exact h.index_ne he

theorem Distinct.opened {opening : Lexical.Opening}
    (h : Distinct (done ++ .opened (opening :: path) :: events)) (hopening : opening ≠ .program) :
    opening :: path ∉ openedPaths done := by
  intro hmem
  rcases mem_cons.1 hmem with heq | hmem
  · exact hopening (List.cons.inj heq).1
  · obtain ⟨e, he, hpath⟩ := mem_filterMap.1 hmem
    cases e with
    | met site => cases hpath
    | opened other =>
      cases hpath
      exact h.index_ne he rfl

theorem getElem?_openedPaths_append {i : Nat} (h : (openedPaths done)[i]? = some path)
    (events : List Event) : (openedPaths (done ++ events))[i]? = some path := by
  have hpaths : openedPaths (done ++ events) = openedPaths done ++ events.filterMap Event.path? := by
    simp [openedPaths]
  rw [hpaths, List.getElem?_append_left (List.getElem?_eq_some_iff.1 h).1, h]

/-- The state after an expression in a scope; if it is a group, `unit` holds its names. -/
def within (globals : Text → Bool) (unit : CodeUnit) (e : Expr) (scope : Nat) (st : State) : State :=
  match e with
  | .group _ inner => items globals inner st.scopes.size (st.openScope (some scope) unit)
  | e => expr globals e scope st

theorem expr_eq_within (e : Expr) (scope : Nat) :
    expr globals e scope st = within globals (st.unitOf scope) e scope st := by
  cases e <;> rfl

theorem arms_case (token : Token) (pattern body : Expr) (rest : List Arm) (scope : Nat) :
    arms globals (.case token pattern body :: rest) scope st =
      arms globals rest scope
        (within globals (.arm token.index) body scope (expr globals pattern scope st)) := by
  cases body <;> rfl

theorem arms_otherwise (token : Token) (body : Expr) (rest : List Arm) (scope : Nat) :
    arms globals (.otherwise token body :: rest) scope st =
      arms globals rest scope (within globals (.arm token.index) body scope st) := by
  cases body <;> rfl

theorem Tracks.unitOf (h : Tracks globals st done fs) {scope : Nat}
    (hpath : (openedPaths done)[scope]? = some path) : st.unitOf scope = path.unit := by
  obtain ⟨s, hs, hholds⟩ := h.scope scope path hpath
  rw [State.unitOf, hs, Option.getD_some, hholds.unit]

theorem Tracks.getElem?_size (h : Tracks globals st done fs) (path : Path) :
    (openedPaths (done ++ [.opened path]))[st.scopes.size]? = some path := by
  rw [openedPaths_opened, h.size, getElem?_append_right (Nat.le_refl _), Nat.sub_self]
  rfl

/-- A step of the resolution meets some events of a scope and leaves some functions for later. -/
def Meets (globals : Text → Bool) (step : Nat → State → State) (path : Path) (events : List Event)
    (functions : List Deferred) : Prop :=
  ∀ ⦃st : State⦄ ⦃done : List Event⦄ ⦃fs : List Deferred⦄ ⦃scope : Nat⦄, Tracks globals st done fs →
    (openedPaths done)[scope]? = some path → Distinct (done ++ level path.depth events) →
      Tracks globals (step scope st) (done ++ level path.depth events) (fs ++ functions)

namespace Meets

variable {path : Path} {step step' : Nat → State → State} {events events' : List Event}
  {functions functions' : List Deferred}

theorem nil : Meets globals (fun _ st => st) path [] [] := by
  intro st done fs scope h _ _
  simpa [level] using h

theorem append (h : Meets globals step path events functions)
    (h' : Meets globals step' path events' functions') :
    Meets globals (fun scope st => step' scope (step scope st)) path (events ++ events')
      (functions ++ functions') := by
  intro st done fs scope htracks hpath hdistinct
  rw [Lexical.level_append, ← append_assoc] at hdistinct ⊢
  rw [← append_assoc]
  exact h' (h htracks hpath hdistinct.left) (getElem?_openedPaths_append hpath _) hdistinct

theorem congr (h : Meets globals step path events functions)
    (heq : ∀ ⦃st : State⦄ ⦃done : List Event⦄ ⦃fs : List Deferred⦄ ⦃scope : Nat⦄,
      Tracks globals st done fs → (openedPaths done)[scope]? = some path →
        step' scope st = step scope st) : Meets globals step' path events functions := by
  intro st done fs scope htracks hpath hdistinct
  rw [heq htracks hpath]
  exact h htracks hpath hdistinct

theorem use (token : Token) :
    Meets globals (use globals token) path [.met ⟨token, token.lexeme, .use, path⟩] [] := by
  intro st done fs scope htracks hpath hdistinct
  rw [append_nil, Lexical.level_eq_self (by simp [Event.depth])] at *
  exact htracks.use hpath hdistinct.met

theorem define (token : Token) (value : Expr) :
    Meets globals (fun scope st => st.define scope token value) path
      [.met ⟨token, token.lexeme, .target, path⟩] [] := by
  intro st done fs scope htracks hpath hdistinct
  rw [append_nil, Lexical.level_eq_self (by simp [Event.depth])] at *
  exact htracks.define hpath hdistinct.met value

theorem report {problem : Problem} (token : Token) (hproblem : problem.code ≠ "A001") :
    Meets globals (fun _ st => st.report problem token) path [] [] := by
  intro st done fs scope htracks _ _
  rw [append_nil, Lexical.level_eq_self (by simp), append_nil]
  exact htracks.report token hproblem

/-- A group is a scope of its own. -/
theorem group {opening : Token} {unit : CodeUnit} {items : Nat → State → State}
    (h : Meets globals items (.group opening.index unit :: path) events functions) :
    Meets globals (fun scope st => items st.scopes.size (st.openScope (some scope) unit)) path
      (.opened (.group opening.index unit :: path) :: events) functions := by
  intro st done fs scope htracks hpath hdistinct
  have hdepth : Event.depth (.opened (.group opening.index unit :: path)) = path.depth := rfl
  rw [Lexical.level_cons_of_depth hdepth] at hdistinct ⊢
  have hopened := htracks.openScope hpath (hdistinct.opened (by simp))
  rw [append_cons] at hdistinct ⊢
  exact h hopened (htracks.getElem?_size _) hdistinct

/-- The body of a function is left for later. -/
theorem function (token : Token) (name : Text) (parameters : List Parameter) (body : Expr)
    (unit : CodeUnit) :
    Meets globals (expr globals (.function token name parameters body)) path
      (Expr.events (.function token name parameters body) unit path)
      [⟨token.index, parameters, body, path⟩] := by
  intro st done fs scope htracks hpath hdistinct
  have hnone : level path.depth (Expr.events (.function token name parameters body) unit path) = [] := by
    -- everything in a function is met deeper
    have hdeeper := (Expr.nests (.function token name parameters body) unit path).deeper
    rw [Expr.functions, flatMap_singleton] at hdeeper
    have hall := filter_eq_self.1 hdeeper
    refine filter_eq_nil_iff.2 fun e he => ?_
    have hlt := of_decide_eq_true (hall e he)
    rw [decide_eq_true_eq]
    omega
  rw [hnone, append_nil]
  refine { htracks with pending := ?_ }
  show List.Forall₂ _ (List.reverse (_ :: st.pending)) _
  rw [reverse_cons]
  exact rel_append htracks.pending (.cons ⟨⟨rfl, rfl, rfl⟩, hpath⟩ .nil)

end Meets

mutual

theorem meets_within (e : Expr) (unit : CodeUnit) (path : Path) :
    Meets globals (within globals unit e) path (e.events unit path) (e.functions unit path) := by
  match e with
  | .number .. | .string .. | .boolean .. | .empty .. => exact .nil
  | .name token => exact .use token
  | .negate _ operand => exact meets_expr operand path
  | .binary _ left right => exact (meets_expr left path).append (meets_expr right path)
  | .define token target value =>
    exact (meets_expr value path).append (meets_target token value target path)
  | .access _ container key => exact (meets_expr container path).append (meets_expr key path)
  | .call _ callee arguments => exact (meets_expr callee path).append (meets_items arguments path)
  | .choose _ subject arms => exact (meets_expr subject path).append (meets_arms arms path)
  | .group token inner => exact .group (meets_items inner (.group token.index unit :: path))
  | .list _ inner => exact meets_items inner path
  | .object _ inner => exact meets_entries inner path
  | .function token name parameters body => exact .function token name parameters body unit

theorem meets_expr (e : Expr) (path : Path) :
    Meets globals (expr globals e) path (e.events path.unit path) (e.functions path.unit path) :=
  (meets_within e path.unit path).congr fun st _ _ scope htracks hpath => by
    rw [expr_eq_within, htracks.unitOf hpath]

theorem meets_target (token : Token) (value goal : Expr) (path : Path) :
    Meets globals (target globals token value goal) path (goal.targetEvents path)
      (goal.targetFunctions path) := by
  match goal with
  | .name name => exact .define name value
  | .access _ container key => exact (meets_expr container path).append (meets_expr key path)
  | .empty place =>
    by_cases hplace : place.lexeme = ("_" : Text)
    · exact Meets.nil.congr fun st _ _ scope _ _ => by rw [target, if_pos hplace]
    · have hreport : (Problem.invalidTarget "()").code ≠ "A001" := by decide
      exact (Meets.report token hreport).congr fun st _ _ scope _ _ => by
        rw [target, if_neg hplace]
  | .number .. | .string .. | .boolean .. | .negate .. | .binary .. | .define ..
  | .call .. | .choose .. | .group .. | .list .. | .object .. | .function .. =>
    exact .report token (by simp [Problem.code])

theorem meets_items (es : List Expr) (path : Path) :
    Meets globals (items globals es) path (Expr.itemEvents es path) (Expr.itemFunctions es path) := by
  match es with
  | [] => exact .nil
  | e :: rest => exact (meets_expr e path).append (meets_items rest path)

theorem meets_arms (cases : List Arm) (path : Path) :
    Meets globals (arms globals cases) path (Expr.armEvents cases path)
      (Expr.armFunctions cases path) := by
  match cases with
  | [] => exact .nil
  | .case token pattern body :: rest =>
    exact ((meets_expr pattern path).append
      ((meets_within body (.arm token.index) path).append (meets_arms rest path))).congr
        fun st _ _ scope _ _ => arms_case token pattern body rest scope
  | .otherwise token body :: rest =>
    exact ((meets_within body (.arm token.index) path).append (meets_arms rest path)).congr
      fun st _ _ scope _ _ => arms_otherwise token body rest scope

theorem meets_entries (es : List Entry) (path : Path) :
    Meets globals (entries globals es) path (Expr.entryEvents es path)
      (Expr.entryFunctions es path) := by
  match es with
  | [] => exact .nil
  | .mk key value :: rest =>
    exact (meets_expr key path).append ((meets_expr value path).append (meets_entries rest path))

end

end Resolve

end Inkwell
