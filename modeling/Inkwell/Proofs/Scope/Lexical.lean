import Mathlib
import Inkwell.Proofs.Expr.Distinct

/-!
# Resolution is lexical

The names of a program refer to what they mean by the rule of lexical scoping (`Script.Scoped`). The
resolution meets the names sorted by depth, so that the declarations a name finds are those that were
met earlier at its own depth and all of those less deep. In the scopes of its own function these are the
declarations before it, and in the scopes around that function all of them.
-/

namespace Inkwell

open List Lexical

open Lexical (Event Path Site Meaning level deeper declarationIn?)

namespace Lexical

/-- The events sorted by depth, of less than `n` functions around them. -/
def byDepth (events : List Event) (n : Nat) : List Event :=
  (List.range n).flatMap fun k => level k events

section ByDepth

variable {events : List Event}

theorem byDepth_succ (n : Nat) : byDepth events (n + 1) = byDepth events n ++ level n events := by
  simp [byDepth, range_succ]

theorem byDepth_perm (n : Nat) :
    (byDepth events n).Perm (events.filter fun e => e.depth < n) := by
  induction n with
  | zero => simp [byDepth]
  | succ n ih =>
    have hbelow : (events.filter fun e => e.depth < n + 1).filter (fun e => e.depth < n) =
        events.filter fun e => e.depth < n := by
      rw [filter_filter]
      exact filter_congr fun e _ => by simp; omega
    have hat : (events.filter fun e => e.depth < n + 1).filter (fun e => !decide (e.depth < n)) =
        level n events := by
      rw [filter_filter, level]
      exact filter_congr fun e _ => by
        rw [← decide_not, ← Bool.decide_and]
        exact decide_eq_decide.2 (by omega)
    have hperm := filter_append_perm (fun e : Event => decide (e.depth < n))
      (events.filter fun e => e.depth < n + 1)
    rw [hbelow, hat] at hperm
    rw [byDepth_succ]
    exact (ih.append_right _).trans hperm

theorem distinct_byDepth (h : Resolve.Distinct events) (n : Nat) :
    Resolve.Distinct (byDepth events n) := by
  have hsublist : ((events.filter fun e => e.depth < n).map Event.index).Sublist
      (events.map Event.index) := (filter_sublist).map _
  exact (((byDepth_perm n).map _).nodup_iff).2 (h.sublist hsublist)

end ByDepth

end Lexical

namespace Resolve

variable {globals : Text → Bool} {st : State} {done : List Event} {fs : List Deferred}

/-! ## Bodies of functions -/

theorem tracks_declareParameters {scope : Nat} {path : Path} (parameters : List Parameter) :
    ∀ {st : State} {done : List Event} (place : Nat), Tracks globals st done fs →
      (openedPaths done)[scope]? = some path →
        Distinct (done ++ Lexical.parameterEvents path place parameters) →
          Tracks globals (declareParameters scope place parameters st)
            (done ++ Lexical.parameterEvents path place parameters) fs := by
  induction parameters with
  | nil =>
    intro st done place h _ _
    rw [Lexical.parameterEvents, append_nil]
    exact h
  | cons p rest ih =>
    intro st done place h hpath hdistinct
    unfold Lexical.parameterEvents at hdistinct ⊢
    unfold declareParameters
    dsimp only at hdistinct ⊢
    split
    · rename_i hname
      rw [if_pos hname] at hdistinct
      exact ih (place + 1) h hpath hdistinct
    · rename_i hname
      rw [if_neg hname] at hdistinct
      have hdeclared := @Tracks.declare globals st done fs h scope
        ⟨p.token, p.name, .parameter place, path⟩ hpath hdistinct.met rfl
      rw [append_cons] at hdistinct ⊢
      exact ih (place + 1) hdeclared (getElem?_openedPaths_append hpath _) hdistinct

/-- The functions that stand directly in the body of a function. -/
def Deferred.functions (f : Deferred) : List Deferred := f.body.functions (.function f.index) f.inner

/-- What is met in a function, less what is met in the functions inside of it. -/
theorem Deferred.level_events (f : Deferred) :
    level (f.path.depth + 1) f.events = .opened f.inner ::
      (Lexical.parameterEvents f.inner 0 f.parameters ++
        level f.inner.depth (f.body.events (.function f.index) f.inner)) := by
  have hdepth : Event.depth (.opened f.inner) = f.path.depth + 1 := rfl
  have hparameters : level (f.path.depth + 1) (Lexical.parameterEvents f.inner 0 f.parameters) = _ :=
    level_eq_self (depth_parameterEvents f.parameters 0)
  rw [Deferred.events, level_cons_of_depth hdepth, level_append, hparameters]
  rfl

theorem Deferred.deeper_events (f : Deferred) :
    deeper (f.path.depth + 1) f.events = f.functions.flatMap Deferred.events := by
  have hparameters : deeper (f.path.depth + 1) (Lexical.parameterEvents f.inner 0 f.parameters) = [] :=
    filter_eq_nil_iff.2 fun e he => by
      have hdepth := depth_parameterEvents f.parameters 0 e he
      have hinner : f.inner.depth = f.path.depth + 1 := rfl
      rw [decide_eq_true_eq]
      omega
  have hbody := (f.body.nests (.function f.index) f.inner).deeper
  unfold deeper at hparameters hbody ⊢
  rw [Deferred.events, filter_cons, if_neg (by simp [Event.depth, Deferred.inner, Path.depth]),
    filter_append, hparameters, nil_append]
  exact hbody

/-- The body of a function is looked at. -/
theorem tracks_body (h : Tracks globals st done fs) {p : Pending} {f : Deferred}
    (hsame : p.index = f.index ∧ p.parameters = f.parameters ∧ p.body = f.body)
    (hscope : (openedPaths done)[p.scope]? = some f.path)
    (hdistinct : Distinct (done ++ level (f.path.depth + 1) f.events)) :
    Tracks globals (body globals p st) (done ++ level (f.path.depth + 1) f.events)
      (fs ++ f.functions) := by
  rw [f.level_events] at hdistinct ⊢
  have hopened := h.openScope hscope (hdistinct.opened (by simp))
  have hinner := h.getElem?_size f.inner
  rw [append_cons, ← append_assoc] at hdistinct ⊢
  have hparameters := tracks_declareParameters f.parameters 0 hopened hinner hdistinct.left
  have hbody := meets_expr f.body f.inner hparameters (getElem?_openedPaths_append hinner _) hdistinct
  unfold body
  rw [hsame.1, hsame.2.1, hsame.2.2]
  exact hbody

/-- The bodies of the functions of one depth are looked at. -/
theorem tracks_bodies {k : Nat} {ps : List Pending} : ∀ {gs : List Deferred} {st : State}
    {done : List Event} {fs : List Deferred}, Tracks globals st done fs →
      List.Forall₂ (fun (p : Pending) (f : Deferred) =>
        (p.index = f.index ∧ p.parameters = f.parameters ∧ p.body = f.body) ∧
          (openedPaths done)[p.scope]? = some f.path) ps gs →
        (∀ f ∈ gs, f.path.depth = k) →
          Distinct (done ++ level (k + 1) (gs.flatMap Deferred.events)) →
            Tracks globals (bodies globals ps st) (done ++ level (k + 1) (gs.flatMap Deferred.events))
              (fs ++ gs.flatMap Deferred.functions) := by
  induction ps with
  | nil =>
    intro gs st done fs h hpending _ _
    cases hpending
    simpa [level, bodies] using h
  | cons p rest ih =>
    intro gs st done fs h hpending hdepth hdistinct
    cases hpending with
    | @cons _ f _ others hp hrest =>
      have hf := hdepth f mem_cons_self
      rw [flatMap_cons, level_append, ← append_assoc] at hdistinct ⊢
      rw [flatMap_cons, ← append_assoc]
      have hbody := tracks_body h hp.1 hp.2 (hf.symm ▸ hdistinct.left)
      rw [hf] at hbody
      refine ih hbody (hrest.imp fun q g hq => ⟨hq.1, getElem?_openedPaths_append hq.2 _⟩)
        (fun g hg => hdepth g (mem_cons_of_mem _ hg)) hdistinct

/-- All functions are looked at, depth by depth. -/
theorem tracks_pendingBodies {events : List Event} (hdistinct : Distinct events) (rounds : Nat) :
    ∀ {st : State} {fs : List Deferred} {k : Nat},
      Tracks globals st (Lexical.byDepth events (k + 1)) fs →
        deeper k events = fs.flatMap Deferred.events → (∀ f ∈ fs, f.path.depth = k) →
          (∀ f ∈ fs, f.body.functionDepth < rounds) →
            ∃ n, Tracks globals (pendingBodies globals rounds st) (Lexical.byDepth events n) [] ∧
              ∀ e ∈ events, e.depth < n := by
  have hfinished : ∀ {st : State} {k : Nat}, Tracks globals st (Lexical.byDepth events (k + 1)) [] →
      deeper k events = [] → ∃ n, Tracks globals st (Lexical.byDepth events n) [] ∧
        ∀ e ∈ events, e.depth < n := by
    intro st k h hdeeper
    refine ⟨k + 1, h, fun e he => ?_⟩
    have hnot := filter_eq_nil_iff.1 hdeeper e he
    rw [decide_eq_true_eq] at hnot
    omega
  induction rounds with
  | zero =>
    intro st fs k h hdeeper _ hrounds
    have hnil : fs = [] := eq_nil_iff_forall_not_mem.2 fun f hf => by
      have := hrounds f hf
      omega
    subst hnil
    exact hfinished h hdeeper
  | succ rounds ih =>
    intro st fs k h hdeeper hdepth hrounds
    unfold pendingBodies
    split
    · rename_i hpending
      have hnil : fs = [] := by
        have hforall := h.pending
        rw [hpending] at hforall
        cases hforall
        rfl
      subst hnil
      exact hfinished h hdeeper
    · have hcleared : Tracks globals { st with pending := [] } (Lexical.byDepth events (k + 1)) [] :=
        { h with pending := .nil }
      have hlevel : level (k + 1) (fs.flatMap Deferred.events) = level (k + 1) events := by
        rw [← hdeeper, level, deeper, filter_filter]
        exact filter_congr fun e _ => by simp; omega
      have hbodies := tracks_bodies hcleared h.pending hdepth (by
        rw [hlevel, ← byDepth_succ]
        exact distinct_byDepth hdistinct _)
      rw [hlevel, ← byDepth_succ, nil_append] at hbodies
      refine ih hbodies ?_ ?_ ?_
      · have hall : deeper (k + 1) events = deeper (k + 1) (fs.flatMap Deferred.events) := by
          rw [← hdeeper]
          unfold deeper
          rw [filter_filter]
          exact filter_congr fun e _ => by simp; omega
        rw [hall, deeper, filter_flatMap, flatMap_assoc]
        refine flatMap_congr fun f hf => ?_
        have hdeeper' := f.deeper_events
        rw [hdepth f hf] at hdeeper'
        exact hdeeper'
      · intro g hg
        obtain ⟨f, hf, hg⟩ := mem_flatMap.1 hg
        rw [(f.body.nests (.function f.index) f.inner).path g hg, ← hdepth f hf]
        rfl
      · intro g hg
        obtain ⟨f, hf, hg⟩ := mem_flatMap.1 hg
        have hlt := (f.body.nests (.function f.index) f.inner).bound g hg
        have := hrounds f hf
        omega

/-- The resolution of a program meets all that a traversal meets, sorted by depth. -/
theorem exists_tracks (globals : Text → Bool) (script : Script) (h : Distinct script.events) :
    ∃ (st : State) (n : Nat), script.resolve globals = (st.resolution, st.problems.reverse) ∧
      Tracks globals st (Lexical.byDepth script.events n) [] ∧ ∀ e ∈ script.events, e.depth < n := by
  have hnests := Expr.nests_items script.items [.program]
  have hlevel : level (Path.depth [.program]) (Expr.itemEvents script.items [.program]) =
      Lexical.byDepth script.events 1 := (append_nil _).symm
  have hroot : (openedPaths [])[0]? = some [.program] := rfl
  have hitems := meets_items script.items [.program] (tracks_start globals) hroot (by
    rw [nil_append, hlevel]
    exact distinct_byDepth h 1)
  rw [nil_append, nil_append, hlevel] at hitems
  obtain ⟨n, htracks, hall⟩ := tracks_pendingBodies h (Expr.functionDepthItems script.items + 1) hitems
    hnests.deeper hnests.path fun f hf => Nat.lt_succ_of_lt (hnests.bound f hf)
  exact ⟨_, n, rfl, htracks, hall⟩

end Resolve

/-! ## What is met before a name -/

namespace Lexical

/-- The sites sorted by depth, of less than `n` functions around them. -/
def sitesByDepth (sites : List Site) (n : Nat) : List Site :=
  (List.range n).flatMap fun k => sites.filter fun s => s.path.depth = k

theorem metSites_byDepth (events : List Event) (n : Nat) :
    Resolve.metSites (byDepth events n) = sitesByDepth (events.filterMap Event.site?) n := by
  unfold Resolve.metSites byDepth sitesByDepth
  rw [filterMap_flatMap]
  refine flatMap_congr fun k _ => ?_
  rw [level, filterMap_filter, filter_filterMap]
  refine filterMap_congr fun e _ => ?_
  cases e with
  | opened path => simp [Event.site?]
  | met site =>
    by_cases hdepth : site.path.depth = k <;> simp [Event.site?, Event.depth, Option.filter, hdepth]

section Before

variable {sites before after : List Site} {u : Site}

theorem sitesByDepth_succ (n : Nat) :
    sitesByDepth sites (n + 1) = sitesByDepth sites n ++ sites.filter fun s => s.path.depth = n := by
  simp [sitesByDepth, range_succ]

theorem filter_sitesByDepth (scope : Path) (n : Nat) :
    (sitesByDepth sites n).filter (fun d => d.path = scope) =
      if scope.depth < n then sites.filter fun d => d.path = scope else [] := by
  induction n with
  | zero => simp [sitesByDepth]
  | succ n ih =>
    have hlast : (sites.filter fun s => s.path.depth = n).filter (fun d => d.path = scope) =
        if scope.depth = n then sites.filter fun d => d.path = scope else [] := by
      rw [filter_filter]
      split
      · rename_i hscope
        refine filter_congr fun d _ => ?_
        by_cases hd : d.path = scope
        · simp [hd, hscope]
        · simp [hd]
      · rename_i hscope
        refine filter_eq_nil_iff.2 fun d _ => ?_
        simp only [Bool.and_eq_true, decide_eq_true_eq, not_and]
        rintro rfl
        exact hscope
    rw [sitesByDepth_succ, filter_append, ih, hlast]
    by_cases hlt : scope.depth < n
    · rw [if_pos hlt, if_neg (by omega), if_pos (by omega), append_nil]
    · rw [if_neg hlt, nil_append]
      exact if_congr (by omega) rfl rfl

/-- What is met before a name when the names are sorted by depth. -/
def earlier (sites before : List Site) (u : Site) : List Site :=
  sitesByDepth sites u.path.depth ++ before.filter fun s => s.path.depth = u.path.depth

theorem sitesByDepth_split (hsplit : sites = before ++ u :: after) {n : Nat} (hn : u.path.depth < n) :
    ∃ later, sitesByDepth sites n = earlier sites before u ++ u :: later := by
  induction n with
  | zero => omega
  | succ n ih =>
    rw [sitesByDepth_succ]
    by_cases hu : u.path.depth = n
    · refine ⟨after.filter fun s => s.path.depth = n, ?_⟩
      rw [earlier, hu, append_assoc]
      refine congrArg _ ?_
      rw [hsplit, filter_append, filter_cons, if_pos (by simpa using hu)]
    · obtain ⟨later, hlater⟩ := ih (by omega)
      exact ⟨_, by rw [hlater, append_assoc, cons_append]⟩

theorem declarationIn?_earlier {scope : Path} (hscope : scope.depth ≤ u.path.depth) (name : Text) :
    declarationIn? (earlier sites before u) scope name =
      declarationIn? (if scope.depth = u.path.depth then before else sites) scope name := by
  apply declarationIn?_congr
  have hsame : (before.filter fun s => s.path.depth = u.path.depth).filter (fun d => d.path = scope) =
      if scope.depth = u.path.depth then before.filter fun d => d.path = scope else [] := by
    have hsame := @filter_sitesByDepth before scope (u.path.depth + 1)
    rw [sitesByDepth_succ, filter_append, filter_sitesByDepth] at hsame
    by_cases hlt : scope.depth < u.path.depth
    · rw [if_pos hlt, if_pos (by omega)] at hsame
      rw [if_neg (by omega)]
      exact append_cancel_left (hsame.trans (append_nil _).symm)
    · rw [if_neg hlt, nil_append, if_pos (by omega)] at hsame
      rw [if_pos (by omega), hsame]
  rw [earlier, filter_append, filter_sitesByDepth, hsame]
  by_cases hlt : scope.depth < u.path.depth
  · rw [if_pos hlt, if_neg (by omega), if_neg (by omega), append_nil]
  · rw [if_neg hlt, if_pos (by omega), if_pos (by omega), nil_append]

theorem depth_le_of_mem_scopes {scope path : Path} (h : scope ∈ path.scopes) :
    scope.depth ≤ path.depth := by
  induction path with
  | nil => cases h
  | cons opening outer ih =>
    rcases mem_cons.1 h with rfl | h
    · exact Nat.le_refl _
    · refine Nat.le_trans (ih h) ?_
      cases opening <;> simp [Path.depth]

/-- The names met before a name when they are sorted by depth give it the meaning of lexical
scoping. -/
theorem meaning_earlier (globals : Text → Bool) :
    u.meaning globals (earlier sites before u) (earlier sites before u) =
      u.meaning globals before sites := by
  have htarget : declarationIn? (earlier sites before u) u.path u.name =
      declarationIn? before u.path u.name := by
    rw [declarationIn?_earlier (Nat.le_refl _), if_pos rfl]
  have hvisible : u.visible? (earlier sites before u) (earlier sites before u) =
      u.visible? before sites := by
    have hscopes : ∀ scopes : List Path, (∀ scope ∈ scopes, scope.depth ≤ u.path.depth) →
        (scopes.findSome? fun scope => declarationIn? (earlier sites before u) scope u.name) =
          scopes.findSome? fun scope =>
            declarationIn? (if scope.depth = u.path.depth then before else sites) scope u.name := by
      intro scopes
      induction scopes with
      | nil => exact fun _ => rfl
      | cons scope rest ih =>
        intro hle
        rw [findSome?_cons, findSome?_cons,
          declarationIn?_earlier (hle scope mem_cons_self),
          ih fun other hother => hle other (mem_cons_of_mem _ hother)]
    simp only [Site.visible?, ite_self]
    exact hscopes _ fun scope hscope => depth_le_of_mem_scopes hscope
  unfold Site.meaning
  rw [htarget, hvisible]

end Before

end Lexical

/-! ## The main statement -/

/-- The names of a program refer to what they mean. Every declaration has a binding of its own, held by
the unit of its scope, and every name that means nothing has one problem. -/
structure Script.Scoped (globals : Text → Bool) (script : Script) (r : Resolution)
    (problems : List Diagnostic) : Prop where
  refers : ∀ before u after, script.sites = before ++ u :: after →
    r.Refers u (u.meaning globals before script.sites)
  only : ∀ index reference, r.references[index]? = some reference →
    ∃ u ∈ script.sites, u.token.index = index
  bindings : ∃ declared : List Site, declared.Nodup ∧ (∀ d ∈ declared, d ∈ script.sites) ∧
    (∀ before u after, script.sites = before ++ u :: after →
      (u ∈ declared ↔ u.meaning globals before script.sites = .declared u)) ∧
    Resolve.Numbered r declared
  undefined : ∃ undefined : List Site, undefined.Nodup ∧ (∀ u ∈ undefined, u ∈ script.sites) ∧
    (∀ before u after, script.sites = before ++ u :: after →
      (u ∈ undefined ↔ u.meaning globals before script.sites = .undefined)) ∧
    problems.filter Diagnostic.isUndefinedName = undefined.map Site.problem

/-- The resolution of a program whose names and scopes are told apart by their tokens is lexical. -/
theorem Script.scoped_resolve (globals : Text → Bool) (script : Script)
    (h : Resolve.Distinct script.events) :
    script.Scoped globals (script.resolve globals).1 (script.resolve globals).2 := by
  obtain ⟨st, n, hresolve, htracks, hall⟩ := Resolve.exists_tracks globals script h
  rw [hresolve]
  have hmet := metSites_byDepth script.events n
  have hdepth : ∀ u ∈ script.sites, u.path.depth < n := by
    intro u hu
    obtain ⟨e, he, hsite⟩ := mem_filterMap.1 hu
    cases e with
    | opened path => cases hsite
    | met site =>
      cases hsite
      exact hall _ he
  -- sorting by depth neither adds nor loses a name
  have hsplit : ∀ before u after, script.sites = before ++ u :: after → ∃ later,
      Resolve.metSites (Lexical.byDepth script.events n) =
        Lexical.earlier script.sites before u ++ u :: later := by
    intro before u after hsites
    rw [hmet]
    exact sitesByDepth_split hsites (hdepth u (by simp [hsites]))
  have hmem : ∀ u ∈ Resolve.metSites (Lexical.byDepth script.events n), u ∈ script.sites := by
    intro u hu
    rw [hmet] at hu
    obtain ⟨k, -, hu⟩ := mem_flatMap.1 hu
    exact mem_of_mem_filter hu
  have hnodup : (Resolve.metSites (Lexical.byDepth script.events n)).Nodup := by
    refine (List.Nodup.of_map _ (distinct_byDepth h n)).filterMap fun e e' u hu hu' => ?_
    cases e <;> cases e' <;> simp_all [Event.site?]
  have hmarks : ∀ {m : Site → Meaning} {marked : List Site},
      Resolve.Marks (fun before u => u.meaning globals before before = m u)
        (Resolve.metSites (Lexical.byDepth script.events n)) marked →
      marked.Nodup ∧ (∀ d ∈ marked, d ∈ script.sites) ∧
        ∀ before u after, script.sites = before ++ u :: after →
          (u ∈ marked ↔ u.meaning globals before script.sites = m u) := by
    intro m marked hmarked
    refine ⟨hnodup.sublist hmarked.sublist, fun d hd => hmem d (hmarked.sublist.subset hd), ?_⟩
    intro before u after hsites
    obtain ⟨later, hlater⟩ := hsplit before u after hsites
    rw [hmarked.mem _ u later hlater, meaning_earlier]
  refine ⟨?_, ?_, ?_, ?_⟩
  · intro before u after hsites
    obtain ⟨later, hlater⟩ := hsplit before u after hsites
    have hrefers := htracks.refers _ u later hlater
    rwa [meaning_earlier] at hrefers
  · intro index reference hreference
    obtain ⟨u, hu, hindex⟩ := htracks.only index reference hreference
    exact ⟨u, hmem u hu, hindex⟩
  · obtain ⟨declared, hnumbered, hdeclared⟩ := htracks.numbered
    obtain ⟨hnodup', hsubset, hiff⟩ := hmarks hdeclared
    exact ⟨declared, hnodup', hsubset, hiff, hnumbered⟩
  · obtain ⟨undefined, hproblems, hundefined⟩ := htracks.unresolved
    obtain ⟨hnodup', hsubset, hiff⟩ := hmarks hundefined
    refine ⟨undefined, hnodup', hsubset, hiff, ?_⟩
    rw [← hproblems]
    exact filter_reverse ..

/-- The names of every program that was parsed refer to what they mean by lexical scoping. -/
theorem Script.scoped_resolve_parse (globals : Text → Bool) (file : Text) (tokens : List Token) :
    (Script.parse file tokens).1.Scoped globals ((Script.parse file tokens).1.resolve globals).1
      ((Script.parse file tokens).1.resolve globals).2 :=
  Script.scoped_resolve globals _ (Script.distinct_parse file tokens)

/-- The tokens of `x := 1, (x) := 2`. -/
def refusedTarget : List Token :=
  [{ kind := .name, lexeme := "x" }, { kind := .define, lexeme := ":=" },
    { kind := .number, lexeme := "1" }, { kind := .separator, lexeme := "," },
    { kind := .openParen, lexeme := "(" }, { kind := .name, lexeme := "x" },
    { kind := .closeParen, lexeme := ")" }, { kind := .define, lexeme := ":=" },
    { kind := .number, lexeme := "2" }, { kind := .finish }]

/-- A name in a target that cannot be assigned to refers to nothing and is not reported, although it
is declared before it in a scope around it. -/
theorem Script.refusedTarget_unbound :
    ((Script.parse "" refusedTarget).1.items.map fun e => match e with
      | .define _ (.name token) _ => some (token.index, token.lexeme)
      | .define _ (.group _ [.name token]) _ => some (token.index, token.lexeme)
      | _ => none) = [some (0, ("x" : Text)), some (5, ("x" : Text))] ∧
    ((Script.parse "" refusedTarget).1.resolve fun _ => false).1.references[0]? =
      some (.binding 0) ∧
    ((Script.parse "" refusedTarget).1.resolve fun _ => false).1.references[5]? = none ∧
    (((Script.parse "" refusedTarget).1.resolve fun _ => false).2.filter
      Diagnostic.isUndefinedName).length = 0 := by
  refine ⟨by decide +kernel, ?_, ?_, ?_⟩
  · cbv
  · cbv
  · cbv

end Inkwell
