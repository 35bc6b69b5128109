import Mathlib.Data.List.Nodup
import Inkwell.Proofs.Scope.Sites

/-!
# What names refer to, one name after the other

The state of the resolution after some events of a traversal (`Tracks`): the scopes that have been
opened are in the list of scopes, each with the declarations met in it, every name met refers to what
it means given the names met before it, and every declaration has a binding of its own. Each step of
the resolution takes the state along with one more event.
-/

namespace Inkwell

open List Option Lexical

open Lexical (Event Path Site Meaning declarationIn?)

variable {globals : Text → Bool}

namespace Lexical

variable {all here : List Site} {u : Site}

/-! ## Declarations -/

theorem declaring?_some {d : Site} (h : declaring? here = some d) :
    d ∈ here ∧ d.role ≠ .use := by
  rcases or_eq_some_iff.1 h with h | ⟨-, h⟩
  · have hmem := mem_filter.1 (mem_of_getLast? h)
    refine ⟨hmem.1, fun hrole => ?_⟩
    simp [Site.parameter?, hrole] at hmem
  · have hrole := find?_some h
    rw [decide_eq_true_eq] at hrole
    exact ⟨mem_of_find?_eq_some h, by rw [hrole]; decide⟩

theorem declaring?_append_use (h : u.role = .use) :
    declaring? (here ++ [u]) = declaring? here := by
  simp [declaring?, Site.parameter?, h]

/-- The last parameter counts. -/
theorem declaring?_append_parameter {place : Nat} (h : u.role = .parameter place) :
    declaring? (here ++ [u]) = some u := by
  simp [declaring?, Site.parameter?, h]

/-- The first target counts, unless there is a parameter. -/
theorem declaring?_append_target (h : u.role = .target) :
    declaring? (here ++ [u]) = some ((declaring? here).getD u) := by
  have hparameters : ([u].filter fun d => d.parameter?.isSome) = [] := by simp [Site.parameter?, h]
  unfold declaring?
  rw [filter_append, hparameters, append_nil, find?_append]
  cases (here.filter fun d => d.parameter?.isSome).getLast? with
  | some d => rfl
  | none =>
    cases here.find? fun d => d.role = .target with
    | some d => rfl
    | none => simp [h]

section Append

variable {sites : List Site} {u d : Site} {path : Path} {name : Text}

theorem declarationIn?_some (h : declarationIn? sites path name = some d) :
    d ∈ sites ∧ d.path = path ∧ d.name = name ∧ d.role ≠ .use := by
  obtain ⟨hmem, hrole⟩ := declaring?_some h
  obtain ⟨hd, hhere⟩ := mem_filter.1 hmem
  rw [decide_eq_true_eq] at hhere
  exact ⟨hd, hhere.1, hhere.2, hrole⟩

/-- The declarations of a scope depend on the names in this scope only. -/
theorem declarationIn?_congr {others : List Site}
    (h : sites.filter (fun d => d.path = path) = others.filter fun d => d.path = path) :
    declarationIn? sites path name = declarationIn? others path name := by
  have hsplit : ∀ l : List Site, (l.filter fun d => d.path = path ∧ d.name = name) =
      (l.filter fun d => d.path = path).filter fun d => d.name = name := by
    intro l
    rw [List.filter_filter]
    exact filter_congr fun d _ => by simp [and_comm]
  unfold declarationIn?
  rw [hsplit, hsplit, h]

theorem declarationIn?_append_self :
    declarationIn? (sites ++ [u]) u.path u.name =
      declaring? ((sites.filter fun d => d.path = u.path ∧ d.name = u.name) ++ [u]) := by
  simp [declarationIn?]

/-- A name elsewhere changes no declaration. -/
theorem declarationIn?_append_of_ne (h : ¬ (u.path = path ∧ u.name = name)) :
    declarationIn? (sites ++ [u]) path name = declarationIn? sites path name := by
  have hnone : ([u].filter fun d => d.path = path ∧ d.name = name) = [] := by simpa using h
  rw [declarationIn?, filter_append, hnone, append_nil]
  rfl

end Append

/-- A name that is the last one met declares itself only if it is a parameter or a target. -/
theorem role_of_meaning_self {before : List Site} (h : u.meaning globals before all = .declared u) :
    u.role ≠ .use := by
  intro hrole
  unfold Site.meaning at h
  rw [hrole] at h
  dsimp only at h
  split at h
  · rename_i d hd
    cases h
    obtain ⟨scope, -, hscope⟩ := exists_of_findSome?_eq_some hd
    exact (declarationIn?_some hscope).2.2.2 hrole
  · split at h <;> cases h

/-- A name that does not declare itself changes no declaration. -/
theorem declarationIn?_append_of_meaning {sites : List Site}
    (h : u.meaning globals sites all ≠ .declared u) (path : Path) (name : Text) :
    declarationIn? (sites ++ [u]) path name = declarationIn? sites path name := by
  by_cases hhere : u.path = path ∧ u.name = name
  · obtain ⟨rfl, rfl⟩ := hhere
    cases hrole : u.role with
    | use => rw [declarationIn?_append_self, declaring?_append_use hrole]; rfl
    | parameter place => exact absurd (by simp [Site.meaning, hrole]) h
    | target =>
      rw [declarationIn?_append_self, declaring?_append_target hrole]
      show some ((declarationIn? sites u.path u.name).getD u) = _
      cases hd : declarationIn? sites u.path u.name with
      | some d => rfl
      | none => exact absurd (by simp [Site.meaning, hrole, hd]) h
  · exact declarationIn?_append_of_ne hhere

/-- A name that declares itself is the declaration from then on. -/
theorem declarationIn?_append_of_meaning_self {sites : List Site}
    (h : u.meaning globals sites all = .declared u) :
    declarationIn? (sites ++ [u]) u.path u.name = some u := by
  rw [declarationIn?_append_self]
  cases hrole : u.role with
  | use => exact absurd hrole (role_of_meaning_self h)
  | parameter place => exact declaring?_append_parameter hrole
  | target =>
    rw [declaring?_append_target hrole]
    simp only [Site.meaning, hrole, Meaning.declared.injEq] at h
    exact congrArg some h

theorem mem_of_meaning_declared {before : List Site} {d : Site}
    (h : u.meaning globals before before = .declared d) : d = u ∨ d ∈ before := by
  unfold Site.meaning at h
  split at h
  · cases h
    exact .inl rfl
  · cases hd : declarationIn? before u.path u.name with
    | none =>
      rw [hd] at h
      cases h
      exact .inl rfl
    | some found =>
      rw [hd] at h
      cases h
      exact .inr (declarationIn?_some hd).1
  · split at h
    · rename_i found hfound
      cases h
      obtain ⟨scope, -, hscope⟩ := exists_of_findSome?_eq_some hfound
      rw [ite_self] at hscope
      exact .inr (declarationIn?_some hscope).1
    · split at h <;> cases h

/-- Everything but a mere use of a name means a declaration. -/
theorem exists_meaning_declared {globals : Text → Bool} {before all : List Site} {u : Site}
    (h : u.role ≠ .use) : ∃ d, u.meaning globals before all = .declared d := by
  unfold Site.meaning
  split
  · exact ⟨_, rfl⟩
  · exact ⟨_, rfl⟩
  · exact absurd ‹_› h

end Lexical

namespace Resolution

/-- The binding that a site refers to. -/
def place? (r : Resolution) (s : Site) : Option Nat :=
  match r.reference? s.token with
  | some (.binding place) => some place
  | _ => none

/-- A name refers to what it means. -/
def Refers (r : Resolution) (u : Site) : Meaning → Prop
  | .declared d => ∃ place, r.reference? u.token = some (.binding place) ∧
      r.reference? d.token = some (.binding place)
  | .global => r.reference? u.token = some .global
  | .undefined => r.reference? u.token = none

variable {r r' : Resolution}

theorem Refers.congr {u : Site} {m : Meaning} (h : r.Refers u m)
    (hu : r'.reference? u.token = r.reference? u.token)
    (hd : ∀ d, m = .declared d → r'.reference? d.token = r.reference? d.token) : r'.Refers u m := by
  cases m with
  | declared d =>
    obtain ⟨place, hplace, hdeclared⟩ := h
    exact ⟨place, hu.trans hplace, (hd d rfl).trans hdeclared⟩
  | global => exact hu.trans h
  | undefined => exact hu.trans h

theorem place?_congr {s : Site} (h : r'.reference? s.token = r.reference? s.token) :
    r'.place? s = r.place? s := by
  rw [place?, place?, h]

end Resolution

/-- A binding is what is declared at a site. -/
structure Binding.DeclaredAt (b : Binding) (d : Site) : Prop where
  name : b.name = d.name
  owner : b.owner = d.path.unit
  parameter : b.parameter = d.parameter?

/-- The problem of a name that means nothing. -/
def Lexical.Site.problem (u : Site) : Diagnostic :=
  { problem := .undefinedName u.name, position := u.token.position }

/-- Whether a problem is that of a name that means nothing. -/
def Diagnostic.isUndefinedName (d : Diagnostic) : Bool := d.problem.code = "A001"

namespace Resolve

/-- A function whose body is still to be traversed. -/
structure Deferred where
  index : Nat
  parameters : List Parameter
  body : Expr
  path : Path

namespace Deferred

/-- The scope of the parameters. -/
def inner (f : Deferred) : Path := .function f.index :: f.path

/-- What a traversal of the function meets. -/
def events (f : Deferred) : List Event :=
  .opened f.inner ::
    (Lexical.parameterEvents f.inner 0 f.parameters ++ f.body.events (.function f.index) f.inner)

end Deferred

/-- The scopes that have been opened. -/
def openedPaths (done : List Event) : List Path := [.program] :: done.filterMap Event.path?

/-- The names that have been met. -/
def metSites (done : List Event) : List Site := done.filterMap Event.site?

/-- What a name means, given the names met before it. -/
abbrev meant (globals : Text → Bool) (done : List Event) (u : Site) : Meaning :=
  u.meaning globals (metSites done) (metSites done)

section Lists

variable {done : List Event} {path : Path} {u : Site}

@[simp] theorem openedPaths_met : openedPaths (done ++ [.met u]) = openedPaths done := by
  simp [openedPaths, Event.path?]

@[simp] theorem openedPaths_opened :
    openedPaths (done ++ [.opened path]) = openedPaths done ++ [path] := by
  simp [openedPaths, Event.path?]

@[simp] theorem metSites_met : metSites (done ++ [.met u]) = metSites done ++ [u] := by
  simp [metSites, Event.site?]

@[simp] theorem metSites_opened : metSites (done ++ [.opened path]) = metSites done := by
  simp [metSites, Event.site?]

end Lists

/-- A scope in the list of scopes is the one with the given path: its names are those declared in it,
and the scope around it stands before it. -/
structure Scope.Holds (s : Scope) (r : Resolution) (done : List Event) (i : Nat) (path : Path) :
    Prop where
  unit : s.unit = path.unit
  parent : match s.parent with
    | none => path.tail = []
    | some j => j < i ∧ (openedPaths done)[j]? = some path.tail
  names : ∀ name, s.names[name]? = (declarationIn? (metSites done) path name).bind r.place?

/-- The sites of a list that have a property, given those before them. -/
structure Marks (P : List Site → Site → Prop) (sites marked : List Site) : Prop where
  mem : ∀ before u after, sites = before ++ u :: after → (u ∈ marked ↔ P before u)
  sublist : marked.Sublist sites

/-- Every declaration has a binding of its own, and there are no others. -/
structure Numbered (r : Resolution) (declared : List Site) : Prop where
  length : declared.length = r.bindings.size
  binding : ∀ (i : Nat) (d : Site), declared[i]? = some d → r.reference? d.token = some (.binding i) ∧
    ∃ b, r.bindings[i]? = some b ∧ b.DeclaredAt d

/-- The state after some events of a traversal, with functions whose bodies are still to be
traversed. -/
structure Tracks (globals : Text → Bool) (st : State) (done : List Event) (fs : List Deferred) :
    Prop where
  size : st.scopes.size = (openedPaths done).length
  scope : ∀ (i : Nat) (path : Path), (openedPaths done)[i]? = some path →
    ∃ s, st.scopes[i]? = some s ∧ s.Holds st.resolution done i path
  nonempty : ∀ path ∈ openedPaths done, path ≠ []
  nodup : (openedPaths done).Nodup
  within : ∀ u ∈ metSites done, u.path ∈ openedPaths done
  refers : ∀ before u after, metSites done = before ++ u :: after →
    st.resolution.Refers u (u.meaning globals before before)
  only : ∀ index reference, st.resolution.references[index]? = some reference →
    ∃ u ∈ metSites done, u.token.index = index
  numbered : ∃ declared, Numbered st.resolution declared ∧
    Marks (fun before u => u.meaning globals before before = .declared u) (metSites done) declared
  unresolved : ∃ undefined,
    (st.problems.filter Diagnostic.isUndefinedName).reverse = undefined.map Site.problem ∧
      Marks (fun before u => u.meaning globals before before = .undefined) (metSites done) undefined
  pending : List.Forall₂ (fun (p : Pending) (f : Deferred) =>
    (p.index = f.index ∧ p.parameters = f.parameters ∧ p.body = f.body) ∧
      (openedPaths done)[p.scope]? = some f.path) st.pending.reverse fs

/-- Nothing has been met before the traversal. -/
theorem tracks_start (globals : Text → Bool) :
    Tracks globals (({} : State).openScope none .program) [] [] where
  size := rfl
  scope := by
    intro i path hpath
    obtain ⟨rfl, rfl⟩ : i = 0 ∧ path = [.program] := by
      cases i with
      | zero => exact ⟨rfl, (Option.some.inj hpath).symm⟩
      | succ i => simp [openedPaths] at hpath
    exact ⟨_, rfl, rfl, rfl, fun name => Std.HashMap.getElem?_empty⟩
  nonempty := by simp [openedPaths]
  nodup := by simp [openedPaths]
  within := by simp [metSites]
  refers := by simp [metSites]
  only := by
    intro index reference h
    have hnone : (({} : Std.HashMap Nat Reference)[index]?) = none := Std.HashMap.getElem?_empty
    exact absurd (hnone.symm.trans h) (by simp)
  numbered := ⟨[], ⟨rfl, by simp⟩, by simp [metSites], nil_sublist _⟩
  unresolved := ⟨[], rfl, by simp [metSites], nil_sublist _⟩
  pending := .nil

/-- Where a list with one more element can be split. -/
theorem split_append {α : Type} {l before after : List α} {x y : α}
    (h : l ++ [x] = before ++ y :: after) :
    (l = before ∧ x = y) ∨ ∃ rest, l = before ++ y :: rest := by
  rcases eq_nil_or_concat after with rfl | ⟨rest, last, rfl⟩
  · have hsame := append_inj' h rfl
    exact .inl ⟨hsame.1, (List.cons.inj hsame.2).1⟩
  · rw [concat_eq_append, ← cons_append, ← append_assoc] at h
    exact .inr ⟨rest, (append_inj' h rfl).1⟩

theorem Marks.append {P : List Site → Site → Prop} {sites marked : List Site} {u : Site}
    [Decidable (P sites u)] (h : Marks P sites marked) (hnew : u ∉ sites) :
    Marks P (sites ++ [u]) (if P sites u then marked ++ [u] else marked) where
  mem := by
    intro before d after hsplit
    rcases split_append hsplit with ⟨rfl, rfl⟩ | ⟨rest, hsplit⟩
    · have hnot : u ∉ marked := fun hmem => hnew (h.sublist.subset hmem)
      split
      · rename_i hu
        simp [hu]
      · rename_i hu
        simp [hu, hnot]
    · have hne : d ≠ u := fun hdu => hnew (by simp [hsplit, hdu])
      rw [← h.mem before d rest hsplit]
      split <;> simp [hne]
  sublist := by
    split
    · exact h.sublist.append (List.Sublist.refl _)
    · exact h.sublist.trans (sublist_append_left _ _)

/-- The names of a scope when one more name has been met. -/
theorem names_append {r r' : Resolution} {sites : List Site} {u : Site}
    (hold : ∀ d ∈ sites, r'.reference? d.token = r.reference? d.token) (path : Path) (name : Text) :
    (declarationIn? (sites ++ [u]) path name).bind r'.place? =
      if u.meaning globals sites sites = .declared u ∧ path = u.path ∧ name = u.name
        then r'.place? u else (declarationIn? sites path name).bind r.place? := by
  split
  · rename_i hself
    obtain ⟨hmeaning, rfl, rfl⟩ := hself
    rw [declarationIn?_append_of_meaning_self hmeaning, bind_some]
  · rename_i hother
    have hsame : declarationIn? (sites ++ [u]) path name = declarationIn? sites path name := by
      by_cases hmeaning : u.meaning globals sites sites = .declared u
      · exact declarationIn?_append_of_ne fun hhere =>
          hother ⟨hmeaning, hhere.1.symm, hhere.2.symm⟩
      · exact declarationIn?_append_of_meaning hmeaning path name
    rw [hsame]
    cases hd : declarationIn? sites path name with
    | none => rfl
    | some d => exact Resolution.place?_congr (hold d (declarationIn?_some hd).1)

namespace Tracks

variable {globals : Text → Bool} {st : State} {done : List Event} {fs : List Deferred}
variable (h : Tracks globals st done fs)

include h

theorem exists_reference {d : Site} (hd : d ∈ metSites done)
    (hrole : d.role ≠ .use) : ∃ place, st.resolution.reference? d.token = some (.binding place) := by
  obtain ⟨before, after, hsplit⟩ := append_of_mem hd
  obtain ⟨target, hmeaning⟩ := @Lexical.exists_meaning_declared globals before before d hrole
  have hrefers := h.refers before d after hsplit
  rw [hmeaning] at hrefers
  obtain ⟨place, hplace, -⟩ := hrefers
  exact ⟨place, hplace⟩

/-- Looking for a name from a scope outward finds the declaration in the innermost scope that has
one. -/
theorem lookup?_eq (name : Text) (rounds : Nat) :
    ∀ (i : Nat) (path : Path), (openedPaths done)[i]? = some path → i < rounds →
      st.lookup? name rounds i =
        (path.scopes.findSome? fun scope => declarationIn? (metSites done) scope name).bind
          st.resolution.place? := by
  induction rounds with
  | zero => exact fun i _ _ hi => absurd hi (Nat.not_lt_zero i)
  | succ rounds ih =>
    intro i path hpath hi
    obtain ⟨s, hs, hholds⟩ := h.scope i path hpath
    obtain ⟨opening, outer, rfl⟩ :=
      exists_cons_of_ne_nil (h.nonempty path (mem_of_getElem? hpath))
    have hnames := hholds.names name
    have hparent := hholds.parent
    rw [State.lookup?, hs, Path.scopes, findSome?_cons]
    dsimp only
    rw [hnames]
    cases hd : declarationIn? (metSites done) (opening :: outer) name with
    | some d =>
      obtain ⟨hmem, -, -, hrole⟩ := declarationIn?_some hd
      obtain ⟨place, hplace⟩ := h.exists_reference hmem hrole
      simp [Resolution.place?, hplace]
    | none =>
      show s.parent.bind _ = _
      cases hp : s.parent with
      | none =>
        rw [hp] at hparent
        obtain rfl : outer = [] := hparent
        rfl
      | some j =>
        rw [hp] at hparent
        exact ih j outer hparent.2 (by omega)

section Meeting

variable {st' : State} {u : Site}
  (hfresh : ∀ d ∈ metSites done, d.token.index ≠ u.token.index) (hpath : u.path ∈ openedPaths done)
  (hpending : st'.pending = st.pending)
  (hreferences : ∀ index, index ≠ u.token.index →
    st'.resolution.references[index]? = st.resolution.references[index]?)
  (hrefers : st'.resolution.Refers u (meant globals done u))
  (hproblems : st'.problems.filter Diagnostic.isUndefinedName =
    if meant globals done u = .undefined
      then u.problem :: st.problems.filter Diagnostic.isUndefinedName
      else st.problems.filter Diagnostic.isUndefinedName)

include hfresh hpath hpending hreferences hrefers hproblems

/-- A name is looked at. What it refers to is entered; if it declares itself it is entered in its
scope, too. -/
theorem meet (hsize : st'.scopes.size = st.scopes.size)
    (hscope : ∀ (i : Nat) (path : Path) (s : Scope), (openedPaths done)[i]? = some path →
      st.scopes[i]? = some s → ∃ s', st'.scopes[i]? = some s' ∧ s'.unit = s.unit ∧
        s'.parent = s.parent ∧ ∀ name, s'.names[name]? =
          if meant globals done u = .declared u ∧ path = u.path ∧ name = u.name
            then st'.resolution.place? u else s.names[name]?)
    (hnumbered : ∀ declared, Numbered st.resolution declared → Numbered st'.resolution
      (if meant globals done u = .declared u then declared ++ [u] else declared)) :
    Tracks globals st' (done ++ [.met u]) fs := by
  have hold : ∀ d ∈ metSites done, st'.resolution.reference? d.token = st.resolution.reference? d.token :=
    fun d hd => hreferences _ (hfresh d hd)
  have hnew : u ∉ metSites done := fun hmem => hfresh u hmem rfl
  refine ⟨by rw [openedPaths_met, hsize, h.size], ?_, by rw [openedPaths_met]; exact h.nonempty,
    by rw [openedPaths_met]; exact h.nodup, ?_, ?_, ?_, ?_, ?_, ?_⟩
  · intro i path hi
    rw [openedPaths_met] at hi
    obtain ⟨s, hs, hholds⟩ := h.scope i path hi
    obtain ⟨s', hs', hunit, hparent, hnames⟩ := hscope i path s hi hs
    refine ⟨s', hs', hunit.trans hholds.unit, ?_, fun name => ?_⟩
    · rw [hparent, openedPaths_met]
      exact hholds.parent
    · rw [hnames name, metSites_met, names_append hold, hholds.names name]
  · intro d hd
    rw [openedPaths_met]
    rw [metSites_met, mem_append, mem_singleton] at hd
    rcases hd with hd | rfl
    · exact h.within d hd
    · exact hpath
  · intro before d after hsplit
    rw [metSites_met] at hsplit
    rcases split_append hsplit with ⟨rfl, rfl⟩ | ⟨rest, hsplit⟩
    · exact hrefers
    · have hmem : d ∈ metSites done := by simp [hsplit]
      refine (h.refers before d rest hsplit).congr (hold d hmem) fun target htarget => ?_
      rcases mem_of_meaning_declared htarget with rfl | hbefore
      · exact hold _ hmem
      · exact hold _ (by simp [hsplit, hbefore])
  · intro index reference hreference
    rw [metSites_met]
    by_cases hindex : index = u.token.index
    · exact ⟨u, by simp, hindex.symm⟩
    · rw [hreferences index hindex] at hreference
      obtain ⟨d, hd, hdindex⟩ := h.only index reference hreference
      exact ⟨d, mem_append_left _ hd, hdindex⟩
  · obtain ⟨declared, hdeclared, hmarks⟩ := h.numbered
    rw [metSites_met]
    exact ⟨_, hnumbered declared hdeclared, hmarks.append hnew⟩
  · obtain ⟨undefined, hundefined, hmarks⟩ := h.unresolved
    rw [metSites_met]
    refine ⟨_, ?_, hmarks.append hnew⟩
    rw [hproblems]
    split
    · rw [reverse_cons, hundefined, map_append]
      rfl
    · exact hundefined
  · rw [hpending, openedPaths_met]
    exact h.pending

/-- A name that does not declare itself is looked at. -/
theorem meet_known (hself : meant globals done u ≠ .declared u) (hscopes : st'.scopes = st.scopes)
    (hbindings : st'.resolution.bindings = st.resolution.bindings) :
    Tracks globals st' (done ++ [.met u]) fs := by
  refine h.meet hfresh hpath hpending hreferences hrefers hproblems (by rw [hscopes]) ?_ ?_
  · intro i path s _ hs
    refine ⟨s, by rw [hscopes, hs], rfl, rfl, fun name => ?_⟩
    rw [if_neg fun hu => hself hu.1]
  · intro declared hdeclared
    rw [if_neg hself]
    refine ⟨by rw [hbindings, hdeclared.length], fun i d hd => ?_⟩
    obtain ⟨hreference, hbinding⟩ := hdeclared.binding i d hd
    have hne : d.token.index ≠ u.token.index := by
      obtain ⟨v, hv, hindex⟩ := h.only _ _ hreference
      exact hindex ▸ hfresh v hv
    rw [hbindings]
    exact ⟨(hreferences _ hne).trans hreference, hbinding⟩

end Meeting

/-- A scope is opened. -/
theorem openScope {scope : Nat} {path : Path} {opening : Lexical.Opening}
    (hpath : (openedPaths done)[scope]? = some path) (hnew : opening :: path ∉ openedPaths done) :
    Tracks globals (st.openScope (some scope) (Path.unit (opening :: path)))
      (done ++ [.opened (opening :: path)]) fs := by
  have hlt : scope < (openedPaths done).length := (List.getElem?_eq_some_iff.1 hpath).1
  have hstay : ∀ (j : Nat) (outer : Path), (openedPaths done)[j]? = some outer →
      (openedPaths (done ++ [.opened (opening :: path)]))[j]? = some outer := by
    intro j outer hj
    rw [openedPaths_opened, List.getElem?_append_left (List.getElem?_eq_some_iff.1 hj).1, hj]
  refine ⟨?_, ?_, ?_, ?_, ?_, ?_, ?_, ?_, ?_, ?_⟩
  · rw [openedPaths_opened, length_append, ← h.size]
    exact Array.size_push _
  · intro i other hi
    rcases Nat.lt_or_ge i (openedPaths done).length with hlt' | hge
    · rw [openedPaths_opened, getElem?_append_left hlt'] at hi
      obtain ⟨s, hs, hholds⟩ := h.scope i other hi
      refine ⟨s, ?_, hholds.unit, ?_, ?_⟩
      · show (st.scopes.push _)[i]? = some s
        rw [Array.getElem?_push, if_neg (by have := h.size; omega), hs]
      · have hparent := hholds.parent
        cases hp : s.parent with
        | none => rwa [hp] at hparent
        | some j =>
          rw [hp] at hparent
          exact ⟨hparent.1, hstay j _ hparent.2⟩
      · rw [metSites_opened]
        exact hholds.names
    · -- the new scope has no names: no name was met in it
      have hlast := (List.getElem?_eq_some_iff.1 hi).1
      rw [openedPaths_opened, length_append, length_singleton] at hlast
      obtain rfl : i = (openedPaths done).length := by omega
      rw [openedPaths_opened, getElem?_append_right (Nat.le_refl _), Nat.sub_self] at hi
      cases hi
      refine ⟨{ parent := some scope, unit := Path.unit (opening :: path) }, ?_, rfl,
        ⟨hlt, hstay scope path hpath⟩, fun name => ?_⟩
      · show (st.scopes.push _)[_]? = _
        rw [Array.getElem?_push, if_pos h.size.symm]
      · rw [metSites_opened]
        cases hd : declarationIn? (metSites done) (opening :: path) name with
        | none => exact Std.HashMap.getElem?_empty
        | some d =>
          obtain ⟨hmem, hdpath, -, -⟩ := Lexical.declarationIn?_some hd
          exact absurd (hdpath ▸ h.within d hmem) hnew
  · intro other hother
    rw [openedPaths_opened, mem_append, mem_singleton] at hother
    rcases hother with hother | rfl
    · exact h.nonempty other hother
    · exact cons_ne_nil _ _
  · rw [openedPaths_opened, nodup_append]
    refine ⟨h.nodup, nodup_singleton _, fun other hother new hnew' heq => hnew ?_⟩
    rw [mem_singleton] at hnew'
    rwa [← hnew', ← heq]
  · intro d hd
    rw [metSites_opened] at hd
    rw [openedPaths_opened]
    exact mem_append_left _ (h.within d hd)
  · rw [metSites_opened]
    exact h.refers
  · rw [metSites_opened]
    exact h.only
  · rw [metSites_opened]
    exact h.numbered
  · rw [metSites_opened]
    exact h.unresolved
  · exact h.pending.imp fun p f hp => ⟨hp.1, hstay _ _ hp.2⟩

section Steps

variable {scope : Nat} {path : Path}

omit h in
theorem reference?_refer_self (token : Token) (reference : Reference) :
    (st.refer token reference).resolution.reference? token = some reference :=
  Std.HashMap.getElem?_insert_self

omit h in
theorem references_refer_of_ne (token : Token) (reference : Reference) (index : Nat)
    (h : index ≠ token.index) :
    (st.refer token reference).resolution.references[index]? = st.resolution.references[index]? := by
  show (st.resolution.references.insert token.index reference)[index]? = _
  rw [Std.HashMap.getElem?_insert, if_neg (by simpa using h.symm)]

theorem reference?_eq_none {token : Token}
    (hfresh : ∀ d ∈ metSites done, d.token.index ≠ token.index) :
    st.resolution.reference? token = none := by
  cases hreference : st.resolution.reference? token with
  | none => rfl
  | some reference =>
    obtain ⟨d, hd, hindex⟩ := h.only token.index reference hreference
    exact absurd hindex (hfresh d hd)

/-- A name that means a declaration refers to the binding of the declaration. -/
theorem refer {u d : Site} (hpath : u.path ∈ openedPaths done)
    (hfresh : ∀ d ∈ metSites done, d.token.index ≠ u.token.index) (hd : d ∈ metSites done)
    (hmeant : meant globals done u = .declared d) {place : Nat}
    (hplace : st.resolution.reference? d.token = some (.binding place)) :
    Tracks globals (st.refer u.token (.binding place)) (done ++ [.met u]) fs := by
  refine h.meet_known hfresh hpath rfl (references_refer_of_ne u.token _) ?_ ?_ ?_ rfl rfl
  · rw [hmeant]
    refine ⟨place, reference?_refer_self u.token _, ?_⟩
    exact (references_refer_of_ne u.token _ _ (hfresh d hd)).trans hplace
  · rw [hmeant, if_neg (by simp)]
    rfl
  · rw [hmeant]
    intro heq
    cases heq
    exact hfresh u hd rfl

/-- A name is used. -/
theorem use (hpath : (openedPaths done)[scope]? = some path)
    {token : Token} (hfresh : ∀ d ∈ metSites done, d.token.index ≠ token.index) :
    Tracks globals (use globals token scope st)
      (done ++ [.met ⟨token, token.lexeme, .use, path⟩]) fs := by
  let u : Site := ⟨token, token.lexeme, .use, path⟩
  have hlookup : st.lookup? token.lexeme (scope + 1) scope =
      (u.visible? (metSites done) (metSites done)).bind st.resolution.place? := by
    rw [h.lookup?_eq token.lexeme (scope + 1) scope path hpath (Nat.lt_succ_self _)]
    simp only [Site.visible?, ite_self, u]
  have hself : meant globals done u ≠ .declared u := fun hself =>
    role_of_meaning_self hself rfl
  have hmem : u.path ∈ openedPaths done := mem_of_getElem? hpath
  unfold Resolve.use
  rw [hlookup]
  cases hvisible : u.visible? (metSites done) (metSites done) with
  | some d =>
    have hmeant : meant globals done u = .declared d := by
      simp only [meant, Site.meaning, hvisible, u]
    obtain ⟨found, -, hfound⟩ := exists_of_findSome?_eq_some hvisible
    rw [ite_self] at hfound
    obtain ⟨hd, -, -, hrole⟩ := declarationIn?_some hfound
    obtain ⟨place, hplace⟩ := h.exists_reference hd hrole
    have hplace? : st.resolution.place? d = some place := by rw [Resolution.place?, hplace]
    rw [bind_some, hplace?]
    exact h.refer hmem hfresh hd hmeant hplace
  | none =>
    have hmeant : meant globals done u =
        if globals token.lexeme then .global else .undefined := by
      simp only [meant, Site.meaning, hvisible, u]
    show Tracks globals (if globals token.lexeme then _ else _) _ _
    cases hglobal : globals token.lexeme with
    | true =>
      rw [hglobal] at hmeant
      refine h.meet_known hfresh hmem rfl (references_refer_of_ne token _) ?_ ?_ hself rfl rfl
      · rw [hmeant]
        exact reference?_refer_self token _
      · rw [hmeant]
        rfl
    | false =>
      rw [hglobal] at hmeant
      refine h.meet_known hfresh hmem rfl (fun _ _ => rfl) ?_ ?_ hself rfl rfl
      · rw [hmeant]
        exact h.reference?_eq_none hfresh
      · rw [hmeant]
        rfl

/-- A parameter or a target declares itself. -/
theorem declare {u : Site} (hpath : (openedPaths done)[scope]? = some u.path)
    (hfresh : ∀ d ∈ metSites done, d.token.index ≠ u.token.index)
    (hself : meant globals done u = .declared u) :
    Tracks globals (st.declare scope u.name u.token u.parameter?) (done ++ [.met u]) fs := by
  obtain ⟨s, hs, hholds⟩ := h.scope scope u.path hpath
  have hunit : st.unitOf scope = u.path.unit := by
    rw [State.unitOf, hs, Option.getD_some, hholds.unit]
  have hreference : (st.declare scope u.name u.token u.parameter?).resolution.reference? u.token =
      some (.binding st.resolution.bindings.size) := reference?_refer_self u.token _
  have hothers : ∀ index, index ≠ u.token.index →
      (st.declare scope u.name u.token u.parameter?).resolution.references[index]? =
        st.resolution.references[index]? := references_refer_of_ne u.token _
  refine h.meet hfresh (mem_of_getElem? hpath) rfl hothers ?_ ?_ (Array.size_modify ..) ?_ ?_
  · rw [hself]
    exact ⟨_, hreference, hreference⟩
  · rw [hself, if_neg (by simp)]
    rfl
  · intro i path s' hi hs'
    show ∃ t, (st.scopes.modify scope _)[i]? = some t ∧ _
    rw [Array.getElem?_modify]
    by_cases hsame : scope = i
    · subst hsame
      obtain rfl : path = u.path := Option.some.inj (hi.symm.trans hpath)
      rw [if_pos rfl, hs']
      refine ⟨_, rfl, rfl, rfl, fun name => ?_⟩
      show (s'.names.insert u.name st.resolution.bindings.size)[name]? = _
      rw [Std.HashMap.getElem?_insert, Resolution.place?, hreference]
      by_cases hname : u.name = name
      · simp [hself, hname]
      · simp [hself, hname, Ne.symm hname]
    · rw [if_neg hsame]
      refine ⟨s', hs', rfl, rfl, fun name => ?_⟩
      rw [if_neg]
      rintro ⟨-, rfl, -⟩
      -- no other scope has this path
      obtain ⟨hlt, hat⟩ := List.getElem?_eq_some_iff.1 hpath
      obtain ⟨hlt', hat'⟩ := List.getElem?_eq_some_iff.1 hi
      exact hsame ((h.nodup.getElem_inj_iff).1 (hat.trans hat'.symm))
  · intro declared hdeclared
    rw [if_pos hself]
    have hsize : (st.declare scope u.name u.token u.parameter?).resolution.bindings.size =
        st.resolution.bindings.size + 1 := Array.size_push _
    refine ⟨by rw [length_append, hdeclared.length, hsize]; rfl, fun i d hd => ?_⟩
    show _ ∧ ∃ b, (st.resolution.bindings.push _)[i]? = some b ∧ _
    rw [Array.getElem?_push]
    rcases Nat.lt_or_ge i declared.length with hlt | hge
    · rw [getElem?_append_left hlt] at hd
      obtain ⟨hplace, hbinding⟩ := hdeclared.binding i d hd
      obtain ⟨v, hv, hindex⟩ := h.only _ _ hplace
      refine ⟨(hothers _ (hindex ▸ hfresh v hv)).trans hplace, ?_⟩
      rwa [if_neg (by rw [← hdeclared.length]; omega)]
    · rw [getElem?_append_right hge] at hd
      have hlast := (List.getElem?_eq_some_iff.1 hd).1
      rw [length_singleton] at hlast
      obtain rfl : i = declared.length := by omega
      rw [Nat.sub_self] at hd
      cases hd
      rw [hdeclared.length, if_pos rfl]
      exact ⟨hreference, _, rfl, rfl, hunit, rfl⟩

/-- Counting a definition of a binding changes nothing about its declaration. -/
theorem modifyBinding (place : Nat) {update : Binding → Binding}
    (hupdate : ∀ b d, Binding.DeclaredAt b d → (update b).DeclaredAt d) :
    Tracks globals
      { st with resolution.bindings := st.resolution.bindings.modify place update } done fs := by
  refine { h with numbered := ?_, scope := fun i path hi => ?_ }
  · obtain ⟨s, hs, hholds⟩ := h.scope i path hi
    exact ⟨s, hs, hholds.unit, hholds.parent, hholds.names⟩
  · obtain ⟨declared, hdeclared, hmarks⟩ := h.numbered
    refine ⟨declared, ⟨?_, fun i d hd => ?_⟩, hmarks⟩
    · rw [hdeclared.length]
      exact (Array.size_modify ..).symm
    · obtain ⟨hreference, b, hb, hbinding⟩ := hdeclared.binding i d hd
      refine ⟨hreference, ?_⟩
      show ∃ b, (st.resolution.bindings.modify place update)[i]? = some b ∧ _
      rw [Array.getElem?_modify, hb]
      split
      · exact ⟨_, rfl, hupdate b d hbinding⟩
      · exact ⟨b, rfl, hbinding⟩

/-- A name is the target of a definition. -/
theorem define (hpath : (openedPaths done)[scope]? = some path)
    {token : Token} (hfresh : ∀ d ∈ metSites done, d.token.index ≠ token.index) (value : Expr) :
    Tracks globals (st.define scope token value)
      (done ++ [.met ⟨token, token.lexeme, .target, path⟩]) fs := by
  let u : Site := ⟨token, token.lexeme, .target, path⟩
  obtain ⟨s, hs, hholds⟩ := h.scope scope path hpath
  have hdeclared : st.declared? scope token.lexeme =
      (declarationIn? (metSites done) path token.lexeme).bind st.resolution.place? := by
    rw [State.declared?, hs, bind_some, hholds.names]
  unfold State.define
  cases hd : declarationIn? (metSites done) path token.lexeme with
  | none =>
    rw [hd] at hdeclared
    have hself : meant globals done u = .declared u := by
      simp only [meant, Site.meaning, u, hd, getD_none]
    have hentered := h.declare hpath hfresh hself
    simp only [hdeclared, bind_none]
    split
    · exact hentered
    · exact hentered.modifyBinding _ fun b d hb => ⟨hb.name, hb.owner, hb.parameter⟩
  | some d =>
    have hmeant : meant globals done u = .declared d := by
      simp only [meant, Site.meaning, u, hd, getD_some]
    obtain ⟨hmem, -, -, hrole⟩ := declarationIn?_some hd
    obtain ⟨place, hplace⟩ := h.exists_reference hmem hrole
    have hentered := h.refer (mem_of_getElem? hpath) hfresh hmem hmeant hplace
    rw [hd, bind_some, Resolution.place?, hplace] at hdeclared
    simp only [hdeclared]
    split
    · exact hentered
    · exact hentered.modifyBinding _ fun b d hb => ⟨hb.name, hb.owner, hb.parameter⟩

theorem report {problem : Problem} (token : Token)
    (hproblem : problem.code ≠ "A001") : Tracks globals (st.report problem token) done fs := by
  refine { h with unresolved := ?_, scope := h.scope, pending := h.pending }
  obtain ⟨undefined, hundefined, hmarks⟩ := h.unresolved
  refine ⟨undefined, ?_, hmarks⟩
  rw [← hundefined]
  show ((({ problem, position := token.position } : Diagnostic) :: st.problems).filter
    Diagnostic.isUndefinedName).reverse = _
  rw [filter_cons, if_neg (by simpa [Diagnostic.isUndefinedName] using hproblem)]

end Steps

end Tracks

end Resolve

end Inkwell
