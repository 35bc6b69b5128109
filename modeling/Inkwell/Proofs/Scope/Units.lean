import Mathlib
import Inkwell.Scope.Escape
import Inkwell.Proofs.Scope.Lexical

/-!
# Names and the units around them

Code is written unit by unit, and what the code of a name is depends on the unit that holds its
binding. Here it is said which units those are: a name refers to a binding of its own unit or of a
unit around it, and a binding that a unit inside refers to escapes (`Resolution.Serves`). The
parameters among the bindings of a unit have places in its parameter list, each its own.
-/

namespace Inkwell

open List Inkwell.Expr

open Lexical (Event Path Site Meaning declarationIn? declaring?)

variable {r : Resolution} {i n : Nat}

/-! ## The parts of a program -/

/-- What the code of a program depends on: a name with the units around it, innermost first, or a
unit with the number of its parameters. -/
inductive Part where
  | name (units : List CodeUnit) (token : Token)
  | unit (unit : CodeUnit) (parameters : Nat)

namespace Part

/-- The arrow of a function. -/
def function? : Part → Option Nat
  | .unit (.function index) _ => some index
  | _ => none

/-- The parameters of a function: its arrow, and their places. -/
def parameters : Part → List (Nat × Nat)
  | .unit (.function index) n => (List.range n).map fun place => (index, place)
  | _ => []

theorem mem_parameters {x : Part} {index place : Nat} (h : (index, place) ∈ x.parameters) :
    ∃ n, x = .unit (.function index) n ∧ place < n := by
  unfold parameters at h
  split at h
  · obtain ⟨i, hi, hkey⟩ := mem_map.1 h
    cases hkey
    exact ⟨_, rfl, mem_range.1 hi⟩
  · cases h

end Part

mutual

/-- The parts of an expression inside of some units. -/
def Expr.parts : Expr → List CodeUnit → List Part
  | .number .., _ | .string .., _ | .boolean .., _ | .empty .., _ => []
  | .name token, units => [.name units token]
  | .negate _ operand, units => operand.parts units
  | .binary _ left right, units => left.parts units ++ right.parts units
  | .define _ target value, units => value.parts units ++ target.targetParts units
  | .access _ container key, units => container.parts units ++ key.parts units
  | .call _ callee arguments, units => callee.parts units ++ Expr.itemParts arguments units
  | .choose _ subject arms, units => subject.parts units ++ Expr.armParts arms units
  | .group _ items, units | .list _ items, units => Expr.itemParts items units
  | .object _ entries, units => Expr.entryParts entries units
  | .function token _ parameters body, units =>
    .unit (.function token.index) parameters.length :: body.parts (.function token.index :: units)

/-- The parts of the target of a definition. -/
def Expr.targetParts : Expr → List CodeUnit → List Part
  | .name token, units => [.name units token]
  | .access _ container key, units => container.parts units ++ key.parts units
  | _, _ => []

/-- The parts of several expressions. -/
def Expr.itemParts : List Expr → List CodeUnit → List Part
  | [], _ => []
  | e :: rest, units => e.parts units ++ Expr.itemParts rest units

/-- The parts of the arms of a choice. -/
def Expr.armParts : List Arm → List CodeUnit → List Part
  | [], _ => []
  | .case token pattern body :: rest, units =>
    pattern.parts units ++ (.unit (.arm token.index) 0 ::
      (body.parts (.arm token.index :: units) ++ Expr.armParts rest units))
  | .otherwise token body :: rest, units =>
    .unit (.arm token.index) 0 ::
      (body.parts (.arm token.index :: units) ++ Expr.armParts rest units)

/-- The parts of the entries of an object. -/
def Expr.entryParts : List Entry → List CodeUnit → List Part
  | [], _ => []
  | .mk key value :: rest, units =>
    key.parts units ++ (value.parts units ++ Expr.entryParts rest units)

end

/-- The parts of a program. -/
def Script.parts (script : Script) : List Part :=
  .unit .program 0 :: Expr.itemParts script.items [.program]

/-! ## Parts and what a traversal meets -/

namespace Lexical

/-- The units that hold the names of a scope and of the scopes around it are among some units. -/
def Path.Inside (path : Path) (units : List CodeUnit) : Prop :=
  path ≠ [] ∧ ∀ scope ∈ path.scopes, scope.unit ∈ units

namespace Path.Inside

variable {path : Path} {units : List CodeUnit}

theorem unit (h : path.Inside units) : path.unit ∈ units := by
  obtain ⟨opening, outer, rfl⟩ := exists_cons_of_ne_nil h.1
  exact h.2 _ mem_cons_self

theorem cons (h : path.Inside units) (unit : CodeUnit) : path.Inside (unit :: units) :=
  ⟨h.1, fun scope hscope => mem_cons_of_mem _ (h.2 scope hscope)⟩

theorem group (h : path.Inside units) {unit : CodeUnit} (hunit : unit ∈ units) (index : Nat) :
    Path.Inside (.group index unit :: path) units := by
  refine ⟨cons_ne_nil _ _, fun scope hscope => ?_⟩
  rcases mem_cons.1 hscope with rfl | hscope
  · exact hunit
  · exact h.2 scope hscope

theorem function (h : path.Inside units) (index : Nat) :
    Path.Inside (.function index :: path) (.function index :: units) := by
  refine ⟨cons_ne_nil _ _, fun scope hscope => ?_⟩
  rcases mem_cons.1 hscope with rfl | hscope
  · exact mem_cons_self
  · exact mem_cons_of_mem _ (h.2 scope hscope)

end Path.Inside

/-- The arrow of the function and the place of the parameter that is met. -/
def Event.parameter? : Event → Option (Nat × Nat)
  | .met ⟨_, _, .parameter place, .function index :: _⟩ => some (index, place)
  | _ => none

/-- The parts of some code and what a traversal of the same code meets. -/
structure Agrees (events : List Event) (parts : List Part) : Prop where
  names : ∀ units token, .name units token ∈ parts →
    ∃ site, .met site ∈ events ∧ site.token = token ∧ site.path.Inside units
  inFunction : ∀ site place, .met site ∈ events → site.role = .parameter place →
    ∃ index outer, site.path = .function index :: outer
  functions : (parts.filterMap Part.function?).Sublist (events.map Event.index)
  parameters : (events.filterMap Event.parameter?).Sublist (parts.flatMap Part.parameters)

namespace Agrees

variable {events events' : List Event} {parts parts' : List Part}

theorem nil : Agrees [] [] :=
  ⟨by simp, by simp, List.Sublist.refl _, List.Sublist.refl _⟩

theorem append (h : Agrees events parts) (h' : Agrees events' parts') :
    Agrees (events ++ events') (parts ++ parts') where
  names := by
    intro units token hmem
    rcases mem_append.1 hmem with hmem | hmem
    · obtain ⟨site, hsite, hrest⟩ := h.names units token hmem
      exact ⟨site, mem_append_left _ hsite, hrest⟩
    · obtain ⟨site, hsite, hrest⟩ := h'.names units token hmem
      exact ⟨site, mem_append_right _ hsite, hrest⟩
  inFunction := by
    intro site place hmem
    rcases mem_append.1 hmem with hmem | hmem
    · exact h.inFunction site place hmem
    · exact h'.inFunction site place hmem
  functions := by
    rw [filterMap_append, map_append]
    exact h.functions.append h'.functions
  parameters := by
    rw [filterMap_append, flatMap_append]
    exact h.parameters.append h'.parameters

/-- A unit that is no function is not met. -/
theorem arm (h : Agrees events parts) (index n : Nat) :
    Agrees events (.unit (.arm index) n :: parts) where
  names units token hmem := h.names units token ((mem_cons.1 hmem).resolve_left nofun)
  inFunction := h.inFunction
  functions := h.functions
  parameters := h.parameters

/-- The opening of a scope has no part of its own. -/
theorem opened (h : Agrees events parts) (path : Path) : Agrees (.opened path :: events) parts where
  names := by
    intro units token hmem
    obtain ⟨site, hsite, hrest⟩ := h.names units token hmem
    exact ⟨site, mem_cons_of_mem _ hsite, hrest⟩
  inFunction site place hmem := h.inFunction site place ((mem_cons.1 hmem).resolve_left nofun)
  functions := h.functions.cons _
  parameters := h.parameters

/-- A name that is no parameter. -/
theorem met {site : Site} {units : List CodeUnit} (hrole : site.parameter? = none)
    (hpath : site.path.Inside units) :
    Agrees [.met site] [.name units site.token] where
  names := by
    intro units' token hmem
    cases mem_singleton.1 hmem
    exact ⟨site, mem_singleton_self _, rfl, hpath⟩
  inFunction := by
    intro other place hmem hplace
    cases mem_singleton.1 hmem
    simp [Site.parameter?, hplace] at hrole
  functions := nil_sublist _
  parameters := by
    have hnone : Event.parameter? (.met site) = none := by
      unfold Event.parameter?
      split
      · rename_i hsite
        cases hsite
        cases hrole
      · rfl
    rw [filterMap_cons_none hnone]
    exact nil_sublist _

theorem parameterEvents_sublist (index : Nat) (outer : Path) (parameters : List Parameter) :
    ∀ place, ((parameterEvents (.function index :: outer) place parameters).filterMap
      Event.parameter?).Sublist
        ((List.range' place parameters.length).map fun place => (index, place)) := by
  induction parameters with
  | nil => exact fun _ => List.Sublist.refl _
  | cons p rest ih =>
    intro place
    rw [length_cons, range'_succ, map_cons, parameterEvents]
    split
    · exact (ih (place + 1)).cons _
    · exact (ih (place + 1)).cons_cons _

theorem mem_parameterEvents {path : Path} {e : Event} (parameters : List Parameter) :
    ∀ place, e ∈ parameterEvents path place parameters →
      ∃ site : Site, e = .met site ∧ site.path = path := by
  induction parameters with
  | nil => exact nofun
  | cons p rest ih =>
    intro place he
    rw [parameterEvents] at he
    split at he
    · exact ih _ he
    · rcases mem_cons.1 he with rfl | he
      · exact ⟨_, rfl, rfl⟩
      · exact ih _ he

/-- A function is met with its parameters before its body. -/
theorem function (h : Agrees events parts) (index : Nat) (outer : Path)
    (parameters : List Parameter) :
    Agrees (.opened (.function index :: outer) ::
        (parameterEvents (.function index :: outer) 0 parameters ++ events))
      (.unit (.function index) parameters.length :: parts) where
  names := by
    intro units token hmem
    obtain ⟨site, hsite, hrest⟩ := h.names units token ((mem_cons.1 hmem).resolve_left nofun)
    exact ⟨site, mem_cons_of_mem _ (mem_append_right _ hsite), hrest⟩
  inFunction := by
    intro site place hmem hrole
    rcases mem_append.1 ((mem_cons.1 hmem).resolve_left nofun) with hmem | hmem
    · obtain ⟨other, hsame, hpath⟩ := mem_parameterEvents parameters 0 hmem
      cases hsame
      exact ⟨index, outer, hpath⟩
    · exact h.inFunction site place hmem hrole
  functions := by
    rw [map_cons, map_append]
    exact (h.functions.trans (sublist_append_right _ _)).cons_cons _
  parameters := by
    have hparameters := parameterEvents_sublist index outer parameters 0
    rw [← range_eq_range'] at hparameters
    have hnone : Event.parameter? (.opened (.function index :: outer)) = none := rfl
    rw [filterMap_cons_none hnone, filterMap_append, flatMap_cons]
    exact hparameters.append h.parameters

end Agrees

end Lexical

open Lexical (Agrees)

mutual

theorem Expr.agrees (e : Expr) {unit : CodeUnit} {path : Path} {units : List CodeUnit}
    (hunit : unit ∈ units) (hpath : path.Inside units) :
    Agrees (e.events unit path) (e.parts units) := by
  match e with
  | .number .. | .string .. | .boolean .. | .empty .. => exact .nil
  | .name token => exact .met rfl hpath
  | .negate _ operand => exact operand.agrees hpath.unit hpath
  | .binary _ left right =>
    exact (left.agrees hpath.unit hpath).append (right.agrees hpath.unit hpath)
  | .define _ target value =>
    exact (value.agrees hpath.unit hpath).append (target.agrees_target hpath)
  | .access _ container key =>
    exact (container.agrees hpath.unit hpath).append (key.agrees hpath.unit hpath)
  | .call _ callee arguments =>
    exact (callee.agrees hpath.unit hpath).append (agrees_items arguments hpath)
  | .choose _ subject arms =>
    exact (subject.agrees hpath.unit hpath).append (agrees_arms arms hpath)
  | .group token items =>
    exact .opened (agrees_items items (hpath.group hunit token.index)) _
  | .list _ items => exact agrees_items items hpath
  | .object _ entries => exact agrees_entries entries hpath
  | .function token _ parameters body =>
    exact .function (body.agrees mem_cons_self (hpath.function token.index)) _ _ _

theorem Expr.agrees_target (e : Expr) {path : Path} {units : List CodeUnit}
    (hpath : path.Inside units) : Agrees (e.targetEvents path) (e.targetParts units) := by
  match e with
  | .name token => exact .met rfl hpath
  | .access _ container key =>
    exact (container.agrees hpath.unit hpath).append (key.agrees hpath.unit hpath)
  | .number .. | .string .. | .boolean .. | .empty .. | .negate .. | .binary .. | .define ..
  | .call .. | .choose .. | .group .. | .list .. | .object .. | .function .. => exact .nil

theorem Expr.agrees_items (items : List Expr) {path : Path} {units : List CodeUnit}
    (hpath : path.Inside units) : Agrees (Expr.itemEvents items path) (Expr.itemParts items units) := by
  match items with
  | [] => exact .nil
  | e :: rest => exact (e.agrees hpath.unit hpath).append (agrees_items rest hpath)

theorem Expr.agrees_arms (arms : List Arm) {path : Path} {units : List CodeUnit}
    (hpath : path.Inside units) : Agrees (Expr.armEvents arms path) (Expr.armParts arms units) := by
  match arms with
  | [] => exact .nil
  | .case token pattern body :: rest =>
    have hbody := body.agrees mem_cons_self (hpath.cons (.arm token.index))
    exact (pattern.agrees hpath.unit hpath).append
      ((hbody.append (agrees_arms rest hpath)).arm token.index 0)
  | .otherwise token body :: rest =>
    have hbody := body.agrees mem_cons_self (hpath.cons (.arm token.index))
    exact (hbody.append (agrees_arms rest hpath)).arm token.index 0

theorem Expr.agrees_entries (entries : List Entry) {path : Path} {units : List CodeUnit}
    (hpath : path.Inside units) :
    Agrees (Expr.entryEvents entries path) (Expr.entryParts entries units) := by
  match entries with
  | [] => exact .nil
  | .mk key value :: rest =>
    exact (key.agrees hpath.unit hpath).append
      ((value.agrees hpath.unit hpath).append (agrees_entries rest hpath))

end

theorem Script.agrees (script : Script) :
    Agrees script.events (Expr.itemParts script.items [.program]) :=
  agrees_items script.items ⟨by simp, fun scope hscope => by
    cases mem_singleton.1 hscope
    exact mem_singleton_self _⟩

/-! ## Declarations declare themselves -/

namespace Lexical

section Declarations

variable {sites before after : List Site} {globals : Text → Bool} {u d : Site} {path : Path}
  {name : Text}

/-- What declares a name in a scope is not declared before. -/
theorem meaning_of_declarationIn? (h : declarationIn? (before ++ d :: after) path name = some d)
    (hnew : d ∉ before) : d.meaning globals before sites = .declared d := by
  obtain ⟨-, rfl, rfl, hrole⟩ := declarationIn?_some h
  unfold Site.meaning
  cases hd : d.role with
  | use => exact absurd hd hrole
  | parameter place => rfl
  | target =>
    unfold declarationIn? declaring? at h
    rw [filter_append, filter_cons_of_pos (by simp), filter_append,
      filter_cons_of_neg (by simp [Site.parameter?, hd])] at h
    -- the last parameter would declare the name, and a target is none
    rcases Option.or_eq_some_iff.1 h with h | ⟨hnone, h⟩
    · have hmem := mem_of_getLast? h
      rw [← filter_append] at hmem
      have hparameter := (mem_filter.1 hmem).2
      simp [Site.parameter?, hd] at hparameter
    · rw [getLast?_eq_none_iff, append_eq_nil_iff] at hnone
      rw [find?_append] at h
      have hfirst : (before.filter fun s => s.path = d.path ∧ s.name = d.name).find?
          (fun s => s.role = .target) = none := by
        cases hfound : (before.filter fun s => s.path = d.path ∧ s.name = d.name).find?
            fun s => s.role = .target with
        | none => rfl
        | some first =>
          rw [hfound, Option.some_or, Option.some.injEq] at h
          subst h
          exact absurd (mem_filter.1 (mem_of_find?_eq_some hfound)).1 hnew
      have hundeclared : declarationIn? before d.path d.name = none := by
        rw [declarationIn?, declaring?, hnone.1, hfirst]
        rfl
      simp [hundeclared]

/-- What a name means is declared in its scope or a scope around it, and declares itself there. -/
theorem meaning_declared (hnodup : (before ++ u :: after).Nodup)
    (h : u.meaning globals before (before ++ u :: after) = .declared d) :
    (d.path = u.path ∨ d.path ∈ u.path.scopes) ∧ ∃ before' after',
      before ++ u :: after = before' ++ d :: after' ∧
        d.meaning globals before' (before ++ u :: after) = .declared d := by
  have hmeaning := h
  have hfound : ∀ {scope : Path} {seen rest : List Site}, before ++ u :: after = seen ++ rest →
      declarationIn? seen scope u.name = some d → ∃ before' after',
        before ++ u :: after = before' ++ d :: after' ∧
          d.meaning globals before' (before ++ u :: after) = .declared d := by
    intro scope seen rest hall hd
    obtain ⟨before', after', rfl⟩ := append_of_mem (declarationIn?_some hd).1
    refine ⟨before', after' ++ rest, by rw [hall, append_assoc, cons_append], ?_⟩
    refine meaning_of_declarationIn? hd fun hmem => ?_
    rw [hall, append_assoc] at hnodup
    exact (nodup_append.1 hnodup).2.2 d hmem d (by simp) rfl
  unfold Site.meaning at h
  split at h
  · cases h
    exact ⟨.inl rfl, before, after, rfl, hmeaning⟩
  · cases hd : declarationIn? before u.path u.name with
    | none =>
      rw [hd] at h
      cases h
      exact ⟨.inl rfl, before, after, rfl, hmeaning⟩
    | some found =>
      rw [hd] at h
      cases h
      exact ⟨.inl (declarationIn?_some hd).2.1, hfound rfl hd⟩
  · split at h
    · rename_i found hvisible
      cases h
      obtain ⟨scope, hscope, hd⟩ := exists_of_findSome?_eq_some hvisible
      refine ⟨.inr ((declarationIn?_some hd).2.1 ▸ hscope), ?_⟩
      split at hd
      · exact hfound rfl hd
      · exact hfound (append_nil _).symm hd
    · split at h <;> cases h

end Declarations

theorem nodup_sites {script : Script} (h : Resolve.Distinct script.events) : script.sites.Nodup := by
  refine (List.Nodup.of_map _ h).filterMap fun e e' u hu hu' => ?_
  cases e <;> cases e' <;> simp_all [Event.site?]

end Lexical

theorem eq_of_nodup_filterMap {α β : Type} {f : α → Option β} {l : List α}
    (h : (l.filterMap f).Nodup) {x y : α} (hx : x ∈ l) (hy : y ∈ l) {key : β} (hxkey : f x = some key)
    (hykey : f y = some key) : x = y := by
  by_contra hne
  have hapart := @Pairwise.forall _ _ _ ⟨fun _ _ hxy b hb c hc => (hxy c hc b hb).symm⟩
    (pairwise_filterMap.1 h)
  exact hapart hx hy hne key hxkey key hykey rfl

/-! ## What names refer to -/

/-- A unit with some parameters holds no parameter but those. -/
def Resolution.Fits (r : Resolution) (unit : CodeUnit) (parameters : Nat) : Prop :=
  ∀ (i : Nat) (b : Binding), r.bindings[i]? = some b → b.owner = unit →
    ∀ place, b.parameter = some place → place < parameters

/-- No two parameters of a unit have the same place. -/
def Resolution.Separate (r : Resolution) : Prop :=
  ∀ (i j : Nat) (b c : Binding), r.bindings[i]? = some b → r.bindings[j]? = some c →
    b.owner = c.owner → b.parameter.isSome → b.parameter = c.parameter → i = j

section Parts

variable {script : Script} {globals : Text → Bool} {r : Resolution} {problems : List Diagnostic}

variable (h : script.Scoped globals r problems)

include h

/-- The binding of a name is held by a unit around it. -/
theorem Script.Scoped.owner
    (hdistinct : Resolve.Distinct script.events) {u : Site} (hu : u ∈ script.sites)
    {units : List CodeUnit} (hpath : u.path.Inside units)
    (hrefers : r.reference? u.token = some (.binding i)) :
    ∃ b, r.bindings[i]? = some b ∧ b.owner ∈ units := by
  obtain ⟨before, after, hsites⟩ := append_of_mem hu
  have hnodup := Lexical.nodup_sites hdistinct
  have hmeaning := h.refers before u after hsites
  obtain ⟨declared, -, -, hdeclared, hnumbered⟩ := h.bindings
  cases hm : u.meaning globals before script.sites with
  | declared d =>
    rw [hm] at hmeaning
    obtain ⟨place, hplace, hd⟩ := hmeaning
    rw [hrefers] at hplace
    cases hplace
    rw [hsites] at hnodup hm
    obtain ⟨hscope, before', after', hsplit, hself⟩ := Lexical.meaning_declared hnodup hm
    rw [← hsites] at hsplit hself
    have hmem := (hdeclared before' d after' hsplit).2 hself
    obtain ⟨j, hj⟩ := getElem?_of_mem hmem
    obtain ⟨hreference, b, hb, hat⟩ := hnumbered.binding j d hj
    rw [hd] at hreference
    cases hreference
    refine ⟨b, hb, ?_⟩
    rw [hat.owner]
    rcases hscope with hscope | hscope
    · exact hscope ▸ hpath.unit
    · exact hpath.2 _ hscope
  | global | undefined =>
    rw [hm] at hmeaning
    cases hrefers.symm.trans hmeaning

/-- A parameter among the bindings is one of a function. -/
theorem Script.Scoped.parameter {b : Binding}
    (hb : r.bindings[i]? = some b) {place : Nat} (hplace : b.parameter = some place) :
    ∃ d index, b.owner = .function index ∧ .met d ∈ script.events ∧
      Event.parameter? (.met d) = some (index, place) ∧ r.reference? d.token = some (.binding i) := by
  obtain ⟨declared, -, hsites, -, hnumbered⟩ := h.bindings
  have hlt : i < declared.length := hnumbered.length ▸ (Array.getElem?_eq_some_iff.1 hb).1
  obtain ⟨hreference, c, hc, hat⟩ := hnumbered.binding i _ (getElem?_eq_getElem hlt)
  cases hb.symm.trans hc
  have hsite : .met declared[i] ∈ script.events := by
    obtain ⟨e, he, hsome⟩ := mem_filterMap.1 (hsites _ (getElem_mem hlt))
    cases e with
    | opened path => cases hsome
    | met site =>
      cases hsome
      exact he
  have hrole : declared[i].role = .parameter place := by
    have hparameter := hat.parameter.symm.trans hplace
    unfold Site.parameter? at hparameter
    split at hparameter
    · rename_i hrole
      cases hparameter
      exact hrole
    · cases hparameter
  obtain ⟨index, outer, hpath⟩ := script.agrees.inFunction _ place hsite hrole
  refine ⟨declared[i], index, by rw [hat.owner, hpath]; rfl, hsite, ?_, hreference⟩
  generalize declared[i] = d at hrole hpath
  obtain ⟨token, name, role, path⟩ := d
  subst hrole hpath
  rfl

omit h in
/-- The functions of a program are told apart by their arrows. -/
theorem Script.nodup_functions (h : Resolve.Distinct script.events) :
    (script.parts.filterMap Part.function?).Nodup :=
  h.sublist script.agrees.functions

omit h in
theorem Script.nodup_parameters (h : Resolve.Distinct script.events) :
    (script.events.filterMap Event.parameter?).Nodup := by
  have hparts : (script.parts.flatMap Part.parameters).Nodup := by
    rw [nodup_flatMap]
    refine ⟨fun x _ => ?_, ?_⟩
    · unfold Part.parameters
      split
      · exact nodup_range.map fun a b hab => (Prod.mk.inj hab).2
      · exact nodup_nil
    · refine (pairwise_filterMap.1 (Script.nodup_functions h)).imp fun {x y} hxy => ?_
      intro key hx hy
      obtain ⟨n, rfl, -⟩ := Part.mem_parameters hx
      obtain ⟨m, rfl, -⟩ := Part.mem_parameters hy
      exact hxy _ rfl _ rfl rfl
  exact hparts.sublist script.agrees.parameters

/-- A unit holds no parameters but its own. -/
theorem Script.Scoped.fits (hdistinct : Resolve.Distinct script.events) {unit : CodeUnit}
    (hunit : .unit unit n ∈ script.parts) : r.Fits unit n := by
  intro i b hb howner place hplace
  obtain ⟨d, index, hfunction, hmet, hkey, -⟩ := h.parameter hb hplace
  have hmem : (index, place) ∈ script.parts.flatMap Part.parameters :=
    script.agrees.parameters.subset (mem_filterMap.2 ⟨_, hmet, hkey⟩)
  obtain ⟨part, hpart, hin⟩ := mem_flatMap.1 hmem
  obtain ⟨m, rfl, hlt⟩ := Part.mem_parameters hin
  rw [howner] at hfunction
  subst hfunction
  cases eq_of_nodup_filterMap (Script.nodup_functions hdistinct) hpart hunit rfl rfl
  exact hlt

/-- The parameters of a unit have different places. -/
theorem Script.Scoped.separate (hdistinct : Resolve.Distinct script.events) : r.Separate := by
  intro i j b c hb hc howner hsome hsame
  obtain ⟨place, hplace⟩ := Option.isSome_iff_exists.1 hsome
  obtain ⟨d, index, hbi, hmet, hkey, hrefers⟩ := h.parameter hb hplace
  obtain ⟨d', index', hci, hmet', hkey', hrefers'⟩ := h.parameter hc (hsame ▸ hplace)
  rw [hbi, hci] at howner
  cases howner
  cases eq_of_nodup_filterMap (Script.nodup_parameters hdistinct) hmet hmet' hkey hkey'
  cases hrefers.symm.trans hrefers'
  rfl

end Parts

/-! ## Bindings that escape -/

namespace Resolution

/-- A resolution that differs from another only in that more bindings escape. -/
structure MoreEscape (r r' : Resolution) : Prop where
  references : r'.references = r.references
  size : r'.bindings.size = r.bindings.size
  binding : ∀ (i : Nat) (b : Binding), r.bindings[i]? = some b → ∃ b', r'.bindings[i]? = some b' ∧
    b'.owner = b.owner ∧ b'.parameter = b.parameter ∧ (b.escapes = true → b'.escapes = true)

/-- Every binding that a name refers to from inside of another unit escapes. -/
def Marks (r : Resolution) (parts : List Part) : Prop :=
  ∀ units token, .name units token ∈ parts → ∀ i b, r.reference? token = some (.binding i) →
    r.bindings[i]? = some b → units.head? = some b.owner ∨ b.escapes = true

namespace MoreEscape

variable {r r' r'' : Resolution}

theorem refl (r : Resolution) : MoreEscape r r :=
  ⟨rfl, rfl, fun _ b hb => ⟨b, hb, rfl, rfl, id⟩⟩

variable (h : MoreEscape r r')

include h

theorem trans (h' : MoreEscape r' r'') : MoreEscape r r'' where
  references := h'.references.trans h.references
  size := h'.size.trans h.size
  binding := by
    intro i b hb
    obtain ⟨b', hb', howner, hparameter, hescapes⟩ := h.binding i b hb
    obtain ⟨b'', hb'', howner', hparameter', hescapes'⟩ := h'.binding i b' hb'
    exact ⟨b'', hb'', howner'.trans howner, hparameter'.trans hparameter, hescapes' ∘ hescapes⟩

theorem reference? (token : Token) : r'.reference? token = r.reference? token := by
  rw [Resolution.reference?, Resolution.reference?, h.references]

/-- Every binding was there before. -/
theorem exists_binding {b' : Binding} (hb' : r'.bindings[i]? = some b') : ∃ b,
    r.bindings[i]? = some b ∧ b'.owner = b.owner ∧
      b'.parameter = b.parameter ∧ (b.escapes = true → b'.escapes = true) := by
  have hlt : i < r.bindings.size := h.size ▸ (Array.getElem?_eq_some_iff.1 hb').1
  obtain ⟨c, hc, hrest⟩ := h.binding i _ (Array.getElem?_eq_getElem hlt)
  cases hb'.symm.trans hc
  exact ⟨_, Array.getElem?_eq_getElem hlt, hrest⟩

theorem marks {parts : List Part} (hmarks : r.Marks parts) : r'.Marks parts := by
  intro units token hname i b' hrefers hb'
  obtain ⟨b, hb, howner, -, hescapes⟩ := h.exists_binding hb'
  rw [h.reference?] at hrefers
  rw [howner]
  exact (hmarks units token hname i b hrefers hb).imp_right hescapes

theorem fits {unit : CodeUnit} (hfits : r.Fits unit n) : r'.Fits unit n := by
  intro i b' hb' howner' place hplace
  obtain ⟨b, hb, howner, hparameter, -⟩ := h.exists_binding hb'
  exact hfits i b hb (howner ▸ howner') place (hparameter ▸ hplace)

theorem separate (hseparate : r.Separate) : r'.Separate := by
  intro i j b' c' hb' hc' howner' hsome hsame
  obtain ⟨b, hb, howner, hparameter, -⟩ := h.exists_binding hb'
  obtain ⟨c, hc, hcowner, hcparameter, -⟩ := h.exists_binding hc'
  rw [howner, hcowner] at howner'
  rw [hparameter, hcparameter] at hsame
  rw [hparameter] at hsome
  exact hseparate i j b c hb hc howner' hsome hsame

end MoreEscape

end Resolution

namespace Escape

open Resolution (MoreEscape)

/-- Marking some parts: bindings start to escape, among them all that the parts need. -/
def Escapes (step : Resolution → Resolution) (parts : List Part) : Prop :=
  ∀ r, MoreEscape r (step r) ∧ (step r).Marks parts

namespace Escapes

variable {step step' : Resolution → Resolution} {parts parts' : List Part}

theorem nil : Escapes id [] := fun r => ⟨.refl r, nofun⟩

theorem append (h : Escapes step parts) (h' : Escapes step' parts') :
    Escapes (fun r => step' (step r)) (parts ++ parts') := by
  intro r
  refine ⟨(h r).1.trans (h' _).1, fun units token hmem => ?_⟩
  rcases mem_append.1 hmem with hmem | hmem
  · exact (h' _).1.marks (h r).2 units token hmem
  · exact (h' _).2 units token hmem

theorem of_subset (h : Escapes step parts)
    (hsub : ∀ units token, .name units token ∈ parts' → .name units token ∈ parts) :
    Escapes step parts' :=
  fun r => ⟨(h r).1, fun units token hmem => (h r).2 units token (hsub units token hmem)⟩

/-- Of the parts of an expression, a definition of it has all or none. -/
theorem target {e : Expr} {units : List CodeUnit} (h : Escapes step (e.parts units)) :
    Escapes step (e.targetParts units) := by
  refine h.of_subset fun units' token hmem => ?_
  cases e with
  | name | access => exact hmem
  | _ => cases hmem

/-- A constant behind an arrow has no names, so it is all the same which unit they would be in. -/
theorem armBody {body : Expr} {arm : CodeUnit} (h : Escapes (expr body arm) parts) (unit : CodeUnit) :
    Escapes (expr body (if body.isLiteral then unit else arm)) parts := by
  cases body <;> exact h

theorem unit (h : Escapes step parts) (unit : CodeUnit) (n : Nat) :
    Escapes step (.unit unit n :: parts) :=
  h.of_subset fun _ _ hmem => (mem_cons.1 hmem).resolve_left nofun

theorem name (token : Token) (unit : CodeUnit) (units : List CodeUnit) :
    Escapes (mark token unit) [.name (unit :: units) token] := by
  intro r
  unfold mark
  split
  · rename_i place hplace
    refine ⟨⟨rfl, Array.size_modify, fun i b hb => ?_⟩, fun units' token' hmem i b hrefers hb => ?_⟩
    · by_cases hi : place = i
      · subst hi
        rw [Array.getElem?_modify, if_pos rfl, hb, Option.map_some]
        refine ⟨_, rfl, ?_⟩
        split
        · exact ⟨rfl, rfl, id⟩
        · exact ⟨rfl, rfl, fun _ => rfl⟩
      · exact ⟨b, by rw [Array.getElem?_modify, if_neg hi, hb], rfl, rfl, id⟩
    · cases mem_singleton.1 hmem
      cases hplace.symm.trans hrefers
      rw [Array.getElem?_modify, if_pos rfl] at hb
      obtain ⟨c, hc, rfl⟩ := Option.map_eq_some_iff.1 hb
      split
      · rename_i howner
        exact .inl (congrArg some howner.symm)
      · exact .inr rfl
  · rename_i hnone
    refine ⟨.refl r, fun units' token' hmem i b hrefers _ => ?_⟩
    cases mem_singleton.1 hmem
    exact absurd hrefers (hnone i)

end Escapes

mutual

theorem escapes_expr (e : Expr) {unit : CodeUnit} {units : List CodeUnit} :
    Escapes (expr e unit) (e.parts (unit :: units)) := by
  match e with
  | .number .. | .string .. | .boolean .. | .empty .. => exact .nil
  | .name token => exact .name token unit units
  | .negate _ operand => exact escapes_expr operand
  | .binary _ left right =>
    exact (escapes_expr left).append (escapes_expr right)
  | .define _ target value =>
    exact (escapes_expr value).append (escapes_expr target).target
  | .access _ container key =>
    exact (escapes_expr container).append (escapes_expr key)
  | .call _ callee arguments =>
    exact (escapes_expr callee).append (escapes_items arguments)
  | .choose _ subject arms =>
    exact (escapes_expr subject).append (escapes_arms arms)
  | .group _ items => exact escapes_items items
  | .list _ items => exact escapes_items items
  | .object _ entries => exact escapes_entries entries
  | .function token _ parameters body =>
    exact (escapes_expr body).unit _ _

theorem escapes_items (es : List Expr) {unit : CodeUnit} {units : List CodeUnit} :
    Escapes (items es unit) (Expr.itemParts es (unit :: units)) := by
  match es with
  | [] => exact .nil
  | e :: rest => exact (escapes_expr e).append (escapes_items rest)

theorem escapes_arms (cases : List Arm) {unit : CodeUnit} {units : List CodeUnit} :
    Escapes (arms cases unit) (Expr.armParts cases (unit :: units)) := by
  match cases with
  | [] => exact .nil
  | .case token pattern body :: rest =>
    have hbody := (@escapes_expr body (.arm token.index) (unit :: units)).armBody unit
    exact (escapes_expr pattern).append ((hbody.append (escapes_arms rest)).unit _ _)
  | .otherwise token body :: rest =>
    have hbody := (@escapes_expr body (.arm token.index) (unit :: units)).armBody unit
    exact (hbody.append (escapes_arms rest)).unit _ _

theorem escapes_entries (es : List Entry) {unit : CodeUnit} {units : List CodeUnit} :
    Escapes (entries es unit) (Expr.entryParts es (unit :: units)) := by
  match es with
  | [] => exact .nil
  | .mk key value :: rest =>
    exact (escapes_expr key).append
      ((escapes_expr value).append (escapes_entries rest))

end

end Escape

/-! ## The main statement -/

/-- A resolution with which the code of some parts can be written: a name refers to a binding of a unit
around it, which escapes unless that is the innermost one, and the units hold no parameters but their
own. -/
structure Resolution.Serves (r : Resolution) (parts : List Part) : Prop where
  names : ∀ units token, .name units token ∈ parts → ∀ i, r.reference? token = some (.binding i) →
    ∃ b, r.bindings[i]? = some b ∧ b.owner ∈ units ∧
      (units.head? = some b.owner ∨ b.escapes = true)
  fits : ∀ unit n, .unit unit n ∈ parts → r.Fits unit n

theorem Resolution.Serves.of_subset {parts parts' : List Part} (h : r.Serves parts)
    (hsub : ∀ x ∈ parts', x ∈ parts) : r.Serves parts' :=
  ⟨fun units token hmem => h.names units token (hsub _ hmem),
    fun unit n hmem => h.fits unit n (hsub _ hmem)⟩

theorem Resolution.serves_append {parts parts' : List Part} :
    r.Serves (parts ++ parts') ↔ r.Serves parts ∧ r.Serves parts' := by
  constructor
  · intro h
    exact ⟨h.of_subset fun _ hx => mem_append_left _ hx,
      h.of_subset fun _ hx => mem_append_right _ hx⟩
  · rintro ⟨h, h'⟩
    refine ⟨fun units token hmem => ?_, fun unit n hmem => ?_⟩
    · exact (mem_append.1 hmem).elim (h.names units token) (h'.names units token)
    · exact (mem_append.1 hmem).elim (h.fits unit n) (h'.fits unit n)

theorem Resolution.serves_unit {unit : CodeUnit} {parts : List Part}
    (h : r.Serves (.unit unit n :: parts)) : r.Fits unit n ∧ r.Serves parts :=
  ⟨h.fits unit n mem_cons_self, h.of_subset fun _ hx => mem_cons_of_mem _ hx⟩

namespace Script

variable (globals : Text → Bool) (script : Script)

theorem moreEscape_markEscapes (r : Resolution) : r.MoreEscape (r.markEscapes script) :=
  (@Escape.escapes_items script.items .program [] r).1

/-- With the resolution of a program that tells its names apart, its code can be written. -/
theorem serves_resolve (h : Resolve.Distinct script.events) :
    ((script.resolve globals).1.markEscapes script).Serves script.parts := by
  have hscoped := script.scoped_resolve globals h
  have hmore := script.moreEscape_markEscapes (script.resolve globals).1
  have hmarks := (@Escape.escapes_items script.items .program [] (script.resolve globals).1).2
  refine ⟨fun units token hname i hrefers => ?_, fun unit n hunit => hmore.fits (hscoped.fits h hunit)⟩
  have hitem : .name units token ∈ Expr.itemParts script.items [.program] :=
    (mem_cons.1 hname).resolve_left nofun
  obtain ⟨site, hsite, rfl, hpath⟩ := script.agrees.names units token hitem
  obtain ⟨b, hb, howner⟩ := hscoped.owner h (mem_filterMap.2 ⟨_, hsite, rfl⟩) hpath
    ((hmore.reference? site.token).symm.trans hrefers)
  obtain ⟨b', hb', howner', -, -⟩ := hmore.binding i b hb
  exact ⟨b', hb', howner' ▸ howner, hmarks units site.token hitem i b' hrefers hb'⟩

theorem separate_resolve (h : Resolve.Distinct script.events) :
    ((script.resolve globals).1.markEscapes script).Separate :=
  (script.moreEscape_markEscapes _).separate ((script.scoped_resolve globals h).separate h)

end Script

end Inkwell
