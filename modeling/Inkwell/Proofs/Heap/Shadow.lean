import Mathlib
import Inkwell.Proofs.Heap.Labels
import Inkwell.Proofs.Machine.Standard

/-!
# A heap that never releases

The shadow of a heap has the same strings and the same objects, except that nothing in it is ever
released. What a program reads is reachable from its roots, and in an exact heap all of that is
unreleased; so a program reads the same off a heap and off its shadow.
-/

namespace Inkwell

variable {place : Nat}

namespace Heap

variable {h : Heap} {o : Object}

/-- The heap `p` is a shadow of the heap `h`: it has the same strings, and all unreleased objects of
`h` with the same contents. -/
structure Shadows (p h : Heap) : Prop where
  strings : p.strings = h.strings
  size : p.objects.size = h.objects.size
  bodies : ∀ (place : Nat) (o : Object), h.objects[place]? = some o → o.released = false →
    ∃ o', p.objects[place]? = some o' ∧ o'.body = o.body
  unreleased : ∀ (place : Nat) (o : Object), p.objects[place]? = some o → o.released = false

namespace Shadows

variable {p h h' : Heap} {v : Value}

variable (hp : p.Shadows h)

include hp

/-- Objects may be released, and owners may come and go, without a change of the shadow. -/
theorem of_released (hstrings : h'.strings = h.strings) (hsize : h'.objects.size = h.objects.size)
    (hbodies : ∀ (place : Nat) (o : Object), h'.objects[place]? = some o → o.released = false →
      ∃ o', h.objects[place]? = some o' ∧ o'.released = false ∧ o'.body = o.body) :
    p.Shadows h' where
  strings := hp.strings.trans hstrings.symm
  size := hp.size.trans hsize.symm
  bodies := by
    intro place o ho hreleased
    obtain ⟨o', ho', hreleased', hbody⟩ := hbodies place o ho hreleased
    obtain ⟨o'', ho'', hbody'⟩ := hp.bodies place o' ho' hreleased'
    exact ⟨o'', ho'', hbody'.trans hbody⟩
  unreleased := hp.unreleased

/-- A change of owners, or a release. -/
theorem modified {f : Object → Object}
    (hf : ∀ o, (f o).released = false → o.released = false ∧ (f o).body = o.body) :
    p.Shadows (h.modified place f) := by
  refine hp.of_released rfl (by simp [Heap.modified]) fun other o ho hreleased => ?_
  rw [getElem?_modified] at ho
  split at ho
  · obtain ⟨o', ho', rfl⟩ := Option.map_eq_some_iff.mp ho
    obtain ⟨hreleased', hbody⟩ := hf o' hreleased
    exact ⟨o', ho', hreleased', hbody.symm⟩
  · exact ⟨o, ho, hreleased, rfl⟩

theorem retain (v : Value) : p.Shadows (h.retain v) := by
  unfold Heap.retain
  split
  · exact hp.modified fun _ hreleased => ⟨hreleased, rfl⟩
  · exact hp

theorem retainAll (vs : List Value) : p.Shadows (h.retainAll vs) := by
  induction vs generalizing h with
  | nil => exact hp
  | cons v rest ih => exact ih (hp.retain v)

theorem releaseAll (work : List Value) : p.Shadows (h.releaseAll work) := by
  fun_induction Heap.releaseAll h work with
  | case1 h => exact hp
  | case2 h v rest hfound ih => exact ih hp
  | case3 h v rest place o hfound ih =>
    refine ih (hp.modified fun o hreleased => ?_)
    unfold Object.disown at hreleased ⊢
    split at hreleased
    · cases hreleased
    · rename_i howners
      rw [if_neg howners]
      exact ⟨hreleased, rfl⟩

/-- New strings on both sides. -/
theorem strings_changed (strings : Array Text) : Shadows { p with strings } { h with strings } :=
  ⟨rfl, hp.size, hp.bodies, hp.unreleased⟩

/-- A new object on both sides. -/
theorem newObject (body : Body) : (p.newObject body).2.Shadows (h.newObject body).2 where
  strings := hp.strings
  size := by simp [Heap.newObject, hp.size]
  bodies := by
    intro place o ho hreleased
    simp only [Heap.newObject, Array.getElem?_push, hp.size] at ho ⊢
    split
    · rename_i hplace
      rw [if_pos hplace] at ho
      cases ho
      exact ⟨_, rfl, rfl⟩
    · rename_i hplace
      rw [if_neg hplace] at ho
      exact hp.bodies place o ho hreleased
  unreleased := by
    intro place o ho
    simp only [Heap.newObject, Array.getElem?_push] at ho
    split at ho
    · cases ho
      rfl
    · exact hp.unreleased place o ho

/-- New contents of an object on both sides. -/
theorem setBody (place : Nat) (body : Body) :
    (p.modified place fun o => { o with body }).Shadows
      (h.modified place fun o => { o with body }) where
  strings := hp.strings
  size := by simp [Heap.modified, hp.size]
  bodies := by
    intro other o ho hreleased
    rw [getElem?_modified] at ho ⊢
    split at ho
    · rename_i hsame
      obtain ⟨o', ho', rfl⟩ := Option.map_eq_some_iff.mp ho
      obtain ⟨o'', ho'', hbody⟩ := hp.bodies other o' ho' hreleased
      rw [if_pos hsame, ho'']
      exact ⟨_, rfl, rfl⟩
    · rename_i hother
      rw [if_neg hother]
      exact hp.bodies other o ho hreleased
  unreleased := by
    intro other o ho
    rw [getElem?_modified] at ho
    split at ho
    · obtain ⟨o', ho', rfl⟩ := Option.map_eq_some_iff.mp ho
      exact hp.unreleased other o' ho'
    · exact hp.unreleased other o ho

/-! ## Reading -/

theorem text (buffer : Nat) : p.text buffer = h.text buffer := by
  simp [Heap.text, hp.strings]

theorem datum (v : Value) : p.datum v = h.datum v := by
  cases v <;> simp [Heap.datum, hp.text]

theorem load (d : Datum) : (p.load d).1 = (h.load d).1 ∧ (p.load d).2.Shadows (h.load d).2 := by
  cases d with
  | string t =>
    refine ⟨by simp [Heap.load, newString, hp.strings], ?_⟩
    simp only [Heap.load, newString, hp.strings]
    exact hp.strings_changed _
  | _ => exact ⟨rfl, hp⟩

theorem equal (a b : Value) : p.equal a b = h.equal a b := by
  simp [Heap.equal, hp.datum]

/-- The object that a living value refers to is in the shadow as well. -/
theorem object (hv : h.Lives v) (hplace : v.object? = some place) :
    ∃ o o', h.objects[place]? = some o ∧ o.released = false ∧ o.body.Suits v ∧
      p.objects[place]? = some o' ∧ o'.released = false ∧ o'.body = o.body := by
  obtain ⟨o, ho, hreleased, hsuits⟩ := hv place hplace
  obtain ⟨o', ho', hbody⟩ := hp.bodies place o ho hreleased
  exact ⟨o, o', ho, hreleased, hsuits, ho', hp.unreleased place o' ho', hbody⟩

end Shadows

theorem composite_of_live {c : Composite} (ho : h.objects[place]? = some o)
    (hreleased : o.released = false) (hbody : o.body = .composite c) : h.composite place = .ok c :=
    by
  obtain ⟨body, owners, released⟩ := o
  simp only at hreleased hbody
  subst hreleased hbody
  simp only [composite, ho]

/-- The cell that a living value refers to, in the heap and in its shadow. -/
theorem Shadows.cell {p h : Heap} (hp : p.Shadows h) {place : Nat} (hv : h.Lives (.cell place)) :
    ∃ o content, h.objects[place]? = some o ∧ o.released = false ∧ o.body = .cell content ∧
      ∃ o', p.objects[place]? = some o' ∧ o'.released = false ∧ o'.body = .cell content := by
  obtain ⟨o, o', ho, hreleased, hsuits, ho', hreleased', hbody⟩ := hp.object hv rfl
  obtain ⟨content, hcontent⟩ : ∃ content, o.body = .cell content := by
    cases hkind : o.body with
    | cell content => exact ⟨content, rfl⟩
    | _ =>
      rw [hkind] at hsuits
      exact hsuits.elim
  exact ⟨o, content, ho, hreleased, hcontent, o', ho', hreleased', hbody.trans hcontent⟩

/-- The function that a living value refers to, in the heap and in its shadow. -/
theorem Shadows.function {p : Heap} (hp : p.Shadows h) (hv : h.Lives (.function place)) :
    ∃ o block cells, h.objects[place]? = some o ∧
      o.released = false ∧ o.body = .closure block cells ∧ p.HasFunction place block cells := by
  obtain ⟨o, o', ho, hreleased, hsuits, ho', hreleased', hbody⟩ := hp.object hv rfl
  obtain ⟨block, cells, hclosure⟩ : ∃ block cells, o.body = .closure block cells := by
    cases hkind : o.body with
    | closure block cells => exact ⟨block, cells, rfl⟩
    | _ =>
      rw [hkind] at hsuits
      exact hsuits.elim
  exact ⟨o, block, cells, ho, hreleased, hclosure, o', ho', hreleased', hbody.trans hclosure⟩

/-- The composite that a living value refers to, in the heap and in its shadow. -/
theorem Shadows.composite {p h : Heap} (hp : p.Shadows h) {place : Nat}
    (hv : h.Lives (.composite place)) : ∃ o c, h.objects[place]? = some o ∧ o.released = false ∧
      o.body = .composite c ∧ h.composite place = .ok c ∧ p.composite place = .ok c ∧
      ∃ o', p.objects[place]? = some o' ∧ o'.body = .composite c := by
  obtain ⟨o, o', ho, hreleased, hsuits, ho', hreleased', hbody⟩ := hp.object hv rfl
  obtain ⟨c, hc⟩ : ∃ c, o.body = .composite c := by
    cases hkind : o.body with
    | composite c => exact ⟨c, rfl⟩
    | _ =>
      rw [hkind] at hsuits
      exact hsuits.elim
  exact ⟨o, c, ho, hreleased, hc, composite_of_live ho hreleased hc,
    composite_of_live ho' hreleased' (hbody.trans hc), o', ho', hbody.trans hc⟩

theorem inspectInside_composite {c : Composite} (ho : h.objects[place]? = some o)
    (hbody : o.body = .composite c) (blocks : Nat → Text) (depth : Nat) (outer : List Nat) :
    h.inspectInside blocks (depth + 1) outer (.composite place) =
      if outer.contains place then ("\x7b...\x7d" : Text)
      else composeText c (c.values.map (h.inspectInside blocks depth (place :: outer))) := by
  obtain ⟨body, owners, released⟩ := o
  simp only at hbody
  subst hbody
  simp only [inspectInside, ho, Composite.values]

theorem inspectInside_cell {content : Value} (ho : h.objects[place]? = some o)
    (hbody : o.body = .cell content) (blocks : Nat → Text) (depth : Nat) (outer : List Nat) :
    h.inspectInside blocks (depth + 1) outer (.cell place) =
      if outer.contains place then ("\x7b...\x7d" : Text)
      else "<cell " ++ h.inspectInside blocks depth (place :: outer) content ++ ">" := by
  obtain ⟨body, owners, released⟩ := o
  simp only at hbody
  subst hbody
  simp only [inspectInside, ho]

/-- What lives looks the same in the shadow. -/
theorem Shadows.inspectInside {p : Heap} {roots : List Value} (hp : p.Shadows h)
    (hexact : h.Exact roots) (blocks : Nat → Text) (depth : Nat) (outer : List Nat) {v : Value}
    (hv : h.Lives v) :
    p.inspectInside blocks depth outer v = h.inspectInside blocks depth outer v := by
  induction depth generalizing outer v with
  | zero => cases v <;> simp [Heap.inspectInside, hp.text]
  | succ depth ih =>
    cases v with
    | composite place =>
      obtain ⟨o, c, ho, hreleased, hbody, -, -, o', ho', hbody'⟩ := hp.composite hv
      rw [inspectInside_composite ho hbody, inspectInside_composite ho' hbody']
      refine congrArg (ite _ _) (congrArg _ (List.map_congr_left fun w hw => ih _ ?_))
      exact hexact.held_lives ho hreleased (by rw [hbody]; exact hw)
    | cell place =>
      obtain ⟨o, content, ho, hreleased, hbody, o', ho', -, hbody'⟩ := hp.cell hv
      rw [inspectInside_cell ho hbody, inspectInside_cell ho' hbody',
        ih _ (hexact.held_lives ho hreleased (by rw [hbody]; exact .head _))]
    | _ => simp [Heap.inspectInside, hp.text]

end Heap

end Inkwell
