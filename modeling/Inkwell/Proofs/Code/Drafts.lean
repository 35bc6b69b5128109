import Mathlib
import Inkwell.Proofs.Code.Layout
import Inkwell.Proofs.Code.Preorder

/-!
# Drafts

What is in a draft stays there while the draft grows. A unit that needs a cell of a binding of a unit
around it takes it along the chain of units in between; each then takes it from the next, up to the
unit that holds the binding (`Draft.capture_spec`).
-/

namespace Inkwell

open List

namespace Compile

/-! ## Slots -/

section Slots

variable (r : Resolution) (parameters : Nat)

/-- The places of the bindings that a unit holds. -/
theorem getD_frames (unit : CodeUnit) :
    (r.frames[unit]?.getD []).reverse =
      (r.bindings.toList.zipIdx.filter fun x => x.1.owner = unit).map Prod.snd := by
  suffices h : ∀ (l : List (Binding × Nat)) (start : Std.HashMap CodeUnit (List Nat)),
      ((l.foldl (fun frames (x : Binding × Nat) =>
        frames.alter x.1.owner fun places => some (x.2 :: places.getD [])) start)[unit]?.getD []) =
          ((l.filter fun x => x.1.owner = unit).map Prod.snd).reverse ++ start[unit]?.getD [] by
    have hall := h r.bindings.toList.zipIdx {}
    rw [Std.HashMap.getElem?_empty, Option.getD_none, append_nil] at hall
    rw [Resolution.frames, hall, reverse_reverse]
  intro l
  induction l with
  | nil => exact fun _ => rfl
  | cons x rest ih =>
    intro start
    rw [foldl_cons, ih, Std.HashMap.getElem?_alter]
    by_cases hx : x.1.owner = unit
    · simp [hx]
    · simp [hx]

theorem mem_getD_frames {unit : CodeUnit} {i : Nat} :
    i ∈ (r.frames[unit]?.getD []).reverse ↔ ∃ b, r.bindings[i]? = some b ∧ b.owner = unit := by
  rw [getD_frames, mem_map]
  constructor
  · rintro ⟨⟨b, j⟩, hmem, rfl⟩
    obtain ⟨hmem, howner⟩ := mem_filter.1 hmem
    rw [mem_zipIdx_iff_getElem?, Array.getElem?_toList] at hmem
    exact ⟨b, hmem, of_decide_eq_true howner⟩
  · rintro ⟨b, hb, howner⟩
    refine ⟨(b, i), mem_filter.2 ⟨?_, decide_eq_true howner⟩, rfl⟩
    rw [mem_zipIdx_iff_getElem?, Array.getElem?_toList]
    exact hb

/-- The register of one more binding. -/
def assignSlot (assigned : Std.HashMap Nat Nat × Nat) (place : Nat) : Std.HashMap Nat Nat × Nat :=
  match (r.bindings[place]?.getD default).parameter with
  | some i => (assigned.1.insert place i, assigned.2)
  | none => (assigned.1.insert place assigned.2, assigned.2 + 1)

theorem assignSlots_eq (places : List Nat) :
    assignSlots r parameters places = places.foldl (assignSlot r) ({}, parameters) := rfl

/-- A unit has a register for every binding that it holds, and for no other. -/
theorem assignSlots_isSome (places : List Nat) (place : Nat) :
    ((assignSlots r parameters places).1[place]?).isSome ↔ place ∈ places := by
  suffices h : ∀ start : Std.HashMap Nat Nat × Nat,
      ((places.foldl (assignSlot r) start).1[place]?).isSome ↔
        place ∈ places ∨ (start.1[place]?).isSome by
    rw [assignSlots_eq, h, Std.HashMap.getElem?_empty]
    simp
  induction places with
  | nil => simp
  | cons first rest ih =>
    intro start
    rw [foldl_cons, ih, mem_cons]
    have hfirst : ((assignSlot r start first).1[place]?).isSome ↔
        place = first ∨ (start.1[place]?).isSome := by
      unfold assignSlot
      split <;>
      · rw [Std.HashMap.getElem?_insert]
        by_cases hplace : first = place
        · simp [hplace]
        · simp [hplace, Ne.symm hplace]
    rw [hfirst]
    tauto

/-- The registers given to bindings so far: a parameter has the register of its place, every other
binding one of its own behind the parameters. -/
structure Assigned (assigned : Std.HashMap Nat Nat × Nat) : Prop where
  le : parameters ≤ assigned.2
  slot : ∀ binding slot : Nat, assigned.1[binding]? = some slot →
    (r.bindings[binding]?.getD default).parameter = some slot ∨
      ((r.bindings[binding]?.getD default).parameter = none ∧ parameters ≤ slot ∧ slot < assigned.2)
  apart : ∀ binding other slot : Nat, assigned.1[binding]? = some slot →
    assigned.1[other]? = some slot → (r.bindings[binding]?.getD default).parameter = none →
      (r.bindings[other]?.getD default).parameter = none → binding = other

theorem Assigned.assignSlot {assigned : Std.HashMap Nat Nat × Nat} (h : Assigned r parameters assigned)
    (place : Nat) : Assigned r parameters (assignSlot r assigned place) := by
  unfold Compile.assignSlot
  split
  · rename_i i hi
    refine ⟨h.le, fun binding slot hslot => ?_, fun binding other slot hslot hother hnone hnone' => ?_⟩
    · rw [Std.HashMap.getElem?_insert] at hslot
      split at hslot
      · rename_i heq
        cases hslot
        exact .inl (beq_iff_eq.1 heq ▸ hi)
      · exact h.slot binding slot hslot
    · have hne : ∀ b : Nat, (r.bindings[b]?.getD default).parameter = none → ¬ (place == b) = true := by
        intro b hb heq
        rw [← beq_iff_eq.1 heq, hi] at hb
        cases hb
      rw [Std.HashMap.getElem?_insert, if_neg (hne _ hnone)] at hslot
      rw [Std.HashMap.getElem?_insert, if_neg (hne _ hnone')] at hother
      exact h.apart binding other slot hslot hother hnone hnone'
  · rename_i hplace
    have hold : ∀ binding slot : Nat, assigned.1[binding]? = some slot →
        (r.bindings[binding]?.getD default).parameter = none → slot < assigned.2 := by
      intro binding slot hslot hnone
      rcases h.slot binding slot hslot with hparameter | ⟨-, -, hlt⟩
      · rw [hnone] at hparameter
        cases hparameter
      · exact hlt
    refine ⟨Nat.le_succ_of_le h.le, fun binding slot hslot => ?_,
      fun binding other slot hslot hother hnone hnone' => ?_⟩
    · rw [Std.HashMap.getElem?_insert] at hslot
      split at hslot
      · rename_i heq
        cases hslot
        exact .inr ⟨beq_iff_eq.1 heq ▸ hplace, h.le, Nat.lt_succ_self _⟩
      · exact (h.slot binding slot hslot).imp_right (And.imp_right (And.imp_right Nat.lt_succ_of_lt))
    · rw [Std.HashMap.getElem?_insert] at hslot hother
      split at hslot
      · rename_i heq
        cases hslot
        split at hother
        · rename_i heq'
          exact (beq_iff_eq.1 heq).symm.trans (beq_iff_eq.1 heq')
        · exact absurd (hold other _ hother hnone') (Nat.lt_irrefl _)
      · split at hother
        · cases hother
          exact absurd (hold binding _ hslot hnone) (Nat.lt_irrefl _)
        · exact h.apart binding other slot hslot hother hnone hnone'

theorem assigned_assignSlots (places : List Nat) :
    Assigned r parameters (assignSlots r parameters places) := by
  suffices h : ∀ start, Assigned r parameters start →
      Assigned r parameters (places.foldl (Compile.assignSlot r) start) by
    refine h _ ⟨Nat.le_refl _, fun binding slot hslot => ?_, fun binding _ slot hslot => ?_⟩ <;>
    cases Std.HashMap.getElem?_empty.symm.trans hslot
  induction places with
  | nil => exact fun _ h => h
  | cons place rest ih => exact fun start h => ih _ (h.assignSlot r parameters place)

end Slots

theorem getElem?_push_of_some {α : Type} {a : Array α} {i : Nat} {x : α} (h : a[i]? = some x) (y : α) :
    (a.push y)[i]? = some x := by
  obtain ⟨hi, hx⟩ := Array.getElem?_eq_some_iff.1 h
  rw [Array.getElem?_push_lt hi, hx]

/-! ## Drafts that grow -/

/-- What is in a draft is still there later. -/
structure Draft.Grows (d d' : Draft) : Prop where
  place : d'.place = d.place
  id : d'.block.id = d.block.id
  params : d'.block.params = d.block.params
  slots : d'.slots = d.slots
  captured : ∀ binding place : Nat, d.captured[binding]? = some place →
    d'.captured[binding]? = some place
  binds : ∀ (i : Nat) (b : Bind), d.block.binds[i]? = some b → d'.block.binds[i]? = some b
  constants : ∀ (i : Nat) (v : Datum), d.block.constants[i]? = some v →
    d'.block.constants[i]? = some v

namespace Draft.Grows

variable {d d' d'' : Draft}

theorem refl (d : Draft) : d.Grows d :=
  ⟨rfl, rfl, rfl, rfl, fun _ _ h => h, fun _ _ h => h, fun _ _ h => h⟩

theorem trans (h : d.Grows d') (h' : d'.Grows d'') : d.Grows d'' where
  place := h'.place.trans h.place
  id := h'.id.trans h.id
  params := h'.params.trans h.params
  slots := h'.slots.trans h.slots
  captured _ _ hd := h'.captured _ _ (h.captured _ _ hd)
  binds _ _ hd := h'.binds _ _ (h.binds _ _ hd)
  constants _ _ hd := h'.constants _ _ (h.constants _ _ hd)

end Draft.Grows

/-- What is around the whole program, where no code is written. -/
abbrev Draft.blank : Draft := {}

/-- How far a draft has come. -/
def Draft.mark (d : Draft) : Mark where
  offset := d.block.code.size
  registers := d.registers
  children := d.block.children

/-- A draft to which nothing but cells has been added. -/
structure Draft.Passes (d d' : Draft) : Prop where
  grows : d.Grows d'
  text : d'.text = d.text
  constants : d'.block.constants = d.block.constants
  known : d'.known = d.known

namespace Draft.Passes

variable {d d' : Draft}

theorem refl (d : Draft) : d.Passes d := ⟨.refl d, rfl, rfl, rfl⟩

theorem mark (h : d.Passes d') : d'.mark = d.mark := by
  have hcode := congrArg Prod.fst h.text
  have hregisters := congrArg Prod.snd h.text
  have hchildren : d'.block.children = d.block.children := by
    rw [Block.children, Block.children, h.constants]
  unfold Draft.mark
  rw [hchildren]
  exact Mark.ext (congrArg Array.size hcode) hregisters rfl

end Draft.Passes

namespace Draft

variable {r : Resolution} {d parent parent' : Draft} {binding : Nat}

theorem Links.grows (h : d.Links r parent) (hgrows : parent.Grows parent') : d.Links r parent' where
  takes := by
    intro binding place hplace
    obtain ⟨hescapes, hbind⟩ := h.takes binding place hplace
    unfold Takes
    rw [hgrows.slots]
    refine ⟨hescapes, hbind.imp_right ?_⟩
    rintro ⟨hslot, outer, houter, hbind⟩
    exact ⟨hslot, outer, hgrows.captured _ _ houter, hbind⟩
  taken := h.taken

theorem Links.congr {d' : Draft} (h : d.Links r parent) (hcaptured : d'.captured = d.captured)
    (hbinds : d'.block.binds = d.block.binds) : d'.Links r parent where
  takes := by
    intro binding place hplace
    unfold Takes
    rw [hbinds]
    exact h.takes binding place (hcaptured ▸ hplace)
  taken := by
    rw [hcaptured, hbinds]
    exact h.taken

theorem passes_take (hnone : d.captured[binding]? = none) (bind : Bind) :
    d.Passes (d.take binding bind) := by
  refine ⟨⟨rfl, rfl, rfl, rfl, fun other place hplace => ?_, fun i b hb => ?_, fun _ _ h => h⟩, rfl,
    rfl, rfl⟩
  · have hne : binding ≠ other := by
      rintro rfl
      rw [hnone] at hplace
      cases hplace
    show (d.captured.insert binding _)[other]? = _
    rw [Std.HashMap.getElem?_insert, if_neg (by simpa using hne), hplace]
  · exact getElem?_push_of_some hb bind

theorem links_take (h : d.Links r parent) (hnone : d.captured[binding]? = none) {bind : Bind}
    (htakes : (d.take binding bind).Takes r parent binding d.block.binds.size) :
    (d.take binding bind).Links r parent where
  takes := by
    intro other place hplace
    change (d.captured.insert binding _)[other]? = _ at hplace
    rw [Std.HashMap.getElem?_insert] at hplace
    split at hplace
    · rename_i heq
      cases hplace
      rw [beq_iff_eq] at heq
      exact heq ▸ htakes
    · obtain ⟨hescapes, hbind⟩ := h.takes other place hplace
      have hpasses := passes_take hnone bind
      refine ⟨hescapes, hbind.imp ?_ ?_⟩
      · rintro ⟨slot, hslot, hbind⟩
        exact ⟨slot, hslot, hpasses.grows.binds _ _ hbind⟩
      · rintro ⟨hslot, outer, houter, hbind⟩
        exact ⟨hslot, outer, houter, hpasses.grows.binds _ _ hbind⟩
  taken := by
    intro place hplace
    change place < (d.block.binds.push bind).size at hplace
    rw [Array.size_push] at hplace
    by_cases hlast : place = d.block.binds.size
    · refine ⟨binding, ?_⟩
      show (d.captured.insert binding _)[binding]? = _
      rw [Std.HashMap.getElem?_insert_self, hlast]
    · obtain ⟨other, hother⟩ := h.taken place (by omega)
      exact ⟨other, (passes_take hnone bind).grows.captured _ _ hother⟩

/-- A cell is passed on from the unit that holds its binding to the current one; every unit between
them takes it from the next. -/
theorem capture_spec {rest : List Draft} (hescapes : (r.bindings[binding]?.getD default).escapes = true) :
    ∀ {d : Draft}, List.IsChain (Links r) (d :: (rest ++ [.blank])) →
      ((d.captured[binding]?).isSome ∨ ∃ o ∈ rest, (o.slots[binding]?).isSome) →
        ∃ d' rest', (d.capture binding (rest ++ [.blank])).2 = (d', rest' ++ [.blank]) ∧ d.Passes d' ∧
          List.Forall₂ Passes rest rest' ∧ List.IsChain (Links r) (d' :: (rest' ++ [.blank])) ∧
            d'.captured[binding]? = some (d.capture binding (rest ++ [.blank])).1 := by
  induction rest with
  | nil =>
    intro d hchain hreach
    obtain ⟨place, hplace⟩ : ∃ place, d.captured[binding]? = some place :=
      Option.isSome_iff_exists.1 (hreach.resolve_right (by simp))
    refine ⟨d, [], ?_, .refl d, .nil, hchain, ?_⟩
    · simp [capture, hplace]
    · simp [capture, hplace]
  | cons parent rest ih =>
    intro d hchain hreach
    have hrefl : List.Forall₂ Passes rest rest := forall₂_same.2 fun o _ => .refl o
    rw [cons_append] at hchain ⊢
    obtain ⟨hlinks, hchain'⟩ := isChain_cons_cons.1 hchain
    unfold capture
    split
    · rename_i place hplace
      exact ⟨d, parent :: rest, rfl, .refl d, .cons (.refl parent) hrefl, hchain, hplace⟩
    · rename_i hnone
      have hself : ∀ bind, (d.take binding bind).captured[binding]? = some d.block.binds.size :=
        fun bind => Std.HashMap.getElem?_insert_self
      split
      · rename_i slot hslot
        refine ⟨d.take binding ⟨true, slot⟩, parent :: rest, rfl, passes_take hnone _,
          .cons (.refl parent) hrefl, ?_, hself _⟩
        refine isChain_cons_cons.2 ⟨links_take hlinks hnone ⟨hescapes, .inl ⟨slot, hslot, ?_⟩⟩,
          hchain'⟩
        exact Array.getElem?_push_size
      · rename_i hslot
        -- the unit around does not hold the binding, so it has to take the cell first
        have hreach' : (parent.captured[binding]?).isSome ∨
            ∃ o ∈ rest, (o.slots[binding]?).isSome := by
          rcases hreach with hreach | ⟨o, ho, hsome⟩
          · rw [hnone] at hreach
            cases hreach
          · rcases mem_cons.1 ho with rfl | ho
            · rw [hslot] at hsome
              cases hsome
            · exact .inr ⟨o, ho, hsome⟩
        obtain ⟨parent', rest', heq, hpasses, hall, hchain'', htaken⟩ := ih hchain' hreach'
        generalize parent.capture binding (rest ++ [.blank]) = found at heq htaken
        obtain ⟨place, after⟩ := found
        subst heq
        refine ⟨d.take binding ⟨false, place⟩, parent' :: rest', rfl, passes_take hnone _,
          .cons hpasses hall, ?_, hself _⟩
        refine isChain_cons_cons.2
          ⟨links_take (hlinks.grows hpasses.grows) hnone ⟨hescapes, .inr ⟨?_, place, htaken, ?_⟩⟩,
            hchain''⟩
        · rw [hpasses.grows.slots, hslot]
        · exact Array.getElem?_push_size

end Draft

end Compile

end Inkwell
