import Mathlib
import Inkwell.Heap.Inspect
import Inkwell.Heap.Release

/-!
# How values are shown

Composites can hold one another, and themselves, in any way. A value is shown as plain recursion would
show it, except that a composite inside itself is dots; a composite that is held in several places, and
not inside itself, is shown in full in each of them (`Heap.inspect_renders`). The recursion ends because
the composites that one is inside of are different objects, of which there are finitely many.
-/

namespace Inkwell

open List Relation

/-- Whether programs can see a value: cells and blocks are only in registers. -/
def Value.isGuest : Value → Bool
  | .cell _ | .block _ => false
  | _ => true

namespace Heap

/-- The composite at a place. -/
def contents (h : Heap) (place : Nat) : Composite :=
  match h.objects[place]? with
  | some { body := .composite c, .. } => c
  | _ => {}

/-- How a value that holds no others is shown. -/
def simple? (h : Heap) : Value → Option Text
  | .empty => some "()"
  | .number n => some n.format
  | .boolean b => some (if b then "true" else "false")
  | .string buffer => some (h.text buffer).singleQuoted
  | .native _ | .function _ => some "(function)"
  | .composite _ | .cell _ | .block _ => none

/-- The text of a value inside the composites `outer`, by recursion on its elements. A composite is not
opened where `stops` holds of it and of those that it is inside of. -/
inductive Renders (h : Heap) (stops : Nat → List Nat → Prop) : List Nat → Value → Text → Prop
  | simple {outer : List Nat} {v : Value} {t : Text} : h.simple? v = some t → Renders h stops outer v t
  | stop {outer : List Nat} {place : Nat} : stops place outer →
    Renders h stops outer (.composite place) "\x7b...\x7d"
  | inside {outer : List Nat} {place : Nat} (f : Value → Text) : ¬ stops place outer →
    (∀ v ∈ (h.contents place).values, Renders h stops (place :: outer) v (f v)) →
    Renders h stops outer (.composite place)
      (composeText (h.contents place) ((h.contents place).values.map f))

/-- The plain recursive rendering. -/
def PlainText (h : Heap) : List Nat → Value → Text → Prop := h.Renders fun _ _ => False

/-- One composite is an element of another. -/
def Encloses (h : Heap) (p q : Nat) : Prop := .composite q ∈ (h.contents p).values

/-- No composite that is met in a value is inside itself. -/
def NoLoop (h : Heap) (v : Value) : Prop :=
  ∀ p q, v = .composite p → ReflTransGen h.Encloses p q → ¬ TransGen h.Encloses q q

variable {h : Heap} {outer : List Nat} {v : Value} {t : Text}

theorem Renders.unique {stops : Nat → List Nat → Prop} (ht : h.Renders stops outer v t) {t' : Text}
    (ht' : h.Renders stops outer v t') : t = t' := by
  induction ht generalizing t' with
  | simple hsimple =>
    cases ht' with
    | simple hsimple' => exact Option.some.inj (hsimple.symm.trans hsimple')
    | stop => cases hsimple
    | inside => cases hsimple
  | stop hstop =>
    cases ht' with
    | simple hsimple => cases hsimple
    | stop => rfl
    | inside _ hopen => exact absurd hstop hopen
  | inside f hopen _ ih =>
    cases ht' with
    | simple hsimple => cases hsimple
    | stop hstop => exact absurd hstop hopen
    | inside f' _ hvalues => rw [map_congr_left fun v hv => ih v hv (hvalues v hv)]

/-- Where no composite is inside itself, none is met inside itself. -/
theorem Renders.plain (ht : h.Renders (fun place outer => place ∈ outer) outer v t)
    (hloop : h.NoLoop v) (houter : ∀ p q, v = .composite p → q ∈ outer → TransGen h.Encloses q p) :
    h.PlainText outer v t := by
  induction ht with
  | simple hsimple => exact .simple hsimple
  | stop hstop => exact absurd (houter _ _ rfl hstop) (hloop _ _ rfl .refl)
  | @inside outer place f _ _ ih =>
    refine .inside f not_false fun v hv => ih v hv ?_ ?_
    · rintro p q rfl hreach
      exact hloop place q rfl (.head hv hreach)
    · rintro p q rfl hq
      rcases mem_cons.1 hq with rfl | hq
      · exact .single hv
      · exact (houter place q rfl hq).tail hv

theorem PlainText.noLoop (ht : h.PlainText outer v t) : h.NoLoop v := by
  unfold PlainText at ht
  induction ht with
  | simple hsimple =>
    rintro p q rfl
    cases hsimple
  | stop hstop => exact hstop.elim
  | @inside outer place f _ _ ih =>
    rintro p q hp hreach hloop
    cases hp
    rcases hreach.cases_head with rfl | ⟨r, hr, hreach⟩
    · obtain ⟨r, hr, hback⟩ := TransGen.head'_iff.1 hloop
      exact ih _ hr r place rfl hback hloop
    · exact ih _ hr r q rfl hreach hloop

/-- As deep as there are objects that a value is not inside of, nothing is cut off. -/
theorem renders_inspectInside (hguest : ∀ place, ∀ v ∈ (h.contents place).values, v.isGuest = true)
    (blocks : Nat → Text) (hnodup : outer.Nodup) (hlt : ∀ p ∈ outer, p < h.objects.size) {depth : Nat}
    (hdepth : h.objects.size < depth + outer.length) (hv : v.isGuest = true) :
    h.Renders (fun place outer => place ∈ outer) outer v (h.inspectInside blocks depth outer v) := by
  induction depth generalizing outer v with
  | zero =>
    have hlength := (hnodup.subperm fun p hp => mem_range.2 (hlt p hp)).length_le
    rw [length_range] at hlength
    omega
  | succ depth ih =>
    cases v with
    | cell | block => cases hv
    | composite place =>
      by_cases hmem : place ∈ outer
      · rw [inspectInside, if_pos (contains_iff_mem.2 hmem)]
        exact .stop hmem
      · rw [inspectInside, if_neg (by simpa using hmem)]
        split
        · rename_i c _ _ ho
          have hcontents : h.contents place = c := by
            unfold contents
            rw [ho]
          have hinside : ∀ w ∈ c.values, h.Renders (fun place outer => place ∈ outer) (place :: outer) w
              (h.inspectInside blocks depth (place :: outer) w) := by
            intro w hw
            refine ih (nodup_cons.2 ⟨hmem, hnodup⟩) ?_ (by rw [length_cons]; omega) ?_
            · exact forall_mem_cons.2 ⟨(Array.getElem?_eq_some_iff.1 ho).1, hlt⟩
            · exact hguest place w (hcontents ▸ hw)
          rw [← hcontents] at hinside ⊢
          exact .inside _ hmem hinside
        · rename_i hother
          have hcontents : h.contents place = {} := by
            unfold contents
            split
            · rename_i c _ _ ho
              exact absurd ho (hother _ _ _)
            · rfl
          have hempty := @Renders.inside h (fun place outer => place ∈ outer) outer place (fun _ => "")
            hmem
          rw [hcontents] at hempty
          exact hempty (by simp [Composite.values])
    | _ => exact .simple rfl

/-- A value is shown by recursion in which exactly a composite inside itself is dots. This is the plain
recursion exactly if no composite in it is inside itself. -/
theorem inspect_renders (hguest : ∀ place, ∀ v ∈ (h.contents place).values, v.isGuest = true)
    (blocks : Nat → Text) (hv : v.isGuest = true) :
    (∀ t, h.Renders (fun place outer => place ∈ outer) [] v t ↔ t = h.inspect blocks v) ∧
    ∀ t, h.PlainText [] v t ↔ t = h.inspect blocks v ∧ h.NoLoop v := by
  have hinspect := renders_inspectInside hguest blocks nodup_nil nofun (Nat.lt_succ_self _) hv
  have hplain : h.NoLoop v → h.PlainText [] v (h.inspect blocks v) := fun hloop =>
    hinspect.plain hloop nofun
  refine ⟨fun t => ⟨fun ht => ht.unique hinspect, ?_⟩, fun t => ⟨fun ht => ?_, ?_⟩⟩
  · rintro rfl
    exact hinspect
  · exact ⟨Renders.unique ht (hplain ht.noLoop), ht.noLoop⟩
  · rintro ⟨rfl, hloop⟩
    exact hplain hloop

/-- A composite that holds itself, and another one twice. -/
def knotted : Heap where
  objects := #[{ body := .composite { dense := #[.composite 0, .composite 1, .composite 1] } },
    { body := .composite { dense := #[.boolean true] } }]

theorem inspect_renders_knotted :
    (∀ place, ∀ v ∈ (knotted.contents place).values, v.isGuest = true) ∧
    knotted.Renders (fun place outer => place ∈ outer) [] (.composite 0)
      "\x7b0: \x7b...\x7d, 1: \x7b0: true\x7d, 2: \x7b0: true\x7d\x7d" := by
  have hguest : ∀ place, ∀ v ∈ (knotted.contents place).values, v.isGuest = true
    | 0 => by decide
    | 1 => by decide
    | _ + 2 => nofun
  exact ⟨hguest, ((inspect_renders hguest (fun _ => "") rfl).1 _).2 (by decide)⟩

end Heap

end Inkwell
