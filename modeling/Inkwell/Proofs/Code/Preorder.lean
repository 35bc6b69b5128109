import Mathlib
import Inkwell.Proofs.Code.Tree
import Inkwell.Proofs.Code.TailSafe

/-!
# Blocks stand in the order of a walk

A unit is sealed before another that does not belong to it is opened. So the blocks nested in a block
stand right behind it, each followed by those nested in it, and a walk of the tree of a compiled
program finds the blocks at the places 0, 1, 2 and so on (`Program.places_of_compile`).

While code is written the units around the current one are still open. The blocks that are already
nested in such a unit fill the places up to that of the unit inside it (`Stacked`).
-/

namespace Inkwell

open List

/-- The blocks from `first` up to but without `last` are those of trees with the given roots, one tree
behind the other; `nested` gives the roots of the trees right behind a root. -/
inductive InRow (nested : Nat → List Nat) : List Nat → Nat → Nat → Prop
  | nil (first : Nat) : InRow nested [] first first
  | cons {root next last : Nat} {rest : List Nat} (inner : InRow nested (nested root) (root + 1) next)
      (behind : InRow nested rest next last) : InRow nested (root :: rest) root last

namespace InRow

variable {nested nested' : Nat → List Nat} {roots more : List Nat} {first next last : Nat}

theorem le (h : InRow nested roots first last) : first ≤ last := by
  induction h with
  | nil first => exact Nat.le_refl first
  | cons _ _ ihinner ihbehind => omega

theorem append (h : InRow nested roots first next) (hmore : InRow nested more next last) :
    InRow nested (roots ++ more) first last := by
  induction h with
  | nil _ => exact hmore
  | cons inner _ _ ih => exact .cons inner (ih hmore)

/-- Only what is nested in the blocks of the row matters. -/
theorem congr (h : InRow nested roots first last)
    (hsame : ∀ place, first ≤ place → place < last → nested' place = nested place) :
    InRow nested' roots first last := by
  induction h with
  | nil first => exact .nil first
  | @cons root next last rest inner behind ihinner ihbehind =>
    have hinner := inner.le
    have hbehind := behind.le
    refine .cons ?_ (ihbehind fun place hle hlt => hsame place (by omega) hlt)
    rw [hsame root (Nat.le_refl root) (by omega)]
    exact ihinner fun place hle hlt => hsame place (by omega) (by omega)

/-- What is nested in a block of a row stands behind it, and in the row. -/
theorem behind (h : InRow nested roots first last) :
    (∀ root ∈ roots, first ≤ root ∧ root < last) ∧
      ∀ place, first ≤ place → place < last → ∀ child ∈ nested place, place < child ∧ child < last := by
  induction h with
  | nil first => exact ⟨fun _ hroot => (by cases hroot), fun place hle hlt => by omega⟩
  | @cons root next last rest inner behind ihinner ihbehind =>
    have hinner := inner.le
    have hbehind := behind.le
    refine ⟨forall_mem_cons.2 ⟨⟨Nat.le_refl _, by omega⟩, fun other hother => ?_⟩,
      fun place hle hlt child hchild => ?_⟩
    · have hbounds := ihbehind.1 other hother
      omega
    · rcases Nat.lt_or_ge place next with hnext | hnext
      · rcases Nat.eq_or_lt_of_le hle with rfl | hroot
        · have hbounds := ihinner.1 child hchild
          omega
        · have hbounds := ihinner.2 place hroot hnext child hchild
          omega
      · exact ihbehind.2 place hnext hlt child hchild

/-- A walk finds the blocks of a row one after the other. -/
theorem flatMap_placesFrom {p : Program}
    (h : InRow (fun place => (p.block place).children) roots first last) {levels : Nat}
    (hlevels : last ≤ first + levels) :
    roots.flatMap (p.placesFrom levels) = List.range' first (last - first) := by
  induction h generalizing levels with
  | nil first => rw [Nat.sub_self, range'_zero, flatMap_nil]
  | @cons root next last rest inner behind ihinner ihbehind =>
    have hinner := inner.le
    have hbehind := behind.le
    obtain ⟨fewer, rfl⟩ : ∃ fewer, levels = fewer + 1 := ⟨levels - 1, by omega⟩
    have hroot : last - root = (next - (root + 1) + 1) + (last - next) := by omega
    have hnext : root + 1 * (next - (root + 1) + 1) = next := by omega
    rw [flatMap_cons, Program.placesFrom_succ, ihinner (by omega), ihbehind (by omega), hroot,
      ← range'_append, hnext, range'_succ]

end InRow

namespace Compile

theorem children_push (b : Block) (d : Datum) :
    ({ b with constants := b.constants.push d } : Block).children =
      b.children ++ match d with
        | .block place => [place]
        | _ => [] := by
  unfold Block.children
  rw [Array.toList_push, filterMap_append]
  cases d <;> rfl

/-- The place of a draft, and of the blocks nested in it so far. -/
def Draft.line (d : Draft) : Nat × List Nat := (d.place, d.block.children)

/-- The places of the current unit and of those around it, nearest first. -/
def State.lines (st : State) : List (Nat × List Nat) := (st.current :: st.outer).map Draft.line

/-- A constant that is no block changes nothing about the blocks nested in a unit. -/
theorem Draft.line_constant (d : Draft) {value : Datum} (hblock : ∀ place, value ≠ .block place) :
    (d.constant value).2.line = d.line := by
  unfold Draft.constant
  split
  · rfl
  · have hchildren := children_push d.block value
    have hnone : (match value with | .block place => [place] | _ => []) = [] := by
      cases value with
      | block place => exact absurd rfl (hblock place)
      | _ => rfl
    rw [hnone, append_nil] at hchildren
    exact congrArg (fun children => (d.place, children)) hchildren

/-- Passing on a cell leaves every unit where it is. -/
theorem Draft.lines_capture (binding : Nat) (d : Draft) (outer : List Draft) :
    ((d.capture binding outer).2.1 :: (d.capture binding outer).2.2).map Draft.line =
      (d :: outer).map Draft.line := by
  induction outer generalizing d with
  | nil => rfl
  | cons parent outer ih =>
    unfold Draft.capture
    split
    · rfl
    · split
      · rfl
      · exact congrArg (d.line :: ·) (ih parent)

/-- The blocks nested in each of some units, innermost first, fill the places up to that of the unit
inside or, in the innermost, up to `last`. The outermost unit has the first place. -/
def Stacked (nested : Nat → List Nat) : List (Nat × List Nat) → Nat → Prop
  | [], last => last = 0
  | line :: around, last => InRow nested line.2 (line.1 + 1) last ∧ Stacked nested around line.1

theorem Stacked.congr {nested nested' : Nat → List Nat} {lines : List (Nat × List Nat)} {last : Nat}
    (h : Stacked nested lines last) (hsame : ∀ place < last, nested' place = nested place) :
    Stacked nested' lines last := by
  induction lines generalizing last with
  | nil => exact h
  | cons line around ih =>
    obtain ⟨hrow, haround⟩ := h
    have hle := hrow.le
    exact ⟨hrow.congr fun place _ => hsame place, ih haround fun place hlt => hsame place (by omega)⟩

namespace State

/-- The blocks nested in the block at a place. -/
def nestedAt (st : State) (place : Nat) : List Nat := (st.blocks[place]?.getD default).children

/-- The current unit and the `n` around it hold all blocks there are. -/
structure InRows (n : Nat) (st : State) : Prop where
  stacked : Stacked st.nestedAt (st.lines.take (n + 1)) st.blocks.size
  depth : n < st.outer.length

namespace InRows

variable {n : Nat} {st st' : State}

/-- A block that is nested in the current unit comes behind those already nested in it. -/
theorem lines_nested (setting : Setting) (place : Nat) (st : State) :
    ((Compile.nested place).result setting st).2.lines =
      (st.current.place, st.current.block.children ++ [place]) :: st.outer.map Draft.line :=
  congrArg (fun children => (st.current.place, children) :: st.outer.map Draft.line)
    (children_push _ (.block place))

/-- Nothing is opened, sealed or nested. -/
theorem of_lines (h : st.InRows n) (hlines : st'.lines = st.lines) (hblocks : st'.blocks = st.blocks) :
    st'.InRows n where
  stacked := by
    unfold nestedAt
    rw [hlines, hblocks]
    exact h.stacked
  depth := by
    have hlength : st'.lines.length = st.lines.length := congrArg List.length hlines
    simp only [lines, length_map, length_cons] at hlength
    have hdepth := h.depth
    omega

theorem opened (h : st.InRows n) (setting : Setting) (unit : CodeUnit) (name : Text)
    (parameters : Nat) : (st.opened setting unit name parameters).InRows (n + 1) where
  stacked := by
    have hsize : (st.opened setting unit name parameters).blocks.size = st.blocks.size + 1 :=
      Array.size_push _
    rw [hsize]
    refine ⟨.nil _, h.stacked.congr fun place hlt => ?_⟩
    show ((st.blocks.push {})[place]?.getD default).children = _
    rw [Array.getElem?_push_lt hlt, nestedAt, Array.getElem?_eq_getElem hlt]
  depth := Nat.succ_lt_succ h.depth

/-- Sealing a unit changes its own block and no other. -/
theorem nestedAt_sealed_self (hplace : st.current.place < st.blocks.size) (ret : Nat) :
    (st.sealed ret).nestedAt st.current.place = st.current.block.children := by
  unfold nestedAt State.sealed
  dsimp only
  rw [Array.getElem?_setIfInBounds_self_of_lt hplace]
  rfl

theorem nestedAt_sealed_of_ne {place : Nat} (hplace : place ≠ st.current.place) (ret : Nat) :
    (st.sealed ret).nestedAt place = st.nestedAt place := by
  unfold nestedAt State.sealed
  dsimp only
  rw [Array.getElem?_setIfInBounds_ne hplace.symm]

/-- The block of a unit that is sealed is the root of a tree that ends where the unit does. -/
theorem inRow_sealed (h : InRow st.nestedAt st.current.block.children (st.current.place + 1)
    st.blocks.size) (ret : Nat) :
    InRow (st.sealed ret).nestedAt [st.current.place] st.current.place st.blocks.size := by
  refine .cons ?_ (.nil _)
  rw [nestedAt_sealed_self h.le]
  exact h.congr fun place hle _ => nestedAt_sealed_of_ne (by omega) ret

/-- A unit that is sealed and nested in the one around it fills the places behind those of the blocks
that have been nested there before. -/
theorem nested (h : st.InRows (n + 1)) (setting : Setting) (ret : Nat) :
    ((Compile.nested st.current.place).result setting (st.sealed ret)).2.InRows n := by
  have hdepth := h.depth
  obtain ⟨parent, outer, houter⟩ :=
    exists_cons_of_length_pos (Nat.lt_of_le_of_lt (Nat.zero_le _) hdepth)
  have hstacked := h.stacked
  have hlines : st.lines = st.current.line :: parent.line :: outer.map Draft.line := by
    unfold lines
    rw [houter, map_cons, map_cons]
  rw [hlines, take_succ_cons, take_succ_cons] at hstacked
  obtain ⟨hcurrent, hparent, haround⟩ := hstacked
  have hle := hparent.le
  have hsame : ∀ place < st.current.place, (st.sealed ret).nestedAt place = st.nestedAt place :=
    fun place hlt => nestedAt_sealed_of_ne (Nat.ne_of_lt hlt) ret
  have hsealed : (st.sealed ret).current = parent ∧ (st.sealed ret).outer = outer := by
    unfold State.sealed
    rw [houter]
    exact ⟨rfl, rfl⟩
  have hsize : ((Compile.nested st.current.place).result setting (st.sealed ret)).2.blocks.size =
      st.blocks.size := Array.size_setIfInBounds
  refine ⟨?_, ?_⟩
  · rw [lines_nested, hsealed.1, hsealed.2, hsize, take_succ_cons]
    refine ⟨?_, haround.congr fun place hlt => hsame place (Nat.lt_of_lt_of_le hlt (Nat.le_of_succ_le hle))⟩
    exact (hparent.congr fun place _ => hsame place).append (inRow_sealed hcurrent ret)
  · show n < (st.sealed ret).outer.length
    rw [houter, length_cons] at hdepth
    rw [hsealed.2]
    omega

end InRows

end State

/-- Everything that is written inside a program keeps the blocks in rows. -/
theorem kept_inRows (setting : Setting) : Kept setting State.InRows where
  report _ _ _ _ h := h.of_lines rfl rfl
  newRegister _ _ h := h.of_lines rfl rfl
  emit _ _ _ _ h := h.of_lines rfl rfl
  constant _ _ _ hblock st h :=
    h.of_lines (congrArg (· :: st.outer.map Draft.line) (st.current.line_constant hblock)) rfl
  capture _ binding st h := h.of_lines (Draft.lines_capture binding st.current st.outer) rfl
  nested _ _ ret h := h.nested setting ret
  patch _ _ _ h := h.of_lines rfl rfl
  opened _ _ unit name parameters h := h.opened setting unit name parameters

end Compile

variable {natives : Text → Option Nat} {file : Text} {r : Resolution} {script : Script} {p : Program}

/-- All blocks of a compiled program belong to the tree of the first. -/
theorem Program.inRow_of_compile (h : script.compile natives file r = .ok p) :
    InRow (fun place => (p.block place).children) [0] 0 p.blocks.size := by
  obtain ⟨-, rfl⟩ := Script.compile_eq_ok h
  have hkept := Compile.kept_inRows (script.setting natives file r)
  have hopened : (Compile.State.opened {} (script.setting natives file r) .program
      (script.blockName file) 0).InRows 0 := ⟨⟨.nil 1, rfl⟩, Nat.zero_lt_one⟩
  have hbody := hkept.expr 0 script.body true _ (hkept.emitAll script.token
    ((script.setting natives file r).cells .program 0) _ hopened)
  unfold Script.written Script.writing
  rw [Compile.result_bind, Compile.result_openUnit, Compile.result_bind,
    Compile.result_closeUnit_some]
  generalize (Compile.expr script.body true).result _ _ = body at hbody ⊢
  have hchecked : (body.2.checked (script.setting natives file r) script.token).InRows 0 := by
    unfold Compile.State.checked
    split
    · exact hkept.report 0 _ script.token _ hbody
    · exact hbody
  generalize body.2.checked (script.setting natives file r) script.token = st at hchecked ⊢
  obtain ⟨hrow, hroot⟩ := hchecked.stacked
  have hsealed := Compile.State.InRows.inRow_sealed hrow body.1
  rw [show st.current.place = 0 from hroot] at hsealed
  have hsize : (st.sealed body.1).blocks.size = st.blocks.size := Array.size_setIfInBounds
  rw [← hsize] at hsealed
  exact hsealed

/-- The blocks of a program form a tree whose root is the first of them. -/
theorem Program.Ordered.of_compile (h : script.compile natives file r = .ok p) : p.Ordered := by
  obtain ⟨hroots, hnested⟩ := (Program.inRow_of_compile h).behind
  exact ⟨(hroots 0 mem_cons_self).2, fun place hplace => hnested place (Nat.zero_le _) hplace⟩

/-- A walk of a compiled program finds the blocks in the order of their places. -/
theorem Program.places_of_compile (h : script.compile natives file r = .ok p) :
    p.places = List.range p.blocks.size := by
  have hplaces := (Program.inRow_of_compile h).flatMap_placesFrom (Nat.le_add_left _ 0)
  rw [flatMap_singleton, Nat.sub_zero, ← range_eq_range'] at hplaces
  exact hplaces

end Inkwell
