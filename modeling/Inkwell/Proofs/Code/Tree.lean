import Mathlib.Data.List.Perm.Subperm
import Inkwell.Proofs.Code.Sound

/-!
# Programs as trees

A program lists its blocks, and a block refers to those nested in it by their places in the list.
Which places these are is of no account: a program stands for the tree of its blocks
(`Program.tree`), and two lists that stand for the same tree are the same program.

The blocks of a tree may be numbered anew. A program whose blocks have new numbers stands for the same
tree (`Program.Renumbers.tree_eq`) and is valid if the other is.
-/

namespace Inkwell

open List Block

variable {place : Nat}

/-- A block with the blocks nested in it, in the order of its constants. -/
inductive BlockTree where
  | node (block : Block) (nested : List BlockTree)

/-- A constant with another number for a nested block. -/
def Datum.renumber (f : Nat → Nat) : Datum → Datum
  | .block place => .block (f place)
  | d => d

/-- A block with other numbers for the blocks nested in it. -/
def Block.renumber (f : Nat → Nat) (b : Block) : Block :=
  { b with constants := b.constants.map (Datum.renumber f) }

namespace Program

/-- The tree of the block at a place, as far as the given number of levels. -/
def treeFrom (p : Program) : Nat → Nat → BlockTree
  | 0, _ => .node default []
  | levels + 1, place =>
    .node ((p.block place).renumber fun _ => 0) ((p.block place).children.map (treeFrom p levels))

/-- The tree of blocks that a program stands for. -/
def tree (p : Program) : BlockTree := p.treeFrom p.blocks.size 0

end Program

/-! ## New numbers -/

namespace Datum

@[simp] theorem renumber_renumber (f g : Nat → Nat) (d : Datum) :
    (d.renumber f).renumber g = d.renumber (g ∘ f) := by
  cases d <;> rfl

end Datum

namespace Block

variable {f : Nat → Nat} {b : Block}

@[simp] theorem slots_renumber : (b.renumber f).slots = b.slots := rfl

theorem renumber_renumber (f g : Nat → Nat) : (b.renumber f).renumber g = b.renumber (g ∘ f) := by
  simp [renumber, Function.comp_def]

theorem constant?_renumber (k : Int) :
    (b.renumber f).constant? k = (b.constant? k).map (Datum.renumber f) := by
  unfold constant?
  split
  · rfl
  · simp [renumber]

theorem nested?_renumber (k : Int) : (b.renumber f).nested? k = (b.nested? k).map f := by
  unfold nested?
  rw [constant?_renumber]
  cases b.constant? k with
  | none => rfl
  | some d => cases d <;> rfl

theorem children_renumber : (b.renumber f).children = b.children.map f := by
  unfold children renumber
  rw [Array.toList_map]
  induction b.constants.toList with
  | nil => rfl
  | cons d rest ih => cases d <;> simp_all [Datum.renumber]

end Block

namespace Program

variable {p : Program}

/-! ## Places -/

section Places

variable {p : Program}

theorem placesFrom_succ (levels place : Nat) :
    p.placesFrom (levels + 1) place =
      place :: (p.block place).children.flatMap (p.placesFrom levels) := rfl

/-- Behind a block of a tree stand the blocks nested in it. -/
theorem placesFrom_split (hordered : p.Ordered) {levels start : Nat}
    (hstart : start < p.blocks.size) (hlevels : p.blocks.size ≤ start + levels)
    (hplace : place ∈ p.placesFrom levels start) :
    place < p.blocks.size ∧ ∃ before behind, p.placesFrom levels start = before ++ place :: behind ∧
      ∀ child ∈ (p.block place).children, child ∈ behind := by
  induction levels generalizing start with
  | zero => omega
  | succ levels ih =>
    have hnested := hordered.nested start hstart
    rw [placesFrom_succ] at hplace ⊢
    rcases mem_cons.1 hplace with rfl | hplace
    · refine ⟨hstart, [], _, rfl, fun child hchild => ?_⟩
      have hbehind := hnested child hchild
      rw [mem_flatMap]
      refine ⟨child, hchild, ?_⟩
      cases levels with
      | zero => omega
      | succ levels => exact mem_cons_self
    · obtain ⟨child, hchild, hplace⟩ := mem_flatMap.1 hplace
      have hbehind := hnested child hchild
      obtain ⟨hlt, before, behind, heq, hchildren⟩ := ih hbehind.2 (by omega) hplace
      obtain ⟨earlier, later, hsplit⟩ := append_of_mem hchild
      refine ⟨hlt, start :: (earlier.flatMap (p.placesFrom levels) ++ before),
        behind ++ later.flatMap (p.placesFrom levels), ?_, fun inner hinner =>
          mem_append_left _ (hchildren inner hinner)⟩
      rw [hsplit, flatMap_append, flatMap_cons, heq]
      simp

variable (hordered : p.Ordered)

include hordered

theorem zero_mem_places : 0 ∈ p.places := by
  unfold places
  cases hsize : p.blocks.size with
  | zero => exact absurd hordered.hasRoot (by omega)
  | succ n => exact mem_cons_self

theorem lt_of_mem_places (h : place ∈ p.places) : place < p.blocks.size :=
  (placesFrom_split hordered hordered.hasRoot (by omega) h).1

theorem child_mem_places {child : Nat} (h : place ∈ p.places)
    (hchild : child ∈ (p.block place).children) : child ∈ p.places := by
  obtain ⟨-, before, behind, heq, hchildren⟩ :=
    placesFrom_split hordered hordered.hasRoot (by omega) h
  have hbehind := hchildren child hchild
  show child ∈ p.placesFrom p.blocks.size 0
  rw [heq]
  exact mem_append_right _ (mem_cons_of_mem _ hbehind)

/-- A tree without shared blocks has no more blocks than there are places. -/
theorem length_places_le (hnodup : p.places.Nodup) : p.places.length ≤ p.blocks.size := by
  have hsubset : p.places ⊆ List.range p.blocks.size := fun place hplace =>
    mem_range.2 (lt_of_mem_places hordered hplace)
  have hle := (subperm_of_subset hnodup hsubset).length_le
  rwa [length_range] at hle

/-- In a tree without shared blocks every block has a smaller number than those nested in it. -/
theorem idxOf_lt_idxOf (hnodup : p.places.Nodup) {child : Nat} (h : place ∈ p.places)
    (hchild : child ∈ (p.block place).children) :
    p.places.idxOf place < p.places.idxOf child := by
  obtain ⟨-, before, behind, heq, hchildren⟩ :=
    placesFrom_split hordered hordered.hasRoot (by omega) h
  have hbehind := hchildren child hchild
  have hplaces : p.places = before ++ place :: behind := heq
  rw [hplaces] at hnodup ⊢
  obtain ⟨-, hrest, hdisjoint⟩ := nodup_append.1 hnodup
  have hplace : place ∉ before := fun hmem => hdisjoint place hmem place mem_cons_self rfl
  have hne : place ≠ child := fun heq => (nodup_cons.1 hrest).1 (heq ▸ hbehind)
  have hchild' : child ∉ before := fun hmem =>
    hdisjoint child hmem child (mem_cons_of_mem _ hbehind) rfl
  rw [idxOf_append_of_notMem hplace, idxOf_append_of_notMem hchild', idxOf_cons_self,
    idxOf_cons_ne _ hne]
  omega

/-- More levels than there are blocks change nothing. -/
theorem treeFrom_add (levels more : Nat) (hplace : place < p.blocks.size)
    (hlevels : p.blocks.size ≤ place + levels) :
    p.treeFrom (levels + more) place = p.treeFrom levels place := by
  induction levels generalizing place with
  | zero => omega
  | succ levels ih =>
    rw [Nat.succ_add_eq_add_succ, Nat.add_succ, treeFrom, treeFrom]
    refine congrArg _ (map_congr_left fun child hchild => ?_)
    have hbehind := hordered.nested place hplace child hchild
    exact ih hbehind.2 (by omega)

end Places

/-! ## Programs with new numbers -/

/-- A walk that finds nothing wrong at any element finds nothing wrong. -/
theorem forM_of_ok {α ε : Type} {check : α → Except ε Unit} {xs : List α}
    (h : ∀ x ∈ xs, check x = .ok ()) : xs.forM check = .ok () := by
  induction xs with
  | nil => rfl
  | cons x rest ih =>
    show (check x >>= fun _ => rest.forM check) = _
    rw [h x mem_cons_self]
    exact ih fun y hy => h y (mem_cons_of_mem _ hy)

/-- The blocks of a tree have new numbers in another program. -/
structure Renumbers (p q : Program) (f : Nat → Nat) : Prop where
  root : f 0 = 0
  block : ∀ place ∈ p.places, q.block (f place) = (p.block place).renumber f
  size : q.blocks.size = p.places.length

namespace Renumbers

variable {p q : Program} {f : Nat → Nat}

variable (h : p.Renumbers q f)

include h

theorem treeFrom_eq (hordered : p.Ordered) (levels : Nat) :
    ∀ place ∈ p.places, q.treeFrom levels (f place) = p.treeFrom levels place := by
  induction levels with
  | zero => exact fun _ _ => rfl
  | succ levels ih =>
    intro place hplace
    rw [treeFrom, treeFrom, h.block place hplace, renumber_renumber, children_renumber,
      map_map]
    refine congrArg _ (map_congr_left fun child hchild => ?_)
    exact ih child (child_mem_places hordered hplace hchild)

/-- A program with new numbers stands for the same tree. -/
theorem tree_eq (hp : p.Ordered) (hq : q.Ordered) : q.tree = p.tree := by
  have hmore := h.treeFrom_eq hp (p.blocks.size + q.blocks.size) 0 (zero_mem_places hp)
  rw [h.root, treeFrom_add hp _ _ hp.hasRoot (by omega), Nat.add_comm,
    treeFrom_add hq _ _ hq.hasRoot (by omega)] at hmore
  exact hmore

variable {place : Nat}

theorem localBinds_eq (hordered : p.Ordered) (hplace : place ∈ p.places)
    (k : Int) : q.localBinds ((p.block place).renumber f) k = p.localBinds (p.block place) k := by
  unfold localBinds
  rw [nested?_renumber]
  cases hk : (p.block place).nested? k with
  | none => rfl
  | some child =>
    have hchild := child_mem_places hordered hplace (mem_children_of_nested? hk)
    show (q.block (f child)).binds.toList.filterMap _ = _
    rw [h.block child hchild]
    rfl

theorem reads_eq (hordered : p.Ordered) (hplace : place ∈ p.places) (ins : Instruction) :
    q.reads ((p.block place).renumber f) ins = p.reads (p.block place) ins := by
  unfold reads
  simp only [h.localBinds_eq hordered hplace]

omit h in
theorem checkOperand_eq (b : Block) (offset : Nat) (ins : Instruction) :
    checkOperand (b.renumber f) offset ins = checkOperand b offset ins := by
  have hsize : (b.renumber f).constants.size = b.constants.size := Array.size_map
  unfold checkOperand
  cases ins.op <;> simp only [hsize, nested?_renumber, Option.isNone_map, Option.isSome_map] <;> rfl

theorem checkInstruction_eq (hordered : p.Ordered) (hplace : place ∈ p.places)
    (offset : Nat) (ins : Instruction) :
    q.checkInstruction ((p.block place).renumber f) offset ins =
      p.checkInstruction (p.block place) offset ins := by
  have hreads : ∀ rs, checkReads ((p.block place).renumber f) offset ins.op rs =
      checkReads (p.block place) offset ins.op rs := by
    intro rs
    induction rs with
    | nil => rfl
    | cons r rest ih => rw [checkReads, checkReads, ih, slots_renumber]
  unfold checkInstruction
  rw [h.reads_eq hordered hplace, hreads, checkOperand_eq]
  rfl

theorem checkBlock_eq (hordered : p.Ordered) (hplace : place ∈ p.places)
    {parent parent' : Option Block} (hparent : checkBind parent' = checkBind parent) :
    q.checkBlock parent' ((p.block place).renumber f) = p.checkBlock parent (p.block place) := by
  have hcode : ∀ (code : List Instruction) (offset : Nat),
      q.checkCode ((p.block place).renumber f) offset code = p.checkCode (p.block place) offset code := by
    intro code
    induction code with
    | nil => exact fun _ => rfl
    | cons ins rest ih =>
      intro offset
      rw [checkCode, checkCode, h.checkInstruction_eq hordered hplace, ih]
  unfold checkBlock
  rw [hparent]
  simp only [hcode]
  rfl

theorem checkFrom_eq (hordered : p.Ordered) (levels : Nat) :
    ∀ place ∈ p.places, ∀ parent parent' : Option Block, checkBind parent' = checkBind parent →
      p.checkFrom levels parent place = .ok () → q.checkFrom levels parent' (f place) = .ok () := by
  induction levels with
  | zero => exact fun _ _ _ _ _ _ => rfl
  | succ levels ih =>
    intro place hplace parent parent' hparent hok
    rw [checkFrom] at hok ⊢
    rw [h.block place hplace, h.checkBlock_eq hordered hplace hparent]
    split at hok
    · rw [children_renumber]
      have hchildren := forM_ok hok
      refine forM_of_ok fun number hnumber => ?_
      obtain ⟨child, hchild, rfl⟩ := mem_map.1 hnumber
      exact ih child (child_mem_places hordered hplace hchild) (some (p.block place)) _ rfl
        (hchildren child hchild)
    · cases hok

end Renumbers

/-- What a walk finds nothing wrong with, a shorter one finds nothing wrong with. -/
theorem checkFrom_of_le {levels fewer : Nat} (hle : fewer ≤ levels) :
    ∀ (parent : Option Block) (place : Nat), p.checkFrom levels parent place = .ok () →
      p.checkFrom fewer parent place = .ok () := by
  induction fewer generalizing levels with
  | zero => exact fun _ _ _ => rfl
  | succ fewer ih =>
    intro parent place hok
    obtain ⟨levels, rfl⟩ := Nat.exists_eq_add_of_lt hle
    rw [checkFrom] at hok ⊢
    split at hok
    · have hchildren := forM_ok hok
      exact forM_of_ok fun child hchild =>
        ih (Nat.le_add_right _ levels) _ _ (hchildren child hchild)
    · cases hok

/-- A program with new numbers is valid if the program is. -/
theorem Renumbers.validate_ok {q : Program} {f : Nat → Nat} (h : p.Renumbers q f)
    (hordered : p.Ordered) (hnodup : p.places.Nodup) (hvalid : p.validate = .ok ()) :
    q.validate = .ok () := by
  have hle : q.blocks.size ≤ p.blocks.size := h.size ▸ length_places_le hordered hnodup
  have hfewer := checkFrom_of_le hle none 0 hvalid
  have hok := h.checkFrom_eq hordered q.blocks.size 0 (zero_mem_places hordered) none none rfl hfewer
  rwa [h.root] at hok

/-- Every block of the tree of a valid program is sound. -/
theorem sound_of_mem_places (hordered : p.Ordered) (hvalid : p.validate = .ok ())
    (hplace : place ∈ p.places) : (p.block place).Sound p.blocks := by
  have hall : ∀ (levels start : Nat), (p.block start).Sound p.blocks →
      ∀ place ∈ p.placesFrom levels start, (p.block place).Sound p.blocks := by
    intro levels
    induction levels with
    | zero => exact nofun
    | succ levels ih =>
      intro start hstart place hplace
      rcases mem_cons.1 hplace with rfl | hplace
      · exact hstart
      · obtain ⟨child, hchild, hplace⟩ := mem_flatMap.1 hplace
        exact ih child (hstart.nested child hchild) place hplace
  exact hall _ 0 (Program.validate_ok hordered hvalid).1 place hplace

end Program

end Inkwell
