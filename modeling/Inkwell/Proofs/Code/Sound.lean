import Mathlib.Tactic.Common
import Inkwell.Image.Basic

/-!
# What a valid program promises

`Program.validate` walks the blocks of a program and reports the first thing wrong. Here its verdict
is turned into a statement about the code: a block is sound in a list of blocks when every register,
constant, cell and target that an instruction names is there, and the blocks nested in it are sound
and take only cells that are there.

Soundness speaks about a list of blocks, not about a program, because a machine keeps the blocks of
all programs it has loaded in one list. It is kept when more blocks are added behind, and when the
blocks of a program move to another place of the list together with the references between them.

The walk is bounded by the number of blocks. It reaches every nested block because a nested block
stands behind the block it is nested in (`Program.Ordered`).
-/

namespace Inkwell

open List

variable {b : Block} {base offset place : Nat} {blocks code : Array Block} {ins : Instruction}
  {p : Program}

namespace Program

/-- The blocks of a program form a tree whose root is the first of them: a block nested in another
stands behind it. -/
structure Ordered (p : Program) : Prop where
  hasRoot : 0 < p.blocks.size
  nested : ∀ place < p.blocks.size, ∀ child ∈ (p.block place).children,
    place < child ∧ child < p.blocks.size

end Program

/-- Everything that an instruction of a block names is there. -/
structure Instruction.InBounds (code : Array Block) (b : Block) (offset : Nat) (ins : Instruction) :
    Prop where
  known : ∀ number, ins.op ≠ .unknown number
  writes : ∀ r, ins.writes? = some r → 0 ≤ r ∧ r < b.slots
  reads : ∀ r ∈ (⟨code⟩ : Program).reads b ins, 0 ≤ r ∧ r < b.slots
  constant : ins.op = .loadConstant ∨ ins.op = .constantIfEqual → (b.constant? ins.k).isSome
  nested : ins.op = .closure ∨ ins.op = .callArm ∨ ins.op = .callIfEqual → (b.nested? ins.k).isSome
  bind : ins.op = .loadEscaped ∨ ins.op = .storeEscaped → 0 ≤ ins.a ∧ ins.a < b.binds.size
  target : ins.op.isBranch → (offset : Int) < ins.target ∧ ins.target ≤ b.code.size

/-- A cell that a block takes from the block around it is there. -/
def Bind.Within (parent : Block) (bind : Bind) : Prop :=
  0 ≤ bind.index ∧ bind.index < if bind.isLocal then parent.slots else (parent.binds.size : Int)

namespace Block

/-- Everything that a block names is there, the blocks nested in it aside. -/
structure InBounds (code : Array Block) (b : Block) : Prop where
  params : b.params ≤ b.slots
  ret : 0 ≤ b.ret ∧ b.ret < b.slots
  instructions : ∀ (offset : Nat) (ins : Instruction), b.code[offset]? = some ins →
    ins.InBounds code b offset

/-- The block at a place of a list of blocks. -/
def at? (code : Array Block) (place : Nat) : Block := code[place]?.getD default

/-- A block in which everything that it or a block nested in it names is there. -/
inductive Sound (code : Array Block) : Block → Prop
  | intro {b : Block} (inBounds : b.InBounds code)
      (takes : ∀ child ∈ b.children, ∀ bind ∈ (at? code child).binds.toList, bind.Within b)
      (nested : ∀ child ∈ b.children, Sound code (at? code child)) : Sound code b

end Block

namespace Block.Sound

variable {code : Array Block} {b : Block}

theorem inBounds (h : Sound code b) : b.InBounds code := by
  cases h
  assumption

theorem takes (h : Sound code b) : ∀ child ∈ b.children,
    ∀ bind ∈ (at? code child).binds.toList, bind.Within b := by
  cases h
  assumption

theorem nested (h : Sound code b) : ∀ child ∈ b.children, Sound code (at? code child) := by
  cases h
  assumption

/-- A sound block has a register. -/
theorem slots_pos (h : Sound code b) : 0 < b.slots := by
  have hret := h.inBounds.ret
  omega

/-- The places of the blocks nested in a sound block are places of the list: the block that stands
in for a missing one has no register for its result. -/
theorem child_lt (h : Sound code b) {child : Nat} (hchild : child ∈ b.children) :
    child < code.size := by
  by_contra hlt
  have hdefault : at? code child = default := by
    simp [at?, Array.getElem?_eq_none (Nat.le_of_not_lt hlt)]
  have hpos := (h.nested child hchild).slots_pos
  rw [hdefault] at hpos
  exact absurd hpos (by decide)

end Block.Sound

theorem Block.mem_children_of_nested? {k : Int} (h : b.nested? k = some place) :
    place ∈ b.children := by
  unfold Block.nested? Block.constant? at h
  split at h
  · rename_i found hfound
    split at hfound
    · cases hfound
    · cases h
      unfold Block.children
      rw [mem_filterMap]
      exact ⟨_, Array.mem_toList_iff.mpr (Array.mem_of_getElem? hfound), rfl⟩
  · cases h

/-! ## From the verdict to soundness -/

namespace Program

theorem inRange_iff {i n : Int} : inRange i n = true ↔ 0 ≤ i ∧ i < n := by
  simp [inRange]

theorem checkReads_ok {op : Opcode} {rs : List Int} (h : checkReads b offset op rs = .ok ()) :
    ∀ r ∈ rs, 0 ≤ r ∧ r < b.slots := by
  induction rs with
  | nil =>
    intro r hr
    cases hr
  | cons first rest ih =>
    unfold checkReads at h
    split at h
    · rename_i hfirst
      intro r hr
      rcases mem_cons.mp hr with rfl | hr
      · exact inRange_iff.mp hfirst
      · exact ih h r hr
    · cases h

/-- From a computation that ends well, each part of it does. -/
theorem except_bind_ok {ε α β : Type} {x : Except ε α} {next : α → Except ε β} {b : β}
    (h : (x >>= next) = .ok b) : ∃ a, x = .ok a ∧ next a = .ok b := by
  cases x with
  | error e => cases h
  | ok a => exact ⟨a, rfl, h⟩

theorem constant?_isSome_of_inRange {k : Int} (h : inRange k b.constants.size = true) :
    (b.constant? k).isSome := by
  have hk := inRange_iff.mp h
  unfold Block.constant?
  rw [if_neg (by omega), Array.getElem?_eq_getElem (by omega)]
  rfl

/-- The parts of the check of an instruction, in the order they are made. -/
theorem checkInstruction_parts (h : checkInstruction p b offset ins = .ok ()) :
    (∀ number, ins.op ≠ .unknown number) ∧
      (∀ r, ins.writes? = some r → inRange r b.slots = true) ∧
      checkReads b offset ins.op (p.reads b ins) = .ok () ∧ checkOperand b offset ins = .ok () ∧
      ¬ (ins.op.isBranch && (ins.target ≤ offset || (b.code.size : Int) < ins.target)) = true := by
  have hrest : ∀ {rest : Except Invalidity Unit}, rest = .ok () →
      rest = (do
        checkReads b offset ins.op (p.reads b ins)
        checkOperand b offset ins
        if ins.op.isBranch && (ins.target ≤ offset || (b.code.size : Int) < ins.target) then
          throw (.badTarget offset ins.op ins.target)) →
      checkReads b offset ins.op (p.reads b ins) = .ok () ∧ checkOperand b offset ins = .ok () ∧
        ¬ (ins.op.isBranch && (ins.target ≤ offset || (b.code.size : Int) < ins.target)) = true := by
    intro rest hok hform
    rw [hform] at hok
    obtain ⟨_, hreads, hok⟩ := except_bind_ok hok
    obtain ⟨_, hoperand, htarget⟩ := except_bind_ok hok
    refine ⟨hreads, hoperand, fun hbad => ?_⟩
    rw [if_pos hbad] at htarget
    cases htarget
  unfold checkInstruction at h
  dsimp only at h
  split at h
  · cases h
  · rename_i hknown
    refine ⟨hknown, ?_⟩
    split at h
    · rename_i r hwrites
      split at h
      · rename_i hin
        refine ⟨fun r' hr' => ?_, hrest h rfl⟩
        rw [hwrites] at hr'
        cases hr'
        exact hin
      · cases h
    · rename_i hwrites
      refine ⟨fun r' hr' => ?_, hrest h rfl⟩
      rw [hwrites] at hr'
      cases hr'

theorem checkInstruction_ok (h : checkInstruction p b offset ins = .ok ()) :
    ins.InBounds p.blocks b offset := by
  obtain ⟨hknown, hwrites, hreads, hoperand, htarget⟩ := checkInstruction_parts h
  refine ⟨hknown, fun r hr => inRange_iff.mp (hwrites r hr), checkReads_ok hreads, ?_, ?_, ?_, ?_⟩
  · intro hop
    unfold checkOperand at hoperand
    rcases hop with hop | hop <;>
    · rw [hop] at hoperand
      dsimp only at hoperand
      split at hoperand
      · rename_i hin
        rw [Bool.and_eq_true] at hin
        exact constant?_isSome_of_inRange hin.1
      · cases hoperand
  · intro hop
    unfold checkOperand at hoperand
    rcases hop with hop | hop | hop <;>
    · rw [hop] at hoperand
      dsimp only at hoperand
      split at hoperand
      · assumption
      · cases hoperand
  · intro hop
    unfold checkOperand at hoperand
    rcases hop with hop | hop <;>
    · rw [hop] at hoperand
      dsimp only at hoperand
      split at hoperand
      · rename_i hin
        exact inRange_iff.mp hin
      · cases hoperand
  · intro hbranch
    simp only [hbranch, Bool.true_and, Bool.or_eq_true, decide_eq_true_eq, not_or, Int.not_le,
      Int.not_lt] at htarget
    exact htarget

theorem checkCode_ok {code : List Instruction} {start : Nat}
    (h : checkCode p b start code = .ok ()) :
    ∀ (i : Nat) (ins : Instruction), code[i]? = some ins →
      ins.InBounds p.blocks b (start + i) := by
  induction code generalizing start with
  | nil =>
    intro i ins hins
    simp at hins
  | cons first rest ih =>
    unfold checkCode at h
    obtain ⟨_, hfirst, hrest⟩ := except_bind_ok h
    intro i ins hins
    cases i with
    | zero =>
      simp only [getElem?_cons_zero, Option.some.injEq] at hins
      subst hins
      exact checkInstruction_ok hfirst
    | succ i =>
      have hin := ih hrest i ins (by simpa using hins)
      rwa [show start + (i + 1) = start + 1 + i by omega]

theorem checkBind_ok {parent : Block} {bind : Bind} (h : checkBind (some parent) bind = .ok ()) :
    bind.Within parent := by
  unfold checkBind at h
  unfold Bind.Within
  dsimp only at h
  split at h
  · rename_i hlocal
    split at h
    · rename_i hin
      rw [if_pos hlocal]
      exact inRange_iff.mp hin
    · cases h
  · rename_i hlocal
    split at h
    · rename_i hin
      rw [if_neg hlocal]
      exact inRange_iff.mp hin
    · cases h

theorem forM_ok {α ε : Type} {f : α → Except ε Unit} {xs : List α} (h : xs.forM f = .ok ()) :
    ∀ x ∈ xs, f x = .ok () := by
  induction xs with
  | nil =>
    intro x hx
    cases hx
  | cons first rest ih =>
    obtain ⟨_, hfirst, hrest⟩ := except_bind_ok h
    intro x hx
    rcases mem_cons.mp hx with rfl | hx
    · exact hfirst
    · exact ih hrest x hx

theorem checkBlock_ok {parent : Option Block} (h : checkBlock p parent b = .ok ()) :
    b.InBounds p.blocks ∧ ∀ bind ∈ b.binds.toList, checkBind parent bind = .ok () := by
  unfold checkBlock at h
  dsimp only at h
  split at h
  · cases h
  split at h
  · cases h
  rename_i hresult
  simp only [Bool.or_eq_true, decide_eq_true_eq, Bool.not_eq_true', not_or, Int.not_lt,
    Bool.not_eq_false] at hresult
  obtain ⟨_, hbinds, hcode⟩ := except_bind_ok h
  refine ⟨⟨hresult.1, inRange_iff.mp hresult.2, ?_⟩, forM_ok hbinds⟩
  intro offset ins hins
  have hin := checkCode_ok hcode offset ins (by simpa using hins)
  rwa [Nat.zero_add] at hin

theorem checkFrom_ok (hordered : p.Ordered) {levels : Nat} {parent : Option Block}
    (hplace : place < p.blocks.size) (hlevels : p.blocks.size ≤ place + levels)
    (h : p.checkFrom levels parent place = .ok ()) :
    (p.block place).Sound p.blocks ∧
      ∀ bind ∈ (p.block place).binds.toList, checkBind parent bind = .ok () := by
  induction levels generalizing parent place with
  | zero => omega
  | succ levels ih =>
    unfold checkFrom at h
    dsimp only at h
    split at h
    · rename_i hblock
      obtain ⟨hin, hbinds⟩ := checkBlock_ok hblock
      have hchildren := forM_ok h
      have hnested : ∀ child ∈ (p.block place).children,
          (p.block child).Sound p.blocks ∧ ∀ bind ∈ (p.block child).binds.toList,
            checkBind (some (p.block place)) bind = .ok () := by
        intro child hchild
        have hbehind := hordered.nested place hplace child hchild
        exact ih hbehind.2 (by omega) (hchildren child hchild)
      refine ⟨.intro hin ?_ fun child hchild => (hnested child hchild).1, hbinds⟩
      intro child hchild bind hbind
      exact checkBind_ok ((hnested child hchild).2 bind hbind)
    · cases h

/-- The root of a valid program is sound and takes no cells. -/
theorem validate_ok (hordered : p.Ordered) (h : p.validate = .ok ()) :
    p.root.Sound p.blocks ∧ p.root.binds = #[] := by
  obtain ⟨hsound, hbinds⟩ := checkFrom_ok hordered hordered.hasRoot (by omega) h
  refine ⟨hsound, ?_⟩
  cases hlist : p.root.binds.toList with
  | nil => simpa using congrArg List.toArray hlist
  | cons bind rest =>
    have hnone := hbinds bind (by rw [show p.block 0 = p.root from rfl, hlist]; exact .head _)
    cases hnone

end Program

/-! ## Moving blocks to another place -/

/-- A constant with the place of a nested block moved by `base`. -/
def Datum.moved (base : Nat) : Datum → Datum
  | .block place => .block (base + place)
  | d => d

/-- A block with the places of the nested blocks moved by `base`. -/
def Block.moved (base : Nat) (b : Block) : Block :=
  { b with constants := b.constants.map (Datum.moved base) }

namespace Block

variable {base : Nat} {b : Block}

@[simp] theorem binds_moved : (b.moved base).binds = b.binds := rfl

theorem constant?_moved (k : Int) :
    (b.moved base).constant? k = (b.constant? k).map (Datum.moved base) := by
  unfold constant?
  split
  · rfl
  · simp [moved]

theorem nested?_moved (k : Int) :
    (b.moved base).nested? k = (b.nested? k).map (base + ·) := by
  unfold nested?
  rw [constant?_moved]
  cases b.constant? k with
  | none => rfl
  | some d => cases d <;> rfl

theorem children_moved : (b.moved base).children = b.children.map (base + ·) := by
  unfold children moved
  rw [Array.toList_map]
  induction b.constants.toList with
  | nil => rfl
  | cons d rest ih => cases d <;> simp_all [Datum.moved]

end Block

/-- Whether the blocks of one list stand in another from the place `base` on, moved there. -/
def Block.Placed (blocks : Array Block) (base : Nat) (code : Array Block) : Prop :=
  ∀ place b, blocks[place]? = some b → code[base + place]? = some (b.moved base)

section

variable (hplaced : Block.Placed blocks base code)

include hplaced

theorem Program.reads_moved (hsound : b.Sound blocks) (ins : Instruction) :
    (⟨code⟩ : Program).reads (b.moved base) ins = (⟨blocks⟩ : Program).reads b ins := by
  have hlocal : ∀ k, (⟨code⟩ : Program).localBinds (b.moved base) k =
      (⟨blocks⟩ : Program).localBinds b k := by
    intro k
    unfold localBinds
    rw [Block.nested?_moved]
    cases hk : b.nested? k with
    | none => rfl
    | some place =>
      have hlt := hsound.child_lt (Block.mem_children_of_nested? hk)
      have hblock := hplaced place _ (Array.getElem?_eq_getElem hlt)
      simp [Program.block, hblock, Array.getElem?_eq_getElem hlt]
  unfold reads
  cases ins.op <;> simp [hlocal]

theorem Instruction.InBounds.moved (hsound : b.Sound blocks) (h : ins.InBounds blocks b offset) :
    ins.InBounds code (b.moved base) offset where
  known := h.known
  writes := h.writes
  reads := by
    rw [Program.reads_moved hplaced hsound]
    exact h.reads
  constant := by
    intro hop
    rw [Block.constant?_moved, Option.isSome_map]
    exact h.constant hop
  nested := by
    intro hop
    rw [Block.nested?_moved, Option.isSome_map]
    exact h.nested hop
  bind := h.bind
  target := h.target

/-- A sound block stays sound when all blocks move. -/
theorem Block.Sound.moved (h : b.Sound blocks) : (b.moved base).Sound code := by
  induction h with
  | @intro b hin htakes hnested ih =>
    have hsound : b.Sound blocks := .intro hin htakes hnested
    have hat : ∀ child ∈ b.children,
        at? code (base + child) = (at? blocks child).moved base := by
      intro child hchild
      have hlt := hsound.child_lt hchild
      simp [at?, hplaced child _ (Array.getElem?_eq_getElem hlt), Array.getElem?_eq_getElem hlt]
    refine .intro ⟨hin.params, hin.ret, ?_⟩ ?_ ?_
    · intro offset ins hins
      exact (hin.instructions offset ins hins).moved hplaced hsound
    · intro child hchild
      rw [children_moved] at hchild
      obtain ⟨inner, hinner, rfl⟩ := mem_map.mp hchild
      rw [hat inner hinner]
      exact htakes inner hinner
    · intro child hchild
      rw [children_moved] at hchild
      obtain ⟨inner, hinner, rfl⟩ := mem_map.mp hchild
      rw [hat inner hinner]
      exact ih inner hinner

end

theorem Block.moved_zero (b : Block) : b.moved 0 = b := by
  have hsame : Datum.moved 0 = fun d => d := by
    funext d
    cases d <;> simp [Datum.moved]
  simp [moved, hsame]

/-- A sound block stays sound when more blocks are added behind. -/
theorem Block.Sound.append {code more : Array Block} {b : Block} (h : b.Sound code) :
    b.Sound (code ++ more) := by
  have hplaced : Block.Placed code 0 (code ++ more) := by
    intro place b hb
    rw [Nat.zero_add, moved_zero]
    exact Array.getElem?_append_left (Array.getElem?_eq_some_iff.mp hb).1 ▸ hb
  have hmoved := h.moved hplaced
  rwa [moved_zero] at hmoved

/-! ## Programs that are read from images -/

namespace Image

variable {natives : List Text}

theorem mapM_ok {α β ε : Type} {f : α → Except ε β} {xs : List α} {ys : List β}
    (h : xs.mapM f = .ok ys) :
    xs.length = ys.length ∧ ∀ (i : Nat) (x : α), xs[i]? = some x →
      ∃ y, ys[i]? = some y ∧ f x = .ok y := by
  induction xs generalizing ys with
  | nil =>
    rw [mapM_nil] at h
    cases h
    exact ⟨rfl, fun i x hx => by simp at hx⟩
  | cons first rest ih =>
    rw [mapM_cons] at h
    obtain ⟨y, hfirst, h⟩ := Program.except_bind_ok h
    obtain ⟨others, hrest, h⟩ := Program.except_bind_ok h
    cases h
    obtain ⟨hlength, hmem⟩ := ih hrest
    refine ⟨by simp [hlength], fun i x hx => ?_⟩
    cases i with
    | zero =>
      simp only [getElem?_cons_zero, Option.some.injEq] at hx
      subst hx
      exact ⟨y, rfl, hfirst⟩
    | succ i =>
      obtain ⟨z, hz, hf⟩ := hmem i x (by simpa using hx)
      exact ⟨z, by simpa using hz, hf⟩

/-- A nested block of an image stands behind the block it is nested in. -/
theorem constantOf_block {count k child : Nat} {block : Text} {r : ConstantRecord}
    (h : constantOf natives count place block k r = .ok (.block child)) :
    place < child ∧ child < count := by
  unfold constantOf at h
  split at h <;> try cases h
  · split at h <;> cases h
  · split at h
    · cases h
    · rename_i hrange
      simp only [Bool.or_eq_true, decide_eq_true_eq, not_or, Int.not_le] at hrange
      simp only [Except.ok.injEq, Datum.block.injEq] at h
      omega

theorem blockOf_children {count : Nat} {r : BlockRecord}
    (h : blockOf natives count place r = .ok b) :
    ∀ child ∈ b.children, place < child ∧ child < count := by
  unfold blockOf at h
  obtain ⟨constants, hconstants, h⟩ := Program.except_bind_ok h
  obtain ⟨code, -, h⟩ := Program.except_bind_ok h
  cases h
  intro child hchild
  unfold Block.children at hchild
  rw [List.mem_filterMap] at hchild
  obtain ⟨d, hd, hblock⟩ := hchild
  obtain ⟨i, hi⟩ := List.getElem?_of_mem hd
  obtain ⟨hlength, hmem⟩ := mapM_ok hconstants
  have hlt : i < (r.constants.zipIdx).length := by
    rw [hlength]
    exact (List.getElem?_eq_some_iff.mp hi).1
  obtain ⟨d', hd', hof⟩ := hmem i _ (List.getElem?_eq_getElem hlt)
  have hsame : d = d' := by
    have hi' : constants[i]? = some d := hi
    rw [hd'] at hi'
    exact (Option.some.inj hi').symm
  subst hsame
  cases d <;> simp only [reduceCtorEq, Option.some.injEq] at hblock
  subst hblock
  exact constantOf_block hof

theorem records_ne_nil {data : Text} {rs : List BlockRecord} (h : records data = .ok rs) :
    rs ≠ [] := by
  rintro rfl
  unfold records at h
  dsimp only at h
  split at h
  · cases h
  split at h
  · cases h
  split at h
  · cases h
  split at h <;> cases h
  contradiction

/-- An image that can be read gives a valid program whose blocks form a tree. -/
theorem decode_ok {data : Text} (h : decode natives data = .ok p) :
    p.Ordered ∧ p.validate = .ok () := by
  unfold decode at h
  obtain ⟨rs, hrecords, h⟩ := Program.except_bind_ok h
  obtain ⟨blocks, hblocks, h⟩ := Program.except_bind_ok h
  obtain ⟨hlength, hmem⟩ := mapM_ok hblocks
  rw [length_zipIdx] at hlength
  dsimp only at h
  split at h
  · rename_i hvalid
    cases h
    refine ⟨⟨?_, ?_⟩, hvalid⟩
    · have hpos := length_pos_iff.mpr (records_ne_nil hrecords)
      simpa [hlength] using hpos
    · intro place hplace child hchild
      have hplace' : place < rs.length := by simpa [hlength] using hplace
      obtain ⟨b, hb, hof⟩ := hmem place (rs[place], place) (by simp [hplace'])
      have hblock : (⟨blocks.toArray⟩ : Program).block place = b := by
        simp [Program.block, hb]
      rw [hblock] at hchild
      have hbehind := blockOf_children hof child hchild
      simpa [hlength] using hbehind
  · cases h

end Image

end Inkwell
