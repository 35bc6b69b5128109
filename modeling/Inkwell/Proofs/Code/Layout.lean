import Mathlib
import Inkwell.Proofs.Code.Writing
import Inkwell.Proofs.Scope.Units

/-!
# How code is laid out

What the finished code of a program looks like, said without the steps in which it was written. The
code of an expression stands between two marks of the block of its unit: so many instructions, so
many registers in use and so many nested blocks before it, and so many behind it. The result is in a
register that is new in between.

The rules follow the expressions (`Layout.HasExpr`). A function and an arm have a block of their own,
which takes cells from the unit around it (`Draft.Links`).
-/

namespace Inkwell

namespace Compile

/-- How far the code of a unit has come: the number of its instructions and of its registers, and the
places of the blocks nested in it. -/
@[ext] structure Mark where
  offset : Nat
  registers : Nat
  children : List Nat

namespace Mark

/-- One more instruction. -/
def next (s : Mark) : Mark := { s with offset := s.offset + 1 }

/-- One more register. -/
def fresh (s : Mark) : Mark := { s with registers := s.registers + 1 }

/-- One more nested block. -/
def nest (s : Mark) (place : Nat) : Mark := { s with children := s.children ++ [place] }

end Mark

/-- A finished unit takes a cell for a binding from the unit around it: that holds the binding, which
escapes, or takes a cell for it as well. -/
def Draft.Takes (r : Resolution) (child parent : Draft) (binding place : Nat) : Prop :=
  (r.bindings[binding]?.getD default).escapes = true ∧
    ((∃ slot : Nat, parent.slots[binding]? = some slot ∧
        child.block.binds[place]? = some ⟨true, slot⟩) ∨
      (parent.slots[binding]? = none ∧ ∃ outer : Nat, parent.captured[binding]? = some outer ∧
        child.block.binds[place]? = some ⟨false, outer⟩))

/-- The cells that a unit takes from the unit around it, each for one binding. -/
structure Draft.Links (r : Resolution) (child parent : Draft) : Prop where
  takes : ∀ binding place : Nat, child.captured[binding]? = some place →
    child.Takes r parent binding place
  taken : ∀ place < child.block.binds.size, ∃ binding : Nat, child.captured[binding]? = some place

/-- Where code is laid out: the blocks of the program, the finished drafts of its units by their
places, and that of the unit which is looked at. -/
structure Layout where
  setting : Setting
  blocks : Array Block
  units : Nat → Draft
  unit : Draft

namespace Layout

variable (L : Layout)

/-- An instruction stands at a mark, at the position of a token. -/
def HasCode (token : Token) (ins : Instruction) (s t : Mark) : Prop :=
  L.unit.block.code[s.offset]? = some { ins with position := token.position } ∧ t = s.next

/-- A datum is among the constants. -/
def HasConstant (value : Datum) (k : Nat) : Prop := L.unit.block.constants[k]? = some value

/-- A constant is loaded into a new register. -/
def HasLoad (value : Datum) (token : Token) (s t : Mark) (r : Nat) : Prop :=
  r = s.registers ∧ ∃ k : Nat, L.HasConstant value k ∧
    L.HasCode token { op := .loadConstant, dest := r, k } s.fresh t

/-- Whether a binding lives in a cell. -/
def escapes (binding : Nat) : Bool :=
  (L.setting.resolution.bindings[binding]?.getD default).escapes

/-- A binding is read into the register `dest`, from the register that the unit has for it or else from
the cell that it takes. -/
def HasReadFrom (binding : Nat) (token : Token) (dest : Nat) : Option Nat → Mark → Mark → Prop
  | some slot, s, t => L.HasCode token
      { op := if L.escapes binding then .loadCell else .move, dest, a := slot } s t
  | none, s, t => ∃ place : Nat, L.unit.captured[binding]? = some place ∧
      L.HasCode token { op := .loadEscaped, dest, a := place } s t

/-- A binding is read into a new register. -/
def HasRead (binding : Nat) (token : Token) (s t : Mark) (r : Nat) : Prop :=
  r = s.registers ∧ L.HasReadFrom binding token r L.unit.slots[binding]? s.fresh t

/-- A register is written into a binding, to the register that the unit has for it or else to the cell
that it takes. -/
def HasWriteTo (binding source : Nat) (token : Token) : Option Nat → Mark → Mark → Prop
  | some slot, s, t => L.HasCode token
      (if L.escapes binding then { op := .storeCell, a := slot, b := source }
        else { op := .move, dest := slot, a := source }) s t
  | none, s, t => ∃ place : Nat, L.unit.captured[binding]? = some place ∧
      L.HasCode token { op := .storeEscaped, a := place, b := source } s t

/-- A register is written into a binding. -/
def HasWrite (binding source : Nat) (token : Token) (s t : Mark) : Prop :=
  L.HasWriteTo binding source token L.unit.slots[binding]? s t

/-- The value of a name is read or loaded into a new register. -/
def HasName (token : Token) (s t : Mark) (r : Nat) : Prop :=
  match L.setting.resolution.reference? token with
  | some (.binding binding) => L.HasRead binding token s t r
  | some .global => ∃ id, L.setting.natives token.lexeme = some id ∧ L.HasLoad (.native id) token s t r
  | none => False

/-- The block at a place is that of a unit: a draft and the register of its result. -/
structure IsUnit (unit : CodeUnit) (parameters : Nat) (token : Token) (place : Nat) (child : Draft)
    (ret : Nat) : Prop where
  block : L.blocks[place]? = some (child.sealed ret)
  id : child.block.id = place
  slots : child.slots = (assignSlots L.setting.resolution parameters (L.setting.held unit)).1
  params : child.block.params = parameters
  fits : L.setting.resolution.Fits unit parameters
  cells : ∀ (i : Nat) (ins : Instruction), (L.setting.cells unit parameters)[i]? = some ins →
    child.block.code[i]? = some { ins with position := token.position }
  registers : child.registers ≤ Program.maxRegisters

/-- The layout of another unit of the program. -/
def of (child : Draft) : Layout := { L with unit := child }

variable {L} in
theorem IsUnit.of {unit : CodeUnit} {parameters place ret : Nat} {token : Token} {child : Draft}
    (h : L.IsUnit unit parameters token place child ret) (other : Draft) :
    (L.of other).IsUnit unit parameters token place child ret :=
  ⟨h.block, h.id, h.slots, h.params, h.fits, h.cells, h.registers⟩

/-- Where the code of a unit starts. -/
def start (unit : CodeUnit) (parameters : Nat) : Mark where
  offset := (L.setting.cells unit parameters).length
  registers := (assignSlots L.setting.resolution parameters (L.setting.held unit)).2
  children := []

/-- Where the code of the unit ends. -/
def finish : Mark where
  offset := L.unit.block.code.size
  registers := L.unit.registers
  children := L.unit.block.children

/-- The block at a place is that of a unit nested in this one, and `body` says what its code is. -/
def HasUnit (unit : CodeUnit) (parameters : Nat) (token : Token) (place : Nat)
    (body : Layout → Mark → Mark → Nat → Prop) : Prop :=
  ∃ ret, L.IsUnit unit parameters token place (L.units place) ret ∧
    (L.units place).Links L.setting.resolution L.unit ∧
      body (L.of (L.units place)) (L.start unit parameters) (L.of (L.units place)).finish ret

end Layout

namespace Layout

mutual

/-- The code of an expression stands between two marks, with the result in a register. -/
def HasExpr : Layout → Expr → Bool → Mark → Mark → Nat → Prop
  | L, .number token n, _, s, t, r => L.HasLoad (.number n) token s t r
  | L, .string token text, _, s, t, r => L.HasLoad (.string text) token s t r
  | L, .boolean token b, _, s, t, r => L.HasLoad (.boolean b) token s t r
  | L, .empty token, _, s, t, r => L.HasLoad .empty token s t r
  | L, .name token, _, s, t, r => L.HasName token s t r
  | L, .negate token operand, _, s, t, r =>
    ∃ m a, HasExpr L operand false s m a ∧ r = m.registers ∧
      L.HasCode token { op := .negate, dest := r, a := a } m.fresh t
  | L, .binary token left right, _, s, t, r =>
    ∃ op, Operator.ofSymbol? token.lexeme = some op ∧ ∃ m a, HasExpr L left false s m a ∧
      ∃ m' b, HasExpr L right false m m' b ∧ r = m'.registers ∧
        L.HasCode token { op := .operate op, dest := r, a := a, b := b } m'.fresh t
  | L, .define token goal value, _, s, t, r =>
    ∃ m, HasExpr L value false s m r ∧ HasTarget L token r goal m t
  | L, .access token container key, _, s, t, r =>
    ∃ m a, HasExpr L container false s m a ∧ ∃ m' b, HasExpr L key false m m' b ∧
      r = m'.registers ∧ L.HasCode token { op := .getElement, dest := r, a := a, b := b } m'.fresh t
  | L, .call token callee inner, tail, s, t, r =>
    ∃ m a, HasExpr L callee false s m a ∧ ∃ m' args, HasArguments L inner m m' args ∧
      r = m'.registers ∧
        L.HasCode token { op := .call, dest := r, a := a, args := args.map Int.ofNat, tail } m'.fresh t
  | L, .choose token subject cases, tail, s, t, r =>
    ∃ m a, HasExpr L subject false s m a ∧ r = m.registers ∧
      HasArms L a r tail token t.offset cases m.fresh t
  | L, .group token inner, tail, s, t, r =>
    ∃ m result, HasSequence L inner tail s m result ∧
      match result with
      | some last => r = last ∧ t = m
      | none => L.HasLoad .empty token m t r
  | L, .list token inner, _, s, t, r =>
    r = s.registers ∧ ∃ m, L.HasCode token { op := .makeComposite, dest := r } s.fresh m ∧
      HasElements L r 0 inner m t
  | L, .object token inner, _, s, t, r =>
    r = s.registers ∧ ∃ m, L.HasCode token { op := .makeComposite, dest := r } s.fresh m ∧
      HasEntries L r inner m t
  | L, .function token _ parameters body, _, s, t, r =>
    ∃ place, L.HasUnit (.function token.index) parameters.length token place
        (fun L s t r => HasExpr L body true s t r) ∧
      ∃ k : Nat, L.HasConstant (.block place) k ∧ r = s.registers ∧
        L.HasCode token { op := .closure, dest := r, k } (s.nest place).fresh t

/-- The code that writes the register `source` to the target of a definition. -/
def HasTarget : Layout → Token → Nat → Expr → Mark → Mark → Prop
  | L, token, source, .name place, s, t =>
    ∃ binding, L.setting.resolution.reference? place = some (.binding binding) ∧
      L.HasWrite binding source token s t
  | _, _, _, .empty _, s, t => t = s
  | L, token, source, .access _ container key, s, t =>
    ∃ m a, HasExpr L container false s m a ∧ ∃ m' b, HasExpr L key false m m' b ∧
      L.HasCode token { op := .setElement, a := a, b := b, c := source } m' t
  | _, _, _, _, _, _ => False

/-- The code of several expressions, with the result of the last one. -/
def HasSequence : Layout → List Expr → Bool → Mark → Mark → Option Nat → Prop
  | _, [], _, s, t, result => t = s ∧ result = none
  | L, [e], tail, s, t, result => ∃ r, HasExpr L e tail s t r ∧ result = some r
  | L, e :: rest, tail, s, t, result =>
    ∃ m r, HasExpr L e false s m r ∧ HasSequence L rest tail m t result

/-- The code of the arguments of a call, with their registers. -/
def HasArguments : Layout → List Expr → Mark → Mark → List Nat → Prop
  | _, [], s, t, args => t = s ∧ args = []
  | L, e :: rest, s, t, args =>
    ∃ m r, HasExpr L e false s m r ∧ ∃ others, HasArguments L rest m t others ∧ args = r :: others

/-- The code that puts the elements of a list, from the one at `index` on, into a composite. -/
def HasElements : Layout → Nat → Nat → List Expr → Mark → Mark → Prop
  | _, _, _, [], s, t => t = s
  | L, dest, index, e :: rest, s, t =>
    ∃ m c, HasExpr L e false s m c ∧ ∃ m' b, L.HasLoad (.number (Number.ofNat index)) e.token m m' b ∧
      ∃ m'', L.HasCode e.token { op := .setElement, a := dest, b := b, c := c } m' m'' ∧
        HasElements L dest (index + 1) rest m'' t

/-- The code that puts the entries of an object into a composite. -/
def HasEntries : Layout → Nat → List Entry → Mark → Mark → Prop
  | _, _, [], s, t => t = s
  | L, dest, .mk key value :: rest, s, t =>
    ∃ m b, HasExpr L key false s m b ∧ ∃ m' c, HasExpr L value false m m' c ∧
      ∃ m'', L.HasCode key.token { op := .setElement, a := dest, b := b, c := c } m' m'' ∧
        HasEntries L dest rest m'' t

/-- The code of the arms of a choice, which goes on at `target`. -/
def HasArms : Layout → Nat → Nat → Bool → Token → Nat → List Arm → Mark → Mark → Prop
  | L, subject, _, _, choice, _, [], s, t => L.HasCode choice { op := .matchFail, a := subject } s t
  | L, _, dest, tail, _, target, .otherwise token body :: _, s, t =>
    match body.literal? with
    | some value => ∃ k : Nat, L.HasConstant value k ∧
        ∃ m, L.HasCode token { op := .loadConstant, dest, k } s m ∧
          L.HasCode token { op := .jump, target } m t
    | none => ∃ place, L.HasUnit (.arm token.index) 0 token place
          (fun L s t r => HasExpr L body true s t r) ∧
        ∃ k : Nat, L.HasConstant (.block place) k ∧
          L.HasCode token { op := .callArm, dest, k, tail, target } (s.nest place) t
  | L, subject, dest, tail, choice, target, .case token pattern body :: rest, s, t =>
    ∃ m b, HasExpr L pattern false s m b ∧
      match body.literal? with
      | some value => ∃ k : Nat, L.HasConstant value k ∧
          ∃ m', L.HasCode token
              { op := .constantIfEqual, dest, a := subject, b := b, k, target } m m' ∧
            HasArms L subject dest tail choice target rest m' t
      | none => ∃ place, L.HasUnit (.arm token.index) 0 token place
            (fun L s t r => HasExpr L body true s t r) ∧
          ∃ k : Nat, L.HasConstant (.block place) k ∧
            ∃ m', L.HasCode token
                { op := .callIfEqual, dest, a := subject, b := b, k, tail, target } (m.nest place) m' ∧
              HasArms L subject dest tail choice target rest m' t

end

end Layout

end Compile

/-- The code of a program, whose units have the given drafts: the block of the whole program is the
first, and takes no cells. -/
def Script.LaidOut (setting : Compile.Setting) (script : Script) (units : Nat → Compile.Draft)
    (p : Program) : Prop :=
  let L : Compile.Layout := ⟨setting, p.blocks, units, units 0⟩
  ∃ ret, L.IsUnit .program 0 script.token 0 (units 0) ret ∧
    (∀ binding : Nat, (units 0).captured[binding]? = none) ∧ (units 0).block.binds = #[] ∧
      L.HasExpr script.body true (L.start .program 0) L.finish ret

end Inkwell
