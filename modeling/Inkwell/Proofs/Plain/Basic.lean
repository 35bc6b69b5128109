import Inkwell.Machine.Native
import Inkwell.Machine.Run

/-!
# A machine without owners

The same instructions on a machine that does not count owners, never releases anything and has no
limit on its frames. One round is a function of its state, with no action in between, and the only
functions of the host are the standard ones.

What a program does on such a machine is what it does on any: the counts decide when something is
released, and nothing that a program can still reach ever is.
-/

namespace Inkwell

variable {f : Activation} {r : Int}

/-- The activation of a block, without what it is an owner of. -/
structure Activation where
  block : Block
  /-- The cells of the block, by the places of their objects. -/
  cells : List Nat
  registers : Array Value
  /-- The number of the next instruction. -/
  counter : Nat
  /-- The register of the activation below that receives the result. -/
  destination : Int

/-- A running machine without owners: its store and its activations, innermost first. -/
structure Plain where
  store : Store
  frames : List Activation

/-- What is there, or the failure of code that names what is not. -/
def orOutside {α : Type} : Option α → Except Failure α
  | some a => .ok a
  | none => .error .outOfRange

/-- A fault of an operation as a failure of the machine. -/
def orFault {α : Type} : Except Fault α → Except Failure α
  | .ok a => .ok a
  | .error cause => .error (.fault cause)

theorem ok_of_orFault {α : Type} {e : Except Fault α} {a : α} (h : orFault e = .ok a) : e = .ok a := by
  cases e <;> cases h
  rfl

namespace Activation

/-- The value in a register. -/
def register? (f : Activation) (r : Int) : Option Value :=
  if r < 0 then none else f.registers[r.toNat]?

/-- The value in a register, which has to be there. -/
def register (f : Activation) (r : Int) : Except Failure Value := orOutside (f.register? r)

/-- The activation with another value in a register. -/
def put (f : Activation) (r : Int) (v : Value) : Activation :=
  { f with registers := f.registers.setIfInBounds r.toNat v }

theorem register_of_some {v : Value} (h : f.register? r = some v) :
    f.register r = .ok v := by
  unfold register
  rw [h]
  rfl

theorem register?_put {old : Value} (h : f.register? r = some old) (v : Value) :
    (f.put r v).register? r = some v := by
  unfold register? at h ⊢
  split at h
  · cases h
  · rename_i hr
    obtain ⟨hlt, -⟩ := Array.getElem?_eq_some_iff.mp h
    rw [if_neg hr]
    exact Array.getElem?_setIfInBounds_self_of_lt hlt

/-- What is found in some registers is in one of them. -/
theorem exists_register? (f : Activation) {rs : List Int} {vs : List Value}
    (h : orOutside (rs.mapM f.register?) = .ok vs) : ∀ v ∈ vs, ∃ r ∈ rs, f.register? r = some v := by
  unfold orOutside at h
  split at h
  case h_2 => cases h
  rename_i found hfound
  cases h
  induction rs generalizing vs with
  | nil =>
    cases hfound
    exact nofun
  | cons r rest ih =>
    rw [List.mapM_cons] at hfound
    obtain ⟨w, hw, hfound⟩ := Option.bind_eq_some_iff.1 hfound
    obtain ⟨ws, hws, hfound⟩ := Option.bind_eq_some_iff.1 hfound
    cases hfound
    refine List.forall_mem_cons.2 ⟨⟨r, List.mem_cons_self, hw⟩, fun v hv => ?_⟩
    obtain ⟨r', hr', hv⟩ := ih hws v hv
    exact ⟨r', List.mem_cons_of_mem _ hr', hv⟩

/-- The activation that goes on at an instruction. -/
def goTo (f : Activation) (target : Int) : Activation := { f with counter := target.toNat }

/-- The place of the cell in a register. -/
def cellIn (f : Activation) (r : Int) : Except Failure Nat := do
  match ← f.register r with
  | .cell place => return place
  | _ => .error (.fault (.notACell r))

/-- The place of one of the cells of the block. -/
def cellOf (f : Activation) (i : Int) : Except Failure Nat :=
  orOutside (if i < 0 then none else f.cells[i.toNat]?)

/-- The cell that a nested block takes. -/
def takeCell (f : Activation) (bind : Bind) : Except Failure Nat :=
  if bind.isLocal then f.cellIn bind.index
  else if (f.cells.length : Int) ≤ bind.index then .error (.fault (.bindOutOfRange bind.index))
  else f.cellOf bind.index

/-- The cells that a nested block takes. -/
def takeCells (f : Activation) : List Bind → Except Failure (List Nat)
  | [] => return []
  | bind :: rest => do
    let place ← f.takeCell bind
    return place :: (← f.takeCells rest)

/-- A nested block with the cells it takes. -/
def enterNested (f : Activation) (s : Store) (k : Int) : Except Failure (Nat × List Nat) :=
  match f.block.nested? k with
  | none => .error (.fault (.notABlock k))
  | some place => do
    let cells ← f.takeCells (s.block place).binds.toList
    return (place, cells)

/-- A block with cells about to do its first instruction. -/
def begin (block : Block) (cells : List Nat) (arguments : List Value) (destination : Int) :
    Activation where
  block
  cells
  registers := Machine.placeArguments (Machine.emptyRegisters block.slots)
    (arguments.take block.params.toNat)
  counter := 0
  destination

end Activation

namespace Store

/-- The content of the cell at a place. -/
def cell (s : Store) (place : Nat) : Except Failure Value :=
  match s.heap.objects[place]? with
  | some { body := .cell content, released := false, .. } => .ok content
  | _ => .error (.fault .releasedCell)

/-- The block and the cells of the function at a place. -/
def function (s : Store) (place : Nat) : Except Failure (Nat × List Nat) :=
  match s.heap.objects[place]? with
  | some { body := .closure block cells, released := false, .. } => .ok (block, cells)
  | _ => .error (.fault .releasedFunction)

/-- The store with new contents of the object at a place. -/
def setBody (s : Store) (place : Nat) (body : Body) : Store :=
  { s with heap.objects := s.heap.objects.modify place fun o => { o with body } }

/-- The place of a new object, and the store with it. -/
def create (s : Store) (body : Body) : Nat × Store :=
  let (place, heap) := s.heap.newObject body
  (place, { s with heap })

/-- The value of a datum, and the store with its string. -/
def load (s : Store) (d : Datum) : Value × Store :=
  let (v, heap) := s.heap.load d
  (v, { s with heap })

/-- The answer of a standard function. -/
def ask (s : Store) (id : Int) (arguments : List Value) : Except Failure (Value × Store) :=
  match if id < 0 then none else Natives.standard[id.toNat]? with
  | none => .error (.fault (.unknownNative id))
  | some n =>
    match n.run arguments s with
    | .ok (.answer v) s => .ok (v, s)
    | .ok _ _ => .error .unfinished
    | .error cause _ => .error (.fault cause)

/-- The element of a container under a key. -/
def element (s : Store) (container key : Value) : Except Failure (Value × Store) :=
  match container with
  | .composite place => do
    let v ← orFault (s.heap.getElement place (s.heap.datum key))
    return (v, s)
  | .string buffer => do
    let d ← orFault (s.heap.byteAt buffer (s.heap.datum key))
    return s.load d
  | v => .error (.fault (.cannotAccess (s.inspect key) (s.heap.datum v).typeName))

/-- The store in which a container has a value under a key. -/
def assign (s : Store) (container key v : Value) : Except Failure Store :=
  match container with
  | .composite place => do
    let c ← orFault (s.heap.composite place)
    let label ← orFault (Key.ofDatum (s.heap.datum key))
    return s.setBody place (.composite (c.set label v).1)
  | .string buffer => do
    let (offset, bytes) ← orFault (s.heap.byteRange buffer (s.heap.datum key) (s.heap.datum v))
    return { s with heap := s.heap.writeBytes buffer offset bytes }
  | container => .error (.fault (.cannotAssign (s.inspect key) (s.heap.datum container).typeName))

end Store

namespace Plain

variable {s : Plain}
variable (f : Activation) (below : List Activation)

/-- Puts a value into a register. -/
def give (dest : Int) : Value × Store → Except Failure Plain
  | (v, s) => do
    let _ ← f.register dest
    return ⟨s, f.put dest v :: below⟩

theorem give_of_some {f : Activation} {below : List Activation} {old : Value}
    (h : f.register? r = some old) (v : Value) (s : Store) :
    give f below r (v, s) = .ok ⟨s, f.put r v :: below⟩ := by
  simp only [give, Activation.register_of_some h]
  rfl

/-- Runs a block, on top of the innermost activation or in place of it. -/
def enter (s : Store) (dest : Int) (tail : Bool) (block : Block) (cells : List Nat)
    (arguments : List Value) : Plain :=
  if tail then ⟨s, .begin block cells arguments f.destination :: below⟩
  else ⟨s, .begin block cells arguments dest :: f :: below⟩

/-- Calls a value. -/
def call (s : Store) (dest : Int) (callee : Value) (arguments : List Value) (tail : Bool) :
    Except Failure Plain :=
  match callee with
  | .native id => do
    let (v, s) ← s.ask id arguments
    if 0 ≤ dest then give f below dest (v, s) else return ⟨s, f :: below⟩
  | .function place => do
    let (block, cells) ← s.function place
    return enter f below s dest tail (s.block block) cells arguments
  | v => .error (.fault (.cannotCall (s.heap.datum v).typeName))

/-- Runs the block of an arm. -/
def callArm (s : Store) (dest k : Int) (tail : Bool) : Except Failure Plain := do
  let (place, cells) ← f.enterNested s k
  return enter f below s dest tail (s.block place) cells []

/-- Whether the values in two registers are equal. -/
def areEqual (s : Store) (a b : Int) : Except Failure Bool := do
  let x ← f.register a
  let y ← f.register b
  return s.heap.equal x y

/-- Does one instruction of the activation `f`, which already goes on behind it. -/
def step (s : Store) (ins : Instruction) : Except Failure Plain := do
  match ins.op with
  | .nop => return ⟨s, f :: below⟩
  | .move => give f below ins.dest (← f.register ins.a, s)
  | .loadConstant => give f below ins.dest (s.load (← orOutside (f.block.constant? ins.k)))
  | .loadEscaped => give f below ins.dest (← s.cell (← f.cellOf ins.a), s)
  | .storeEscaped =>
    let place ← f.cellOf ins.a
    let v ← f.register ins.b
    let _ ← s.cell place
    return ⟨s.setBody place (.cell v), f :: below⟩
  | .makeCell =>
    let content ← if 0 ≤ ins.a then f.register ins.a else pure .empty
    let (place, s) := s.create (.cell content)
    give f below ins.dest (.cell place, s)
  | .loadCell => give f below ins.dest (← s.cell (← f.cellIn ins.a), s)
  | .storeCell =>
    let place ← f.cellIn ins.a
    let v ← f.register ins.b
    let _ ← s.cell place
    return ⟨s.setBody place (.cell v), f :: below⟩
  | .closure =>
    let (block, cells) ← f.enterNested s ins.k
    let (place, s) := s.create (.closure block cells)
    give f below ins.dest (.function place, s)
  | .call =>
    let arguments ← orOutside (ins.args.mapM f.register?)
    call f below s ins.dest (← f.register ins.a) arguments ins.tail
  | .tailCall =>
    let arguments ← orOutside (ins.args.mapM f.register?)
    call f below s ins.dest (← f.register ins.a) arguments true
  | .callIfEqual =>
    if ← areEqual f s ins.a ins.b then callArm (f.goTo ins.target) below s ins.dest ins.k ins.tail
    else return ⟨s, f :: below⟩
  | .constantIfEqual =>
    if ← areEqual f s ins.a ins.b then
      give (f.goTo ins.target) below ins.dest (s.load (← orOutside (f.block.constant? ins.k)))
    else return ⟨s, f :: below⟩
  | .callArm => callArm (f.goTo ins.target) below s ins.dest ins.k ins.tail
  | .jump => return ⟨s, f.goTo ins.target :: below⟩
  | .matchFail => .error (.fault (.noMatch (s.inspect (← f.register ins.a))))
  | .makeComposite =>
    let (place, s) := s.create (.composite {})
    give f below ins.dest (.composite place, s)
  | .setElement =>
    let s ← s.assign (← f.register ins.a) (← f.register ins.b) (← f.register ins.c)
    return ⟨s, f :: below⟩
  | .getElement => give f below ins.dest (← s.element (← f.register ins.a) (← f.register ins.b))
  | .negate =>
    let a ← f.register ins.a
    give f below ins.dest (s.load (← orFault (s.heap.datum a).negate))
  | .operate op =>
    let a ← f.register ins.a
    let b ← f.register ins.b
    give f below ins.dest (s.load (← orFault (op.apply (s.heap.datum a) (s.heap.datum b))))
  | .unknown code => .error (.fault (.unknownOpcode code))

/-- What a round leads to. -/
inductive Round where
  | goesOn (s : Plain)
  | ended (result : Value) (s : Store)
  | failed (failure : Failure) (position : Position) (s : Store)

/-- The round in which an instruction at a position leads to an outcome. -/
def Round.ofOutcome (position : Position) (s : Store) : Except Failure Plain → Round
  | .ok next => .goesOn next
  | .error failure => .failed failure position s

/-- What becomes of the result of an activation that has ended. -/
def handOn (result : Value) (s : Store) (destination : Int) : List Activation → Round
  | [] => .ended result s
  | g :: rest => .ofOutcome {} s (give g rest destination (result, s))

/-- One round: the innermost activation ends and gives its result to the one below, or does one
instruction. -/
def turn : Plain → Round
  | ⟨s, []⟩ => .failed .outOfRange {} s
  | ⟨s, f :: below⟩ =>
    match f.block.code[f.counter]? with
    | some ins => .ofOutcome ins.position s (step { f with counter := f.counter + 1 } below s ins)
    | none =>
      match f.register f.block.ret with
      | .ok result => handOn result s f.destination below
      | .error failure => .failed failure {} s

/-- What follows a round, unless it was the last. -/
def Round.andThen (next : Plain → Round) : Round → Round
  | .goesOn s => next s
  | round => round

/-- What `n` rounds lead to. -/
def run : Nat → Plain → Round
  | 0, s => .goesOn s
  | n + 1, s => s.turn.andThen (run n)

/-- The highest number of activations during `n` rounds. -/
def height : Nat → Plain → Nat
  | 0, s => s.frames.length
  | n + 1, s =>
    match s.turn with
    | .goesOn next => max s.frames.length (height n next)
    | _ => s.frames.length

/-! ## Rounds one after another -/

theorem turn_of_instruction {s : Store} {f : Activation} {below : List Activation}
    {ins : Instruction} (h : f.block.code[f.counter]? = some ins) :
    turn ⟨s, f :: below⟩ =
      .ofOutcome ins.position s (step { f with counter := f.counter + 1 } below s ins) := by
  simp only [turn, h]

theorem turn_of_end {s : Store} {f : Activation} {below : List Activation}
    (h : f.block.code[f.counter]? = none) :
    turn ⟨s, f :: below⟩ =
      match f.register f.block.ret with
      | .ok result => handOn result s f.destination below
      | .error failure => .failed failure {} s := by
  simp only [turn, h]

theorem run_of_goesOn {next : Plain} (h : s.turn = .goesOn next) (n : Nat) :
    run (n + 1) s = run n next := by
  rw [run, h]
  rfl

theorem height_of_goesOn {next : Plain} (h : s.turn = .goesOn next) (n : Nat) :
    height (n + 1) s = max s.frames.length (height n next) := by
  rw [height, h]

theorem length_le_height (n : Nat) (s : Plain) : s.frames.length ≤ height n s := by
  cases n with
  | zero => exact Nat.le_refl _
  | succ n =>
    unfold height
    split
    · exact Nat.le_max_left _ _
    · exact Nat.le_refl _

theorem Round.andThen_run_zero (round : Round) : round.andThen (run 0) = round := by
  cases round <;> rfl

theorem run_add (m n : Nat) (s : Plain) : run (m + n) s = (run m s).andThen (run n) := by
  induction m generalizing s with
  | zero =>
    rw [Nat.zero_add]
    rfl
  | succ m ih =>
    rw [Nat.add_right_comm, run, run]
    cases s.turn with
    | goesOn next => exact ih next
    | ended result t => rfl
    | failed failure position t => rfl

/-- The rounds that come later do not bring the highest number down. -/
theorem height_le_add {m : Nat} {next : Plain} (h : run m s = .goesOn next) (n : Nat) :
    height n next ≤ height (m + n) s := by
  induction m generalizing s with
  | zero =>
    cases h
    exact Nat.le_of_eq (by rw [Nat.zero_add])
  | succ m ih =>
    rw [run] at h
    cases hturn : s.turn with
    | goesOn between =>
      rw [hturn] at h
      rw [Nat.add_right_comm, height_of_goesOn hturn]
      exact Nat.le_trans (ih h) (Nat.le_max_right _ _)
    | ended result t =>
      rw [hturn] at h
      cases h
    | failed failure position t =>
      rw [hturn] at h
      cases h

end Plain

end Inkwell
