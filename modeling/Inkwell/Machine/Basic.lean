import Inkwell.Code.Block
import Inkwell.Fault
import Inkwell.Heap.Inspect
import Inkwell.Heap.Release

/-!
# The machine

The state of a machine that runs programs: the code it has loaded, the heap, its output, the
functions of the host, and a frame for every activation of a block that has not ended yet.
-/

namespace Inkwell

/-- Where a program writes to: what has been written, and why nothing can be written, if so. -/
structure Output where
  text : Text := ""
  refusal : Option Text := none
deriving Inhabited

/-- What the functions of the host can see of a machine. -/
structure Store where
  code : Array Block := #[]
  heap : Heap := {}
  output : Output := {}
deriving Inhabited

namespace Store

def block (s : Store) (place : Nat) : Block := s.code[place]?.getD default

def inspect (s : Store) (v : Value) : Text := s.heap.inspect (fun place => (s.block place).inspect) v

def display (s : Store) (v : Value) : Text := s.heap.display (fun place => (s.block place).inspect) v

end Store

/-- What a function of the host does once it has looked at its arguments. -/
inductive Reply where
  | answer (v : Value)
  | call (function : Value) (arguments : List Value)
  | run (program : Program)

structure Native where
  name : Text
  run : List Value → EStateM Fault Store Reply

abbrev Natives := Array Native

namespace Natives

def number? (ns : Natives) (name : Text) : Option Nat := ns.findIdx? (·.name == name)

/-- The functions with one more; one of the same name is replaced and keeps its number. -/
@[inline] def register (ns : Natives) (n : Native) : Natives :=
  match ns.number? n.name with
  | some id => ns.setIfInBounds id n
  | none => ns.push n

def names (ns : Natives) : List Text := ns.toList.map (·.name)

end Natives

structure Frame where
  block : Block
  /-- The function that runs, by the place of its object; programs and arms are none. -/
  function : Option Nat := none
  cells : List Nat := []
  /-- Whether the frame is an owner of its cells; those of a function belong to the function. -/
  ownsCells : Bool := false
  registers : Array Value := #[]
  counter : Nat := 0
  /-- The register of the frame below that receives the result; negative if the host does. -/
  destination : Int := -1
deriving Inhabited

namespace Frame

@[inline] def register? (f : Frame) (r : Int) : Option Value :=
  if r < 0 then none else f.registers[r.toNat]?

/-- The position of the instruction before the next one. -/
def position (f : Frame) : Position :=
  if f.counter = 0 then {}
  else
    match f.block.code[f.counter - 1]? with
    | some ins => ins.position
    | none => {}

/-- The function that runs in a frame, and the cells the frame is an owner of. -/
def environment (f : Frame) : List Value :=
  f.function.toList.map .function ++ if f.ownsCells then f.cells.map .cell else []

def owned (f : Frame) : List Value := f.registers.toList ++ f.environment

end Frame

/-- A failed run: why, at which instruction, and the blocks that were active, innermost first. -/
structure RunError where
  message : Text
  position : Position := {}
  trace : List (Text × Position) := []
  overflow : Bool := false
deriving DecidableEq, Inhabited

namespace RunError

/-- The active blocks, one on a line of its own, under a heading; nothing if there are none. -/
def renderTrace (e : RunError) : Text :=
  if e.trace.isEmpty then ""
  else "\nStack trace:" ++
    Text.concat (e.trace.map fun (name, position) => "\n  at " ++ name ++ ":" ++ position.render)

def render (e : RunError) : Text :=
  "runtime error at " ++ e.position.render ++ ": " ++ e.message ++ e.renderTrace

end RunError

inductive Failure where
  | fault (cause : Fault)
  | run (error : RunError)
  /-- The code names a register, constant or cell that is not there. No valid program does. -/
  | outOfRange
  /-- The run has taken as many steps as it may. -/
  | unfinished
deriving Inhabited

namespace Failure

def message : Failure → Text
  | fault cause => cause.message
  | run error => error.render
  | outOfRange => "index out of range"
  | unfinished => "too many steps"

def isOverflow : Failure → Bool
  | fault cause => cause = .stackOverflow
  | run error => error.overflow
  | outOfRange | unfinished => false

end Failure

structure Machine where
  store : Store := {}
  frames : List Frame := []
  depth : Nat := 0
  peak : Nat := 0
  maxFrames : Nat := 100000
  natives : Natives := #[]
  cancelled : Bool := false
deriving Inhabited

/-- An action of a machine, which leaves a machine behind whether it fails or not. -/
abbrev Action := EStateM Failure Machine

namespace Machine

def defaultMaxFrames : Nat := 100000

/-- The machine with another limit on the number of frames; the default if it is not positive. -/
def limitFrames (m : Machine) (n : Int) : Machine :=
  { m with maxFrames := if n ≤ 0 then defaultMaxFrames else n.toNat }

@[inline] def fault {α : Type} (cause : Fault) : Action α := throw (.fault cause)

@[inline] def modifyHeap (f : Heap → Heap) : Action Unit :=
  modify fun m => { m with store.heap := f m.store.heap }

@[inline] def modifyFrame (f : Frame → Frame) : Action Unit :=
  modify fun m =>
    match m with
    | { store, frames := top :: below, depth, peak, maxFrames, natives, cancelled } =>
      { store, frames := f top :: below, depth, peak, maxFrames, natives, cancelled }
    | m => m

@[inline] def ofFrame {α : Type} (f : Frame → Option α) : Action α := fun m =>
  match m.frames with
  | top :: _ =>
    match f top with
    | some a => .ok a m
    | none => .error .outOfRange m
  | [] => .error .outOfRange m

@[inline] def register (r : Int) : Action Value := ofFrame (·.register? r)

def registers (rs : List Int) : Action (List Value) := ofFrame fun f => rs.mapM f.register?

@[inline] def release (v : Value) : Action Unit :=
  if v.isOwned then modifyHeap (·.release v) else return

@[inline] def releaseAll (vs : List Value) : Action Unit := modifyHeap (·.releaseAll vs)

@[inline] def retain (v : Value) : Action Unit :=
  if v.isOwned then modifyHeap (·.retain v) else return

/-- Writes a value into a register of the innermost frame; what it replaces loses an owner. -/
@[inline] def setRegister (r : Int) (v : Value) : Action Unit := do
  let old ← register r
  retain v
  modifyFrame fun f => { f with registers := f.registers.setIfInBounds r.toNat v }
  release old

/-- Loads a constant of the innermost block; a string gets a buffer of its own. -/
@[inline] def loadConstant (k : Int) : Action Value := do
  let d ← ofFrame (·.block.constant? k)
  modifyGet fun m =>
    let (v, heap) := m.store.heap.load d
    (v, { m with store.heap := heap })

/-- Adds a frame, unless there are too many; then what it owns loses an owner. -/
def pushFrame (f : Frame) : Action Unit := do
  let m ← get
  if m.maxFrames ≤ m.depth then
    releaseAll f.owned
    fault .stackOverflow
  else
    modify fun m => { m with
      frames := f :: m.frames
      depth := m.depth + 1
      peak := max m.peak (m.depth + 1) }

def popFrame : Action Unit := do
  let owned ← ofFrame fun f => some f.owned
  modify fun m => { m with frames := m.frames.tail, depth := m.depth - 1 }
  releaseAll owned

end Machine

end Inkwell
