import Inkwell.Machine.Step

/-!
# Runs

A run repeats single instructions until the frame it started with has ended. A frame that has no
instruction left gives its result to the frame below. When an instruction fails, the run ends with
an error that says where, and the frames of the run are removed. The number of steps is bounded by a
fuel argument; a run that uses it up is unfinished, and more fuel keeps the outcome of any other.
-/

namespace Inkwell

/-- The failure of something the host called for, as an error of a run without a place. -/
def Failure.unplaced : Failure → Failure
  | .outOfRange => .outOfRange
  | .unfinished => .unfinished
  | failure => .run { message := failure.message, overflow := failure.isOverflow }

namespace Machine

/-- The number of instructions between two looks at whether the run has been called off. -/
def checkInterval : Nat := 1000

def activeFrames (m : Machine) (base : Nat) : List Frame := m.frames.take (m.depth - base)

def unwind : Nat → Action Unit
  | 0 => return
  | n + 1 => do
    popFrame
    unwind n

/-- The error of a run that fails at a position, with the active blocks above the first `base`
frames. -/
def runError (m : Machine) (base : Nat) (position : Position) : Failure → Failure
  | .fault cause => .run {
      message := cause.message
      position
      trace := (m.activeFrames base).map fun f => (f.block.name, f.position)
      overflow := cause = .stackOverflow }
  | failure => failure

def fail {α : Type} (base : Nat) (position : Position) (failure : Failure) : Action α := do
  let m ← get
  let error := m.runError base position failure
  unwind (m.depth - base)
  throw error

/-- The outcome of an action, which is not a failure of what comes after it. -/
@[inline] def attempt {α : Type} (action : Action α) : Action (Except Failure α) := fun m =>
  match action m with
  | .ok a m => .ok (.ok a) m
  | .error failure m => .ok (.error failure) m

inductive Next where
  | finish (result : Value) (destination : Int)
  | perform (ins : Instruction)

@[inline] def next : Action Next := ofFrame fun f =>
  if h : f.counter < f.block.code.size then some (.perform f.block.code[f.counter])
  else (f.register? f.block.ret).map fun result => .finish result f.destination

def loadProgram (p : Program) : Action Nat :=
  modifyGet fun m =>
    let base := m.store.code.size
    let relocate : Datum → Datum
      | .block place => .block (base + place)
      | d => d
    let blocks := p.blocks.map fun b => { b with constants := b.constants.map relocate }
    (base, { m with store.code := m.store.code ++ blocks })

/-- Adds the frame of a program's root block; no program may be running. -/
def startProgram (p : Program) : Action Unit := do
  if (← get).depth ≠ 0 then fault .alreadyRunning
  let block ← blockAt (← loadProgram p)
  pushFrame { block, registers := emptyRegisters block.slots }

/-- An action whose failures have no place in a program. -/
def unplaced {α : Type} (action : Action α) : Action α := fun m =>
  match action m with
  | .ok a m => .ok a m
  | .error failure m => .error failure.unplaced m

mutual

/-- Runs until there are `base` frames, and gives the result of the frame above them; `since` counts
the instructions since the last look at whether the run has been called off. -/
def execute : Nat → Nat → Nat → Action Value
  | 0, _, _ => throw .unfinished
  | fuel + 1, base, since => do
    match ← next with
    | .finish result destination =>
      retain result
      popFrame
      if (← get).depth = base then return result
      setRegister destination result
      release result
      execute fuel base since
    | .perform ins =>
      let since := if since + 1 < checkInterval then since + 1 else 0
      if since = 0 && (← get).cancelled then fail base ins.position (.fault .cancelled)
      modifyFrame fun f => { f with counter := f.counter + 1 }
      match ← attempt (step (perform fuel) ins) with
      | .ok () => execute fuel base since
      | .error failure => fail base ins.position failure

def perform : Nat → Reply → Action Value
  | _, .answer v => return v
  | 0, _ => throw .unfinished
  | fuel + 1, .call (.native id) arguments => do
    let n ← nativeAt id
    let result ← unplaced do perform fuel (← native n arguments)
    retain result
    return result
  | fuel + 1, .call (.function place) arguments => do
    let _ ← functionAt place
    let base := (← get).depth
    unplaced (callFunction (-1) place arguments)
    execute fuel base 0
  | _ + 1, .call v _ => do fault (.cannotCall (← datum v).typeName)
  | fuel + 1, .run p => do
    startProgram p
    execute fuel 0 0

end

/-- More steps than any run takes. -/
def enoughFuel : Nat := 1 <<< 60

def run (p : Program) : Action Value := perform enoughFuel (.run p)

def callValue (callee : Value) (arguments : List Value) : Action Value :=
  perform enoughFuel (.call callee arguments)

end Machine

end Inkwell
