import Inkwell.Heap.Composite
import Inkwell.Machine.Basic

/-!
# Instructions

What one instruction does to a machine. A call of a function adds a frame, and a call in tail
position takes over the frame of its caller. What a function of the host asks the machine to do in
turn is a parameter here.
-/

namespace Inkwell

namespace Machine

@[inline] def ofStore {α : Type} (f : Store → Except Fault α) : Action α := fun m =>
  match f m.store with
  | .ok a => .ok a m
  | .error cause => .error (.fault cause) m

@[inline] def datum (v : Value) : Action Datum := ofStore fun s => .ok (s.heap.datum v)

def load (d : Datum) : Action Value :=
  modifyGet fun m =>
    let (v, heap) := m.store.heap.load d
    (v, { m with store.heap := heap })

/-! ## Cells -/

@[inline] def readCell (place : Nat) : Action Value :=
  ofStore fun s =>
    match s.heap.objects[place]? with
    | some { body := .cell content, released := false, .. } => .ok content
    | _ => .error .releasedCell

/-- Puts a value into the cell at a place; what it replaces loses an owner. -/
def writeCell (place : Nat) (v : Value) : Action Unit := do
  let old ← readCell place
  retain v
  modifyHeap fun h =>
    { h with objects := h.objects.modify place fun o => { o with body := .cell v } }
  release old

@[inline] def cellIn (r : Int) : Action Nat := do
  match ← register r with
  | .cell place => return place
  | _ => fault (.notACell r)

@[inline] def cellOf (i : Int) : Action Nat :=
  ofFrame fun f => if i < 0 then none else f.cells[i.toNat]?

def newCell (content : Value) : Action Value :=
  modifyGet fun m =>
    let (place, heap) := (m.store.heap.retain content).newObject (.cell content)
    (.cell place, { m with store.heap := heap })

def takeCells : List Bind → Action (List Nat)
  | [] => return []
  | bind :: rest => do
    let place ←
      if bind.isLocal then cellIn bind.index
      else do
        let size ← ofFrame fun f => some f.cells.length
        if (size : Int) ≤ bind.index then fault (.bindOutOfRange bind.index)
        else cellOf bind.index
    return place :: (← takeCells rest)

/-- A block nested in the innermost block, by its place in the store, with the cells it takes. Each
of them gets one more owner. -/
def enterNested (k : Int) : Action (Nat × List Nat) := do
  match ← ofFrame fun f => some (f.block.nested? k) with
  | none => fault (.notABlock k)
  | some place =>
    let binds ← ofStore fun s => .ok (s.block place).binds.toList
    let cells ← takeCells binds
    modifyHeap fun h => cells.foldl Heap.retainObject h
    return (place, cells)

def newFunction (k : Int) : Action Value := do
  let (block, cells) ← enterNested k
  modifyGet fun m =>
    let (place, heap) := m.store.heap.newObject (.closure block cells)
    (.function place, { m with store.heap := heap })

/-! ## Calls -/

def emptyRegisters (n : Int) : Array Value := Array.replicate n.toNat .empty

/-- The registers with arguments in the first ones; surplus arguments stay out. -/
def placeArguments (registers : Array Value) (arguments : List Value) : Array Value :=
  (arguments.foldl (fun (registers, i) v => (registers.setIfInBounds i v, i + 1)) (registers, 0)).1

def functionAt (place : Nat) : Action (Nat × List Nat) :=
  ofStore fun s =>
    match s.heap.objects[place]? with
    | some { body := .closure block cells, released := false, .. } => .ok (block, cells)
    | _ => .error .releasedFunction

@[inline] def blockAt (place : Nat) : Action Block := ofStore fun s => .ok (s.block place)

/-- Calls a function; the result goes to the register `dest` of the innermost frame. -/
def callFunction (dest : Int) (place : Nat) (arguments : List Value) : Action Unit := do
  let (blockPlace, cells) ← functionAt place
  let block ← blockAt blockPlace
  let given := arguments.take block.params.toNat
  modifyHeap fun h => (h.retainAll given).retainObject place
  pushFrame {
    block, cells
    function := some place
    registers := placeArguments (emptyRegisters block.slots) given
    destination := dest }

/-- Removes what the registers of the innermost frame own; it gets new empty ones. -/
def resetRegisters (n : Int) : Action Unit := do
  let old ← ofFrame fun f => some f.registers.toList
  modifyFrame fun f => { f with registers := emptyRegisters n }
  releaseAll old

def leaveEnvironment : Action Unit := do
  let old ← ofFrame fun f => some f.environment
  modifyFrame fun f => { f with function := none, cells := [], ownsCells := false }
  releaseAll old

/-- Calls a function in place of the one of the innermost frame. -/
def replaceFunction (place : Nat) (arguments : List Value) : Action Unit := do
  let (blockPlace, cells) ← functionAt place
  let block ← blockAt blockPlace
  modifyHeap fun h => h.retainAll arguments
  let same ← ofFrame fun f => some (f.function == some place)
  if same then resetRegisters block.slots
  else
    modifyHeap fun h => h.retainObject place
    resetRegisters block.slots
    leaveEnvironment
    modifyFrame fun f => { f with block, function := some place, cells }
  let params := block.params.toNat
  modifyFrame fun f => { f with
    registers := placeArguments f.registers (arguments.take params)
    counter := 0 }
  releaseAll (arguments.drop params)

/-- Gives a result to the register `dest` of the innermost frame; if that is negative, nothing
owns the result. -/
def give (dest : Int) (result : Value) : Action Unit := do
  if 0 ≤ dest then setRegister dest result
  else
    retain result
    release result

/-- What a function of the host does; the machine and the function share the store. -/
def native (n : Native) (arguments : List Value) : Action Reply
  | { store, frames, depth, peak, maxFrames, natives, cancelled } =>
    match n.run arguments store with
    | .ok reply store => .ok reply { store, frames, depth, peak, maxFrames, natives, cancelled }
    | .error cause store =>
      .error (.fault cause) { store, frames, depth, peak, maxFrames, natives, cancelled }

def nativeAt (id : Int) : Action Native := do
  let natives := (← get).natives
  match if id < 0 then none else natives[id.toNat]? with
  | some n => return n
  | none => fault (.unknownNative id)

variable (perform : Reply → Action Value)

/-- Calls a function of the host; `perform` does what it asks for. -/
def callNative (id : Int) (arguments : List Value) : Action Value := do
  let n ← nativeAt id
  perform (← native n arguments)

def call (dest : Int) (callee : Value) (arguments : List Value) (tail : Bool) : Action Unit := do
  match callee with
  | .native id => give dest (← callNative perform id arguments)
  | .function place =>
    if tail then replaceFunction place arguments else callFunction dest place arguments
  | v => fault (.cannotCall (← datum v).typeName)

/-- Runs the block of an arm; the result goes to the register `dest`, or, in tail position, to where
the result of the innermost frame goes. -/
def callArm (dest k : Int) (tail : Bool) : Action Unit := do
  let (place, cells) ← enterNested k
  let block ← blockAt place
  if tail then
    resetRegisters block.slots
    leaveEnvironment
    modifyFrame fun f => { f with block, cells, ownsCells := true, counter := 0 }
  else
    pushFrame {
      block, cells
      ownsCells := true
      registers := emptyRegisters block.slots
      destination := dest }

/-! ## Elements -/

def element (container key : Value) : Action Value := do
  let k ← datum key
  match container with
  | .composite place => ofStore fun s => s.heap.getElement place k
  | .string buffer =>
    let d ← ofStore fun s => s.heap.byteAt buffer k
    load d
  | v =>
    let type := (← datum v).typeName
    ofStore fun s => .error (.cannotAccess (s.inspect key) type)

def assign (container key v : Value) : Action Unit := do
  let k ← datum key
  match container with
  | .composite place =>
    let label ← ofStore fun s => s.heap.elementKey place k
    modifyHeap fun h => (h.retain v).putElement place label v
  | .string buffer =>
    let (offset, bytes) ← ofStore fun s => s.heap.byteRange buffer k (s.heap.datum v)
    modifyHeap fun h => h.writeBytes buffer offset bytes
  | container =>
    let type := (← datum container).typeName
    ofStore fun s => .error (.cannotAssign (s.inspect key) type)

/-! ## One instruction -/

def areEqual (a b : Int) : Action Bool := do
  let x ← register a
  let y ← register b
  ofStore fun s => .ok (s.heap.equal x y)

@[inline] def goTo (target : Int) : Action Unit :=
  modifyFrame fun f => { f with counter := target.toNat }

def setResult (dest : Int) (result : Except Fault Datum) : Action Unit := do
  match result with
  | .ok d => setRegister dest (← load d)
  | .error cause => fault cause

/-- Does one instruction of the innermost frame, which already goes on behind it. -/
def step (ins : Instruction) : Action Unit := do
  match ins.op with
  | .nop => return
  | .move => setRegister ins.dest (← register ins.a)
  | .loadConstant => setRegister ins.dest (← loadConstant ins.k)
  | .loadEscaped => setRegister ins.dest (← readCell (← cellOf ins.a))
  | .storeEscaped => writeCell (← cellOf ins.a) (← register ins.b)
  | .makeCell =>
    let content ← if 0 ≤ ins.a then register ins.a else pure .empty
    setRegister ins.dest (← newCell content)
  | .loadCell => setRegister ins.dest (← readCell (← cellIn ins.a))
  | .storeCell => writeCell (← cellIn ins.a) (← register ins.b)
  | .closure => setRegister ins.dest (← newFunction ins.k)
  | .call =>
    let arguments ← registers ins.args
    call perform ins.dest (← register ins.a) arguments ins.tail
  | .tailCall =>
    let arguments ← registers ins.args
    call perform ins.dest (← register ins.a) arguments true
  | .callIfEqual =>
    if ← areEqual ins.a ins.b then
      goTo ins.target
      callArm ins.dest ins.k ins.tail
  | .constantIfEqual =>
    if ← areEqual ins.a ins.b then
      setRegister ins.dest (← loadConstant ins.k)
      goTo ins.target
  | .callArm =>
    goTo ins.target
    callArm ins.dest ins.k ins.tail
  | .jump => goTo ins.target
  | .matchFail =>
    let subject ← register ins.a
    ofStore fun s => .error (.noMatch (s.inspect subject))
  | .makeComposite =>
    let v ← modifyGet fun m =>
      let (v, heap) := m.store.heap.newComposite
      (v, { m with store.heap := heap })
    setRegister ins.dest v
  | .setElement => assign (← register ins.a) (← register ins.b) (← register ins.c)
  | .getElement => setRegister ins.dest (← element (← register ins.a) (← register ins.b))
  | .negate => setResult ins.dest (← datum (← register ins.a)).negate
  | .operate op =>
    let a ← datum (← register ins.a)
    let b ← datum (← register ins.b)
    setResult ins.dest (op.apply a b)
  | .unknown code => fault (.unknownOpcode code)

end Machine

end Inkwell
