import Inkwell.Code.Valid
import Inkwell.Diagnostic
import Inkwell.Expr.Printer
import Inkwell.Scope.Escape

/-!
# From expressions to code

The code of a program whose names are resolved. Every unit becomes a block. Its parameters are in
the first registers, its other bindings in the next, and every intermediate result has a register of
its own. A binding that escapes lives in a cell; a unit that refers to a binding of a unit around it
takes the cell along the chain of units between them.
-/

namespace Inkwell

def Expr.literal? : Expr → Option Datum
  | .number _ n => some (.number n)
  | .string _ t => some (.string t)
  | .boolean _ b => some (.boolean b)
  | .empty _ => some .empty
  | _ => none

namespace Compile

/-- The block of a unit while its code is being written. -/
structure Draft where
  block : Block := {}
  place : Nat := 0
  slots : Std.HashMap Nat Nat := {}
  /-- The places of the cells taken from the units around, by binding. -/
  captured : Std.HashMap Nat Nat := {}
  known : Std.HashMap Datum Nat := {}
  registers : Nat := 0
deriving Inhabited

namespace Draft

def emit (d : Draft) (ins : Instruction) : Draft :=
  { d with block.code := d.block.code.push ins }

/-- The place of a constant, and the draft that has it. -/
def constant (d : Draft) (value : Datum) : Nat × Draft :=
  match d.known[value]? with
  | some place => (place, d)
  | none =>
    let place := d.block.constants.size
    (place, { d with
      block.constants := d.block.constants.push value
      known := d.known.insert value place })

def nested (d : Draft) (place : Nat) : Nat × Draft :=
  (d.block.constants.size, { d with
    block.constants := d.block.constants.push (.block place) })

def take (d : Draft) (binding : Nat) (bind : Bind) : Draft :=
  { d with
    captured := d.captured.insert binding d.block.binds.size
    block.binds := d.block.binds.push bind }

/-- The place of the cell through which a unit reaches a binding of a unit around it, and the drafts
of the unit and of those around it, nearest first. -/
def capture (binding : Nat) (d : Draft) : List Draft → Nat × Draft × List Draft
  | [] => ((d.captured[binding]?).getD 0, d, [])
  | parent :: outer =>
    match d.captured[binding]? with
    | some place => (place, d, parent :: outer)
    | none =>
      match parent.slots[binding]? with
      | some slot => (d.block.binds.size, d.take binding ⟨true, slot⟩, parent :: outer)
      | none =>
        let (place, parent, outer) := capture binding parent outer
        (d.block.binds.size, d.take binding ⟨false, place⟩, parent :: outer)

end Draft

structure Setting where
  natives : Text → Option Nat
  file : Text
  resolution : Resolution
  /-- The bindings of every unit, the latest first. -/
  frames : Std.HashMap CodeUnit (List Nat)

/-- The code written so far: the finished blocks, the drafts of the current unit and of those around
it, nearest first, and the problems found, latest first. -/
structure State where
  blocks : Array Block := #[]
  current : Draft := {}
  outer : List Draft := []
  problems : List Diagnostic := []

abbrev Writing := ReaderT Setting (StateM State)

def report (problem : Problem) (token : Token) : Writing Unit := do
  let file := (← read).file
  modify fun st => { st with
    problems := { problem, position := token.position, file } :: st.problems }

def newRegister : Writing Nat :=
  modifyGet fun st =>
    (st.current.registers, { st with current.registers := st.current.registers + 1 })

def emit (token : Token) (ins : Instruction) : Writing Unit :=
  modify fun st =>
    { st with current := st.current.emit { ins with position := token.position } }

def codeSize : Writing Nat := return (← get).current.block.code.size

def constant (value : Datum) : Writing Nat :=
  modifyGet fun st =>
    let (place, current) := st.current.constant value
    (place, { st with current })

def loadConstant (value : Datum) (token : Token) : Writing Nat := do
  let dest ← newRegister
  let k ← constant value
  emit token { op := .loadConstant, dest, k }
  return dest

def capture (binding : Nat) : Writing Nat :=
  modifyGet fun st =>
    let (place, current, outer) := st.current.capture binding st.outer
    (place, { st with current, outer })

def slot? (binding : Nat) : Writing (Option Nat) := return (← get).current.slots[binding]?

def escapes (binding : Nat) : Writing Bool :=
  return ((← read).resolution.bindings[binding]?.getD default).escapes

def loadBinding (binding : Nat) (token : Token) : Writing Nat := do
  let dest ← newRegister
  match ← slot? binding with
  | some slot =>
    let op : Opcode := if ← escapes binding then .loadCell else .move
    emit token { op, dest, a := slot }
  | none =>
    let a ← capture binding
    emit token { op := .loadEscaped, dest, a }
  return dest

def storeBinding (binding : Nat) (source : Nat) (token : Token) : Writing Unit := do
  match ← slot? binding with
  | some slot =>
    if ← escapes binding then emit token { op := .storeCell, a := slot, b := source }
    else emit token { op := .move, dest := slot, a := source }
  | none =>
    let a ← capture binding
    emit token { op := .storeEscaped, a, b := source }

def name (token : Token) : Writing Nat := do
  let setting ← read
  match setting.resolution.reference? token with
  | some (.binding binding) => loadBinding binding token
  | some .global =>
    match setting.natives token.lexeme with
    | some id => loadConstant (.native id) token
    | none =>
      report (.undefinedName token.lexeme) token
      loadConstant .empty token
  | none =>
    report (.undefinedName token.lexeme) token
    loadConstant .empty token

/-- The name and the number of parameters of the function that a call of an expression surely
calls. -/
def callee? (r : Resolution) : Expr → Option (Text × Nat)
  | .function _ name parameters _ => some (name, parameters.length)
  | .group _ [e] => callee? r e
  | .name token =>
    match r.reference? token with
    | some (.binding place) =>
      r.bindings[place]?.bind fun b => if b.definitions = 1 then b.function else none
    | _ => none
  | _ => none

/-- Reports a call with more arguments than the function that it surely calls has parameters. -/
def checkCall (token : Token) (callee : Expr) (arguments : Nat) : Writing Unit := do
  match callee? (← read).resolution callee with
  | some (name, parameters) =>
    if parameters < arguments then
      let name : Text := if name.isEmpty then "function" else name
      report (.surplusArguments name parameters arguments) token
  | none => return

/-- The registers of the bindings of a unit with `parameters` parameters, and the number of
registers taken. -/
def assignSlots (r : Resolution) (parameters : Nat) (places : List Nat) :
    Std.HashMap Nat Nat × Nat :=
  places.foldl (fun (slots, next) place =>
    match (r.bindings[place]?.getD default).parameter with
    | some i => (slots.insert place i, next)
    | none => (slots.insert place next, next + 1)) ({}, parameters)

/-- Starts the block of a unit: the bindings get their registers, and those that escape their
cells. -/
def openUnit (unit : CodeUnit) (name : Text) (parameters : Nat) (token : Token) : Writing Unit := do
  let setting ← read
  let places := (setting.frames[unit]?.getD []).reverse
  let (slots, registers) := assignSlots setting.resolution parameters places
  modify fun st =>
    let place := st.blocks.size
    { st with
      blocks := st.blocks.push {}
      outer := st.current :: st.outer
      current := { block := { id := place, name, params := parameters }, place, slots, registers } }
  for place in places do
    let b := setting.resolution.bindings[place]?.getD default
    if b.escapes then
      let slot := slots[place]?.getD 0
      emit token
        { op := .makeCell, dest := slot, a := if b.parameter.isSome then (slot : Int) else -1 }

/-- Finishes the block of the current unit, whose value is in the register `result`, and gives its
place in the program. -/
def closeUnit (result : Option Nat) (token : Token) : Writing Nat := do
  let ret ← match result with
    | some r => pure r
    | none => loadConstant .empty token
  let draft := (← get).current
  if Program.maxRegisters < draft.registers then
    report (.tooManyRegisters draft.block.name draft.registers Program.maxRegisters) token
  modify fun st =>
    let block := { draft.block with ret, slots := draft.registers }
    { st with
      blocks := st.blocks.setIfInBounds draft.place block
      current := st.outer.headD {}
      outer := st.outer.tail }
  return draft.place

def nested (place : Nat) : Writing Nat :=
  modifyGet fun st =>
    let (k, current) := st.current.nested place
    (k, { st with current })

def armName : Writing Text := return (← get).current.block.name ++ "/arm"

/-- Lets branches go on behind the last instruction. -/
def patch (branches : List Nat) : Writing Unit :=
  modify fun st =>
    let target := st.current.block.code.size
    let code := branches.foldl (fun (code : Array Instruction) i =>
      code.modify i fun ins => { ins with target }) st.current.block.code
    { st with current.block.code := code }

mutual

/-- The code of an expression; its value is in the register given back. The value of an expression
in tail position is the result of the unit. -/
def expr : Expr → Bool → Writing Nat
  | .number token n, _ => loadConstant (.number n) token
  | .string token t, _ => loadConstant (.string t) token
  | .boolean token b, _ => loadConstant (.boolean b) token
  | .empty token, _ => loadConstant .empty token
  | .name token, _ => name token
  | .negate token operand, _ => do
    let a ← expr operand false
    let dest ← newRegister
    emit token { op := .negate, dest, a }
    return dest
  | .binary token left right, _ => do
    match Operator.ofSymbol? token.lexeme with
    | none =>
      report (.unknownOperator token.lexeme) token
      loadConstant .empty token
    | some op =>
      let a ← expr left false
      let b ← expr right false
      let dest ← newRegister
      emit token { op := .operate op, dest, a, b }
      return dest
  | .define token goal value, _ => do
    let source ← expr value false
    target token source goal
    return source
  | .access token container key, _ => do
    let a ← expr container false
    let b ← expr key false
    let dest ← newRegister
    emit token { op := .getElement, dest, a, b }
    return dest
  | .call token callee inner, tail => do
    checkCall token callee inner.length
    let a ← expr callee false
    let args ← arguments inner []
    let dest ← newRegister
    emit token { op := .call, dest, a, args, tail }
    return dest
  | .choose token subject cases, tail => do
    let a ← expr subject false
    let dest ← newRegister
    let branches ← arms a dest tail token cases []
    patch branches
    return dest
  | .group token inner, tail => do
    match ← sequence inner tail with
    | some result => return result
    | none => loadConstant .empty token
  | .list token inner, _ => do
    let dest ← newRegister
    emit token { op := .makeComposite, dest }
    elements dest 0 inner
    return dest
  | .object token inner, _ => do
    let dest ← newRegister
    emit token { op := .makeComposite, dest }
    entries dest inner
    return dest
  | .function token name parameters body, _ => do
    let blockName : Text := if name.isEmpty then "<anonymous>" else name
    openUnit (.function token.index) blockName parameters.length token
    let result ← expr body true
    let k ← nested (← closeUnit (some result) token)
    let dest ← newRegister
    emit token { op := .closure, dest, k }
    return dest

/-- The code that writes the register `source` to the target of a definition. -/
def target (token : Token) (source : Nat) : Expr → Writing Unit
  | .name place => do
    match (← read).resolution.reference? place with
    | some (.binding binding) => storeBinding binding source token
    | _ => report (.invalidTarget place.lexeme) token
  | .empty _ => return
  | .access _ container key => do
    let a ← expr container false
    let b ← expr key false
    emit token { op := .setElement, a, b, c := source }
  | goal => report (.invalidTarget goal.render) token

/-- The code of several expressions; the value of the last is the value of all. -/
def sequence : List Expr → Bool → Writing (Option Nat)
  | [], _ => return none
  | [e], tail => return some (← expr e tail)
  | e :: rest, tail => do
    let _ ← expr e false
    sequence rest tail

/-- The code of the arguments of a call; `done` are the registers of those before, latest first. -/
def arguments : List Expr → List Int → Writing (List Int)
  | [], done => return done.reverse
  | e :: rest, done => do
    let r ← expr e false
    arguments rest ((r : Int) :: done)

/-- The code that puts the elements of a list, from the one at `index` on, into a composite. -/
def elements (dest : Nat) : Nat → List Expr → Writing Unit
  | _, [] => return
  | index, e :: rest => do
    let c ← expr e false
    let b ← loadConstant (.number (Number.ofNat index)) e.token
    emit e.token { op := .setElement, a := dest, b, c }
    elements dest (index + 1) rest

def entries (dest : Nat) : List Entry → Writing Unit
  | [] => return
  | .mk key value :: rest => do
    let b ← expr key false
    let c ← expr value false
    emit key.token { op := .setElement, a := dest, b, c }
    entries dest rest

/-- The code of the arms of a choice, which gives the instructions that leave it; `branches` are
those of the arms before. No arm is looked at behind one that always matches; without such an arm
the choice ends in a failure. -/
def arms (subject dest : Nat) (tail : Bool) (choice : Token) :
    List Arm → List Nat → Writing (List Nat)
  | [], branches => do
    emit choice { op := .matchFail, a := subject }
    return branches
  | .otherwise token body :: _, branches => do
    match body.literal? with
    | some value =>
      let k ← constant value
      emit token { op := .loadConstant, dest, k }
      let branch ← codeSize
      emit token { op := .jump }
      return branch :: branches
    | none =>
      openUnit (.arm token.index) (← armName) 0 token
      let result ← match body with
        | .group _ (first :: rest) => sequence (first :: rest) true
        | body => some <$> expr body true
      let k ← nested (← closeUnit result token)
      let branch ← codeSize
      emit token { op := .callArm, dest, k, tail }
      return branch :: branches
  | .case token pattern body :: rest, branches => do
    let b ← expr pattern false
    match body.literal? with
    | some value =>
      let k ← constant value
      let branch ← codeSize
      emit token { op := .constantIfEqual, dest, a := subject, b, k }
      arms subject dest tail choice rest (branch :: branches)
    | none =>
      openUnit (.arm token.index) (← armName) 0 token
      let result ← match body with
        | .group _ (first :: rest) => sequence (first :: rest) true
        | body => some <$> expr body true
      let k ← nested (← closeUnit result token)
      let branch ← codeSize
      emit token { op := .callIfEqual, dest, a := subject, b, k, tail }
      arms subject dest tail choice rest (branch :: branches)

end

end Compile

/-- The code of a program, or the problems that prevent it. `natives` numbers the functions of the
host; `file` names the program, if it is not empty. -/
def Script.compile (natives : Text → Option Nat) (file : Text) (r : Resolution) (script : Script) :
    Except (List Diagnostic) Program :=
  let resolution := r.markEscapes script
  let setting : Compile.Setting := { natives, file, resolution, frames := resolution.frames }
  let name : Text :=
    if !file.isEmpty then file else if !script.file.isEmpty then script.file else "<program>"
  let writing : Compile.Writing Nat := do
    Compile.openUnit .program name 0 script.token
    let result ← Compile.sequence script.items true
    Compile.closeUnit result script.token
  let (_, st) := (writing.run setting).run {}
  if st.problems.isEmpty then .ok ⟨st.blocks⟩ else .error st.problems.reverse

end Inkwell
