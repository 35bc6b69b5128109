import Inkwell.Engine.Basic
import Inkwell.Host.Convert
import Inkwell.Path

/-!
# Functions of a host

A typed function of a host becomes a function that programs can call: its arguments are converted to
the types of its parameters and its results to a value. A host can also have programs run and gets
their values.
-/

namespace Inkwell

structure HostFunction where
  parameters : List HostType
  /-- The type of any number of further arguments, if it takes them. -/
  further : Option HostType := none
  /-- The results, or a message why there are none. -/
  run : List HostValue → Except Text (List HostValue)

namespace HostFunction

def refusal? (f : HostFunction) (arguments : Nat) : Option Text :=
  let least := f.parameters.length
  if f.further.isSome then
    if arguments < least then
      some ("expected at least " ++ Text.ofNat least ++ " arguments, got " ++ Text.ofNat arguments)
    else none
  else if arguments = least then none
  else some ("expected " ++ Text.ofNat least ++ " arguments, got " ++ Text.ofNat arguments)

def parameter (f : HostFunction) (place : Nat) : HostType :=
  (f.parameters[place]?.or f.further).getD .any

def convertArguments (f : HostFunction) (h : Heap) : Nat → List Value → Except Text (List HostValue)
  | _, [] => .ok []
  | place, v :: rest =>
    match Host.toHost h (f.parameter place) v with
    | .error e => .error ("argument " ++ Text.ofNat place ++ ": " ++ e.message)
    | .ok v => (f.convertArguments h (place + 1) rest).map (v :: ·)

def combine : List HostValue → HostValue
  | [] => .nothing
  | [result] => result
  | results => .list (results.map (·.inPlaceOf .any))

def call (f : HostFunction) (h : Heap) (arguments : List Value) : Except Text HostValue := do
  match f.refusal? arguments.length with
  | some message => throw message
  | none => return combine (← f.run (← f.convertArguments h 0 arguments))

def native (name : Text) (f : HostFunction) : Native where
  name
  run arguments s :=
    match f.call s.heap arguments with
    | .error message => .error (.native message) s
    | .ok result =>
      match s with
      | { code, heap, output } =>
        match Host.convert (fun place => (code[place]?.getD default).inspect) result heap with
        | .ok v heap => .ok (.answer v) { code, heap, output }
        | .error e heap => .error (.native e.message) { code, heap, output }

end HostFunction

inductive HostItem where
  | function (f : HostFunction)
  /-- A value of a type that is no function. -/
  | other (type : HostType)

def HostItem.total (parameters : List HostType) (run : List HostValue → List HostValue) : HostItem :=
  .function { parameters, run := fun arguments => .ok (run arguments) }

namespace Engine

/-- The engine with something of the host under a name, or a message why that cannot be. -/
def bind (e : Engine) (name : Text) : HostItem → Except Text Engine
  | .function f => .ok (e.register (f.native name))
  | .other type =>
    .error ("cannot bind " ++ type.name ++ " to " ++ name.quoted ++ ": not a function")

/-- The value of a program for the host, or a message why there is none. -/
def eval (e : Engine) (file source : Text) : Except Text HostValue × Engine :=
  match e.execute (e.read file source) with
  | (.error problems, e) => (.error (Text.join "\n" (problems.map (·.render))), e)
  | (.ok v, e) =>
    let result := Host.toHost e.machine.store.heap .any v
    let e := { e with machine.store.heap := e.machine.store.heap.release v }
    match result with
    | .ok v => (.ok v, e)
    | .error error => (.error error.message, e)

def load (e : Engine) (path : Text) (content : Except FileError Text) : Except Text Unit × Engine :=
  match content with
  | .error error => (.error ("reading " ++ path ++ ": " ++ error.message path), e)
  | .ok source =>
    match e.eval path source with
    | (.ok _, e) => (.ok (), e)
    | (.error message, e) => (.error message, e)

end Engine

end Inkwell
