import Inkwell.Cache.Basic
import Inkwell.Code.Compile
import Inkwell.Code.Listing
import Inkwell.Machine.Native
import Inkwell.Machine.Run
import Inkwell.Reading

/-!
# The engine

An engine compiles programs, optimizes them and runs them one after the other on one machine. With a
cache, the code of a program that has been compiled before is taken from its image.
-/

namespace Inkwell

structure Engine where
  options : Options := {}
  optimizer : Option Optimizer := none
  machine : Machine := {}
  cache : Option Cache := none
deriving Inhabited

inductive EngineError where
  | noProgram
  | problems (first : Diagnostic) (rest : List Diagnostic)
  | failed (failure : Failure)

namespace EngineError

def diagnostics : EngineError → List Diagnostic
  | noProgram => [{ problem := .failure "no AST to compile" }]
  | problems first rest => first :: rest
  | failed (.run e) =>
    [{ problem := .failure (e.message ++ e.renderTrace), position := e.position }]
  | failed failure => [{ problem := .failure failure.message }]

end EngineError

namespace Engine

def create (options : Options) : Except Text Engine := do
  let machine : Machine := { natives := Natives.standard }
  return { options, optimizer := ← options.optimizer,
           machine := machine.limitFrames options.maxFrames }

def isGlobal (e : Engine) (name : Text) : Bool := (e.machine.natives.number? name).isSome

def register (e : Engine) (n : Native) : Engine :=
  { e with machine.natives := e.machine.natives.register n }

/-- A text that tells apart everything besides the source that code depends on. -/
def fingerprint (e : Engine) (file : Text) : Text :=
  e.options.fingerprint ++ ";natives=" ++ Text.join "," e.machine.natives.names ++ ";file=" ++ file

def key (e : Engine) (file source : Text) : Text := Cache.key source (e.fingerprint file)

def generate (e : Engine) (r : Reading) : Except EngineError Program :=
  match r.script with
  | none => .error .noProgram
  | some script =>
    match script.compile e.machine.natives.number? r.file r.resolution with
    | .error (first :: rest) => .error (.problems first rest)
    | .error [] => .error .noProgram
    | .ok p =>
      match e.optimizer with
      | some optimizer => .ok (optimizer.optimize p)
      | none => .ok p

/-- The code in the image under a key; an image that cannot be read counts as none. -/
def lookup (e : Engine) (key : Text) : Option Program × Engine :=
  match e.cache with
  | none => (none, e)
  | some cache =>
    let (found, cache) := cache.get key
    let program :=
      match found with
      | .ok (some image) => (Image.decode e.machine.natives.names image).toOption
      | _ => none
    (program, { e with cache := some cache })

/-- The engine with an image of code under a key, if the code has one. -/
def keep (e : Engine) (key : Text) (p : Program) : Engine :=
  match e.cache with
  | none => e
  | some cache =>
    match Image.encode e.machine.natives.names p with
    | .ok image => { e with cache := some (cache.put key image).2 }
    | .error _ => e

/-- The code of a program, from the cache if it is there. -/
def compile (e : Engine) (r : Reading) : Except EngineError Program × Engine :=
  if r.script.isNone || e.cache.isNone then (e.generate r, e)
  else
    let key := e.key r.file r.source
    match e.lookup key with
    | (some p, e) => (.ok p, e)
    | (none, e) =>
      match e.generate r with
      | .ok p => (.ok p, e.keep key p)
      | .error error => (.error error, e)

def onMachine (e : Engine) (action : Action Value) : Except EngineError Value × Engine :=
  match e with
  | { options, optimizer, machine, cache } =>
    match action machine with
    | .ok v machine => (.ok v, { options, optimizer, machine, cache })
    | .error failure machine => (.error (.failed failure), { options, optimizer, machine, cache })

/-- The value of a program that has been read; the caller becomes an owner of it. -/
def evaluate (e : Engine) (r : Reading) : Except EngineError Value × Engine :=
  match e.compile r with
  | (.ok p, e) => e.onMachine (Machine.run p)
  | (.error error, e) => (.error error, e)

/-- The value of a program if it was read without a problem, or all problems. -/
def execute (e : Engine) (r : Reading) : Except (List Diagnostic) Value × Engine :=
  if r.isClean then
    match e.evaluate r with
    | (.ok v, e) => (.ok v, e)
    | (.error error, e) => (.error (error.diagnostics.map (·.inFile r.file)), e)
  else (.error r.problems, e)

def read (e : Engine) (file source : Text) : Reading :=
  (Reading.ofSource file source).resolve e.isGlobal

def listing (e : Engine) (r : Reading) : Except EngineError Text × Engine :=
  match e.compile r with
  | (.ok p, e) => (.ok (p.listing e.machine.store.heap), e)
  | (.error error, e) => (.error error, e)

/-- What has been written since the last time, and the engine without it. -/
def takeOutput (e : Engine) : Text × Engine :=
  (e.machine.store.output.text, { e with machine.store.output.text := "" })

end Engine

end Inkwell
