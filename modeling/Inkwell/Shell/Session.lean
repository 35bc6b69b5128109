import Inkwell.Engine.Basic
import Inkwell.Options.Document
import Inkwell.Shell.Arguments
import Inkwell.Shell.Files
import Inkwell.Shell.Replay

/-!
# Sessions

An engine with the options that a command line and a configuration file give, and an interactive
session on it, which takes its input line by line.
-/

namespace Inkwell

namespace Shell

structure Report where
  out : Text := ""
  problems : List Text := []
  /-- Why the command failed; empty if the problems say it all. -/
  failure : Option Text := none
deriving Inhabited

namespace Report

def append (a b : Report) : Report where
  out := a.out ++ b.out
  problems := a.problems ++ b.problems
  failure := b.failure.or a.failure

instance : Append Report := ⟨append⟩

def err (r : Report) : Text := Text.concat (r.problems.map (· ++ "\n"))

def ofFailure (message : Text) : Report := { failure := some message }

def ofProblems (ds : List Diagnostic) : Report :=
  { problems := ds.map (·.render), failure := some "" }

end Report

section

variable {m : Type → Type} [Monad m]

def findFile (fs : FileSystem m) : List Text → m (Option Text)
  | [] => return none
  | path :: rest => do
    if ← fs.isFile path then return some path
    findFile fs rest

def configPath (fs : FileSystem m) (i : Invocation) : m (Option Text) := do
  if i.config.isEmpty then findFile fs (Options.candidates (← fs.workingDirectory))
  else return some i.config

def readOptions (fs : FileSystem m) (path : Text) : m (Except Text Options) := do
  match ← fs.read path with
  | .error e => return .error ("reading config " ++ path ++ ": " ++ e.message path)
  | .ok document =>
    match Options.parse document with
    | .error e => return .error (e.message path)
    | .ok o => return .ok o

def options (fs : FileSystem m) (i : Invocation) : m (Except Text Options) := do
  let found ←
    match ← configPath fs i with
    | none => pure (.ok {})
    | some path => readOptions fs path
  return found.map fun o => { o with
    optimize := o.optimize && !i.noOptimizer
    cachePath := if i.cache.isEmpty then o.cachePath else i.cache }

def openEngine (fs : FileSystem m) (i : Invocation) : m (Except Text Engine) := do
  match ← options fs i with
  | .error message => return .error message
  | .ok o =>
    match Engine.create o with
    | .error message => return .error message
    | .ok e =>
      if o.cachePath.isEmpty then return .ok e
      match ← fs.openTable o.cachePath with
      | .error error => return .error error.message
      | .ok t => return .ok { e with cache := some (Cache.create o.cacheEntries (some t)) }

/-- Keeps the compiled programs of an engine that is not used any more. -/
def closeEngine (fs : FileSystem m) (e : Engine) : m Unit :=
  match e.cache.bind (·.table) with
  | some t => fs.saveTable e.options.cachePath t
  | none => return

end

/-- The value of a program, or a report of its problems; what the program writes is left in the
engine. -/
def runProgram (e : Engine) (file source : Text) : Except Report Value × Engine :=
  match e.execute (e.read file source) with
  | (.ok v, e) => (.ok v, e)
  | (.error ds, e) => (.error (.ofProblems ds), e)

def printValue (e : Engine) (v : Value) : Text × Engine :=
  (e.machine.store.inspect v ++ "\n",
    { e with machine.store.heap := e.machine.store.heap.release v })

/-! ## Interactive sessions -/

def title : Text := "inkvm v" ++ release

structure Repl where
  engine : Engine
  replay : Replay := {}
  /-- The lines of an entry that is not complete. -/
  pending : Text := ""
  history : List Text := []
  isOver : Bool := false
deriving Inhabited

namespace Repl

def banner : Text := title ++ ", :quit to exit\n"

def historyLimit : Nat := 1000

def remember (r : Repl) (entry : Text) : Repl :=
  let l := Text.replaceByte 10 " " entry
  if r.history.head? = some l then r
  else { r with history := (l :: r.history).take historyLimit }

/-- Runs an entry behind all those accepted. It is accepted unless it has problems. -/
def run (r : Repl) (entry : Text) : Report × Repl :=
  let (result, engine) := runProgram r.engine "" (r.replay.program entry)
  let (written, engine) := engine.takeOutput
  let (shown, skipper) := ({ skip := r.replay.printed } : Skipper).writeAll [written]
  match result with
  | .error report =>
    ({ out := shown, problems := report.problems }, { r with engine })
  | .ok v =>
    let (text, engine) := printValue engine v
    ({ out := shown ++ text }, { r with engine, replay := r.replay.accept entry skipper.total })

def enter (r : Repl) (entry : Text) : Report × Repl :=
  let trimmed := entry.trim
  if trimmed.isEmpty then ({}, r)
  else if trimmed = ":quit" then ({}, { r with isOver := true })
  else if trimmed.startsWith ":" then
    ({ out := "unknown command, type :quit to exit\n" }, r)
  else (r.remember entry).run entry

def feed (r : Repl) (line : Text) : Report × Repl :=
  let entry := if r.pending.isEmpty then line else r.pending ++ "\n" ++ line
  if Reading.isIncomplete entry then ({}, { r with pending := entry })
  else { r with pending := "" }.enter entry

def finish (r : Repl) : Report × Repl := ({ out := "\n" }, { r with isOver := true })

def feedAll (r : Repl) : List Text → Report × Repl
  | [] => r.finish
  | line :: rest =>
    let (report, r) := r.feed line
    if r.isOver then (report, r)
    else
      let (more, r) := r.feedAll rest
      (report ++ more, r)

end Repl

/-! ## Lines of input -/

/-- The number of bytes that are looked at for the end of a line. -/
def lineLimit : Nat := 4096

/-- The first line and what follows it. A line break is left out, with a carriage return in front of
it. Of a line that is too long, the first bytes are taken. -/
def firstLine (bs : List UInt8) : List UInt8 × List UInt8 :=
  let seen := bs.take lineLimit
  let l := seen.takeWhile (· ≠ 10)
  if l.length < seen.length then
    (if l.getLast? = some 13 then l.dropLast else l, bs.drop (l.length + 1))
  else if l.length = lineLimit && l.getLast? = some 13 then (l.dropLast, bs.drop (lineLimit - 1))
  else (l, bs.drop l.length)

/-- The lines of an input; every round takes one. -/
def inputLines : Nat → List UInt8 → List Text
  | 0, _ => []
  | rounds + 1, bs =>
    if bs.isEmpty then []
    else
      let (l, rest) := firstLine bs
      Text.ofBytes l :: inputLines rounds rest

def linesOf (input : Text) : List Text := inputLines (input.size + 1) input.bytes

def historyFile : Text := ".inkvm_history"

namespace Repl

def withHistory (r : Repl) (content : Text) : Repl :=
  { r with history := (linesOf content).reverse.take historyLimit }

def historyText (r : Repl) : Text := Text.concat (r.history.reverse.map (· ++ "\n"))

end Repl

end Shell

end Inkwell
