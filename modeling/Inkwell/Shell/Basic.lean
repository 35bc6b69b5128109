import Inkwell.Shell.Session

/-!
# Commands

What the commands do: run a program, start a session, or list code. All they need of the outside is
a file system.
-/

namespace Inkwell

namespace Shell

inductive Outcome where
  | done (report : Report)
  | session (repl : Repl)
deriving Inhabited

section

variable {m : Type → Type} [Monad m]

/-- The text in the file that a command needs, or a message why there is none. -/
def readSource (fs : FileSystem m) : Option Text → m (Except Text (Text × Text))
  | none => return .error "missing program file"
  | some path => do
    match ← fs.read path with
    | .ok source => return .ok (path, source)
    | .error e => return .error ("reading " ++ path ++ ": " ++ e.message path)

def execute (fs : FileSystem m) (i : Invocation) (file source : Text) (print : Bool) : m Report := do
  match ← openEngine fs i with
  | .error message => return .ofFailure message
  | .ok e =>
    let (result, e) := runProgram e file source
    let (written, e) := e.takeOutput
    closeEngine fs e
    match result with
    | .error report => return { report with out := written }
    | .ok v => return { out := if print then written ++ (printValue e v).1 else written }

def disassemble (fs : FileSystem m) (i : Invocation) (file source : Text) : m Report := do
  match ← openEngine fs i with
  | .error message => return .ofFailure message
  | .ok e =>
    let r := e.read file source
    if !r.isClean then
      closeEngine fs e
      return .ofProblems r.problems
    let (result, e) := e.listing r
    closeEngine fs e
    match result with
    | .ok listing => return { out := listing }
    | .error error => return .ofProblems error.diagnostics

def openRepl (fs : FileSystem m) (i : Invocation) : m Outcome := do
  match ← openEngine fs i with
  | .error message => return .done (.ofFailure message)
  | .ok engine => return .session { engine }

def start (fs : FileSystem m) (arguments : List Text) : m Outcome := do
  let i := Invocation.parse arguments
  let helpOf (command : Option Command) : Text := (command.map (·.helpText)).getD helpText
  match i.task with
  | .run file print =>
    match ← readSource fs file with
    | .error message => return .done (.ofFailure message)
    | .ok (path, source) => return .done (← execute fs i path source print)
  | .eval none _ => return .done (.ofFailure "missing program")
  | .eval (some source) print => return .done (← execute fs i "" source print)
  | .disassemble file =>
    match ← readSource fs file with
    | .error message => return .done (.ofFailure message)
    | .ok (path, source) => return .done (← disassemble fs i path source)
  | .repl => openRepl fs i
  | .version => return .done { out := title ++ "\n" }
  | .help command => return .done { out := helpOf command }
  | .misuse command message =>
    return .done {
      out := "Incorrect Usage: " ++ message ++ "\n\n" ++ helpOf command
      failure := some message }

def run (fs : FileSystem m) (arguments : List Text) (input : Text) : m Report := do
  match ← start fs arguments with
  | .done report => return report
  | .session repl =>
    let (report, repl) := repl.feedAll (linesOf input)
    closeEngine fs repl.engine
    return { out := Repl.banner } ++ report

end

end Shell

end Inkwell
