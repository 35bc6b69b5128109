import Inkwell.Cache.File
import Inkwell.Shell.Basic

/-!
# The program

The command line with the files, the terminal and the streams of the system it runs on.
-/

namespace Inkwell.Program

/-- A text for the system, which knows only characters. -/
def name (t : Text) : String := String.ofList t.chars

def fileError : IO.Error → FileError
  | .noFileOrDirectory .. => .missing
  | .inappropriateType .. => .isDirectory
  | e => .other (toString e)

def readFile (path : Text) : IO (Except FileError Text) := do
  try return .ok (← IO.FS.readBinFile (name path))
  catch e => return .error (fileError e)

def openTable (path : Text) : IO (Except Cache.TableError Cache.Table) := do
  let directory := Path.parent path
  try IO.FS.createDirAll (name directory)
  catch _ => return .error (.noDirectory directory directory)
  match ← readFile path with
  | .error .missing => return .ok {}
  | .error .isDirectory => return .error .isDirectory
  | .error e => return .error (.other (e.message path))
  | .ok content =>
    match Cache.Table.parse? content with
    | some t => return .ok t
    | none => return .error .notATable

def files : Shell.FileSystem IO where
  workingDirectory := return (← IO.currentDir).toString
  isFile path := return (← readFile path).isOk
  read := readFile
  openTable := openTable
  saveTable path t := do
    try IO.FS.writeBinFile (name path) t.render
    catch _ => return

def write (report : Shell.Report) : IO Unit := do
  let out ← IO.getStdout
  let err ← IO.getStderr
  out.write report.out
  out.flush
  let colored ← err.isTty
  for problem in report.problems do
    let line : Text := if colored then "\x1b[31m" ++ problem ++ "\x1b[0m" else problem
    err.write (line ++ "\n")
  err.flush

partial def readAll (input : IO.FS.Stream) (found : Text) : IO Text := do
  let more ← input.read 65536
  if more.isEmpty then return found
  readAll input (found ++ more)

/-- Talks with someone at a terminal until the session is over. -/
partial def converse (input : IO.FS.Stream) (r : Shell.Repl) : IO Shell.Repl := do
  let out ← IO.getStdout
  out.putStr (if r.pending.isEmpty then "> " else ". ")
  out.flush
  let line ← input.getLine
  let (report, r) :=
    if line.isEmpty then r.finish else r.feed (Text.ofBytes (Shell.firstLine line.toUTF8.toList).1)
  write report
  if r.isOver then return r
  converse input r

def historyPath : IO (Option Text) := do
  return (← IO.getEnv "HOME").map fun home => Path.join home Shell.historyFile

def session (r : Shell.Repl) : IO Unit := do
  let input ← IO.getStdin
  let path ← historyPath
  let past ←
    match path with
    | some path => readFile path
    | none => pure (.ok "")
  let r := r.withHistory (past.toOption.getD "")
  write { out := Shell.Repl.banner }
  let r ←
    if ← input.isTty then converse input r
    else
      let (report, r) := r.feedAll (Shell.linesOf (← readAll input ""))
      write report
      pure r
  Shell.closeEngine files r.engine
  if let some path := path then
    try IO.FS.writeBinFile (name path) r.historyText
    catch _ => return

end Inkwell.Program

def main (arguments : List String) : IO UInt32 := do
  match ← Inkwell.Shell.start Inkwell.Program.files (arguments.map (·.toUTF8)) with
  | .session r =>
    Inkwell.Program.session r
    return 0
  | .done report =>
    Inkwell.Program.write report
    match report.failure with
    | none => return 0
    | some message =>
      if !message.isEmpty then
        IO.eprintln ("inkvm: " ++ Inkwell.Program.name message)
      return 1
