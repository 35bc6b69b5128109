import Inkwell.Text.Quoted

/-!
# Arguments

What a command line asks for: flags, then the name of a command, then flags of the command and its
arguments. A command line that starts with no command runs the file it names, and an empty one
starts a session.
-/

namespace Inkwell

namespace Shell

/-- A flag with its names, the text that stands for its value if it takes one, and what it is
for. -/
structure Flag where
  names : List Text
  value : Option Text := none
  usage : Text
deriving Inhabited

/-- A command with its name, what it is for, its arguments and its flags. -/
structure Command where
  name : Text
  usage : Text
  arguments : Text := ""
  flags : List Flag := []
deriving Inhabited

def helpFlag : Flag where
  names := ["help", "h"]
  usage := "show help"

def printFlag : Flag where
  names := ["print", "p"]
  usage := "print the value of the program"

def globalFlags : List Flag :=
  [{ names := ["config"], value := some "FILE"
     usage := "load options from FILE instead of the nearest inkvm.yaml" },
    { names := ["no-opt"], usage := "run the generated code without optimization" },
    { names := ["cache"], value := some "PATH"
      usage := "keep compiled programs in the sqlite database at PATH" },
    { names := ["verbose"], usage := "log compiler, optimizer and VM events to stderr" }]

def commands : List Command :=
  [{ name := "run", usage := "run a program file", arguments := "<file.ink>", flags := [printFlag] },
    { name := "eval", usage := "run the program given as an argument", arguments := "<program>"
      flags := [printFlag] },
    { name := "repl", usage := "start an interactive session" },
    { name := "disasm", usage := "print the bytecode of a program file", arguments := "<file.ink>" },
    { name := "version", usage := "print the inkvm version" }]

/-! ## Flags -/

/-- Flags that are set, by the names they were set under, and the arguments behind them. -/
structure Parsed where
  set : List (Text × Text) := []
  arguments : List Text := []
deriving Inhabited

namespace Parsed

def value? (p : Parsed) (name : Text) : Option Text :=
  (p.set.filter (·.1 = name)).getLast?.map (·.2)

def isSet (p : Parsed) (flag : Flag) : Bool :=
  flag.names.any fun name => p.value? name = some ("true" : Text)

end Parsed

def truth? (t : Text) : Option Bool :=
  if ["1", "t", "T", "TRUE", "true", "True"].any fun w => (w : Text) = t then some true
  else if ["0", "f", "F", "FALSE", "false", "False"].any fun w => (w : Text) = t then some false
  else none

/-- The name in an argument that sets a flag, and the value behind an equals sign. -/
def splitFlag (t : Text) : Text × Option Text :=
  let name := Text.ofBytes (t.bytes.takeWhile (· ≠ 61))
  if name.size < t.size then (name, some (t.drop (name.size + 1))) else (name, none)

/-- Whether an argument sets a flag: it starts with a dash and has more. -/
def isFlag (t : Text) : Bool := 2 ≤ t.size && t.startsWith "-"

/-- The flags at the beginning of arguments, behind those already set, or what is wrong with the
first that is not right. Two dashes end them. -/
def parseFlags (flags : List Flag) (set : List (Text × Text)) : List Text → Except Text Parsed
  | [] => .ok { set := set.reverse }
  | t :: rest =>
    if !isFlag t then .ok { set := set.reverse, arguments := t :: rest }
    else if t = "--" then .ok { set := set.reverse, arguments := rest }
    else
      let body : Text := if t.startsWith "--" then t.drop 2 else t.drop 1
      let (name, given) := splitFlag body
      if name.isEmpty || name.startsWith "-" then .error ("bad flag syntax: " ++ t)
      else
        match flags.find? (·.names.contains name) with
        | none => .error ("flag provided but not defined: -" ++ name)
        | some flag =>
          if flag.value.isNone then
            match given with
            | none => parseFlags flags ((name, "true") :: set) rest
            | some spelling =>
              match truth? spelling with
              | some b =>
                parseFlags flags ((name, if b then "true" else "false") :: set) rest
              | none =>
                .error ("invalid boolean value " ++ spelling.quoted ++ " for -" ++ name ++
                  ": parse error")
          else
            match given, rest with
            | some value, rest => parseFlags flags ((name, value) :: set) rest
            | none, value :: rest => parseFlags flags ((name, value) :: set) rest
            | none, [] => .error ("flag needs an argument: -" ++ name)

/-- What is wrong with flags that are set under two of their names. -/
def twoForms? (flags : List Flag) (p : Parsed) : Option Text :=
  flags.findSome? fun flag =>
    match flag.names.filter fun name => (p.value? name).isSome with
    | first :: second :: _ =>
      some ("Cannot use two forms of the same flag: " ++ second ++ " " ++ first)
    | _ => none

def readFlags (flags : List Flag) (arguments : List Text) : Except Text Parsed := do
  let all := flags ++ [helpFlag]
  let p ← parseFlags all [] arguments
  match twoForms? all p with
  | some message => throw message
  | none => return p

/-! ## Command lines -/

inductive Task where
  /-- Run the program in a file, and maybe print its value. -/
  | run (file : Option Text) (print : Bool)
  | eval (program : Option Text) (print : Bool)
  | repl
  | disassemble (file : Option Text)
  | version
  | help (command : Option Command)
  /-- Say what is wrong with the use of a command, or of the flags in front, and explain it. -/
  | misuse (command : Option Command) (message : Text)

structure Invocation where
  /-- The file with options; without, the nearest one is looked for. -/
  config : Text := ""
  noOptimizer : Bool := false
  cache : Text := ""
  task : Task

def asksForHelp (t : Text) : Bool := t = "help" || t = "h"

def Command.task (c : Command) (arguments : List Text) : Task :=
  match readFlags c.flags arguments with
  | .error message => .misuse (some c) message
  | .ok p =>
    let first := p.arguments.head?
    if p.isSet helpFlag || first.any asksForHelp then .help (some c)
    else if c.name = "run" then .run first (p.isSet printFlag)
    else if c.name = "eval" then .eval first (p.isSet printFlag)
    else if c.name = "disasm" then .disassemble first
    else if c.name = "version" then .version
    else .repl

def Task.ofArguments : List Text → Task
  | [] => .repl
  | name :: rest =>
    match commands.find? (·.name = name) with
    | some c => c.task rest
    | none =>
      if asksForHelp name then .help (rest.head?.bind fun topic => commands.find? (·.name = topic))
      else .run (some name) false

def Invocation.parse (arguments : List Text) : Invocation :=
  match readFlags globalFlags arguments with
  | .error message => { task := .misuse none message }
  | .ok p =>
    { config := (p.value? "config").getD ""
      noOptimizer := p.value? "no-opt" = some ("true" : Text)
      cache := (p.value? "cache").getD ""
      task := if p.isSet helpFlag then .help none else Task.ofArguments p.arguments }

/-! ## Help -/

def Flag.spelling (f : Flag) : Text :=
  let value : Text :=
    match f.value with
    | some v => " " ++ v
    | none => ""
  Text.join ", " (f.names.map fun name =>
    (if name.size = 1 then "-" else "--") ++ name ++ value)

/-- What a flag is for, and what it is unless it is set. -/
def Flag.explanation (f : Flag) : Text :=
  if f.value.isSome || f.names = helpFlag.names then f.usage else f.usage ++ " (default: false)"

def columns (rows : List (Text × Text)) : Text :=
  let width := (rows.map (·.1.size)).foldl max 0
  Text.concat (rows.map fun (left, right) => "   " ++ left.padRight width ++ "  " ++ right ++ "\n")

def explainFlags (flags : List Flag) : Text :=
  columns ((flags ++ [helpFlag]).map fun f => (f.spelling, f.explanation))

def helpText : Text :=
  "NAME:\n   inkvm - compile and run Ink programs on a register VM\n\n" ++
  "USAGE:\n   inkvm [global options] command [command options]\n\n" ++
  "COMMANDS:\n" ++ columns (commands.map (fun c => (c.name, c.usage)) ++
    ([("help, h", "Shows a list of commands or help for one command")] : List (Text × Text))) ++
  "\nGLOBAL OPTIONS:\n" ++ explainFlags globalFlags

def Command.helpText (c : Command) : Text :=
  let arguments : Text := if c.arguments.isEmpty then "" else " " ++ c.arguments
  "NAME:\n   inkvm " ++ c.name ++ " - " ++ c.usage ++ "\n\n" ++
  "USAGE:\n   inkvm " ++ c.name ++ " [command options]" ++ arguments ++ "\n\n" ++
  "OPTIONS:\n" ++ explainFlags c.flags

end Shell

end Inkwell
