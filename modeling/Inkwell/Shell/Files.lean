import Inkwell.Cache.Basic
import Inkwell.Path

/-!
# Files

What a command needs of a file system, and a file system in memory that offers it: files and
directories by their paths behind a working directory, and the tables of caches.
-/

namespace Inkwell

namespace Cache

inductive TableError where
  /-- A directory for the table cannot be made, because there is a file of that name. -/
  | noDirectory (directory file : Text)
  | isDirectory
  | notATable
  | other (cause : Text)

def TableError.message : TableError → Text
  | noDirectory directory file =>
    "creating cache directory " ++ directory ++ ": mkdir " ++ file ++ ": not a directory"
  | isDirectory => "setting busy timeout: unable to open database file: out of memory (14)"
  | notATable => "creating cache table: file is not a database (26)"
  | other cause => "opening cache: " ++ cause

end Cache

namespace Shell

/-- What a command needs of a file system. -/
structure FileSystem (m : Type → Type) where
  workingDirectory : m Text
  isFile : Text → m Bool
  read : Text → m (Except FileError Text)
  /-- Opens the table at a path, which is made if it is not there. -/
  openTable : Text → m (Except Cache.TableError Cache.Table)
  saveTable : Text → Cache.Table → m Unit

/-! ## In memory -/

inductive Entry where
  | file (content : Text)
  | directory
  | table (t : Cache.Table)
deriving Inhabited

/-- Files in memory, by their clean paths behind the working directory. -/
structure Files where
  directory : Text := "/"
  entries : List (Text × Entry) := []
deriving Inhabited

namespace Files

/-- A path behind the working directory, if it leads there. -/
def relative? (fs : Files) (path : Text) : Option Text :=
  let all := Path.absolute fs.directory path
  let start := fs.directory ++ "/"
  if path.isEmpty then none
  else if all = fs.directory then some "."
  else if all.startsWith start then some (all.drop start.size)
  else none

def isInside (directory path : Text) : Bool := directory = "." || path.startsWith (directory ++ "/")

/-- Whether there is a directory at a clean path, made or implied by what is in it. -/
def isDirectory (fs : Files) (path : Text) : Bool :=
  path = "." || fs.entries.any fun (name, entry) =>
    isInside path name || (name = path && entry matches .directory)

/-- Whether there is something other than a directory at a clean path. -/
def isOccupied (fs : Files) (path : Text) : Bool :=
  fs.entries.any fun (name, entry) => name = path && !(entry matches .directory)

def isFile (fs : Files) (path : Text) : Bool :=
  match fs.relative? path with
  | some path => fs.isOccupied path
  | none => false

def read (fs : Files) (path : Text) : Except FileError Text :=
  match fs.relative? path with
  | none => .error .missing
  | some name =>
    match fs.entries.lookup name with
    | some (.file content) => .ok content
    | _ =>
      if fs.isDirectory name then .error .isDirectory
      else if (Path.ancestors name).tail.any fs.isOccupied then .error .notDirectory
      else .error .missing

def put (fs : Files) (path : Text) (entry : Entry) : Files :=
  { fs with entries := (path, entry) :: fs.entries.filter (·.1 ≠ path) }

def openTable (fs : Files) (path : Text) : Except Cache.TableError Cache.Table × Files :=
  let directory := Path.parent path
  match fs.relative? directory, fs.relative? path with
  | some inner, some name =>
    match (Path.ancestors inner).reverse.find? fs.isOccupied with
    | some file => (.error (.noDirectory directory file), fs)
    | none =>
      let fs := if fs.isDirectory inner then fs else fs.put inner .directory
      if fs.isDirectory name then (.error .isDirectory, fs)
      else
        match fs.entries.lookup name with
        | some (.table t) => (.ok t, fs)
        | some (.file content) => if content.isEmpty then (.ok {}, fs) else (.error .notATable, fs)
        | _ => (.ok {}, fs)
  | _, _ => (.ok {}, fs)

def saveTable (fs : Files) (path : Text) (t : Cache.Table) : Files :=
  match fs.relative? path with
  | some name => fs.put name (.table t)
  | none => fs

def system : FileSystem (StateM Files) where
  workingDirectory := return (← get).directory
  isFile path := return (← get).isFile path
  read path := return (← get).read path
  openTable path := modifyGet (·.openTable path)
  saveTable path t := modify (·.saveTable path t)

/-- Files in memory, given by name; a name that ends with a slash is that of a directory. -/
def ofList (directory : Text) (files : List (Text × Text)) : Files where
  directory
  entries := files.map fun (name, content) =>
    (Path.clean name, if name.endsWith "/" then .directory else .file content)

end Files

end Shell

end Inkwell
