import Inkwell.Text.Basic

/-!
# Paths

Names of files: parts with slashes between them. A part of one dot means nothing, one of two dots
goes back over the part before it.
-/

namespace Inkwell

namespace Path

def isAbsolute (p : Text) : Bool := p.startsWith "/"

def parts (p : Text) : List Text := (p.split 47).filter fun part => !part.isEmpty

/-- The parts without dots, behind those found, latest first. In front of the root there is nothing;
in front of any other beginning, two dots stay. -/
def simplify (absolute : Bool) (found : List Text) : List Text → List Text
  | [] => found.reverse
  | part :: rest =>
    if part = "." then simplify absolute found rest
    else if part = ".." then
      match found with
      | last :: before =>
        if last = ".." then simplify absolute (part :: found) rest else simplify absolute before rest
      | [] => if absolute then simplify absolute [] rest else simplify absolute [part] rest
    else simplify absolute (part :: found) rest

def clean (p : Text) : Text :=
  let rest := Text.join "/" (simplify (isAbsolute p) [] (parts p))
  if isAbsolute p then "/" ++ rest else if rest.isEmpty then "." else rest

def join (base p : Text) : Text := clean (base ++ "/" ++ p)

/-- A path behind the working directory, unless it starts at the root. -/
def absolute (directory p : Text) : Text := if isAbsolute p then clean p else join directory p

def upToSlash (bs : List UInt8) : List UInt8 := (bs.reverse.dropWhile (· ≠ 47)).reverse

def parent (p : Text) : Text := clean (Text.ofBytes (upToSlash p.bytes))

/-- The path made of some first parts of a clean path, for all numbers of parts, longest first. -/
def ancestors (p : Text) : List Text :=
  let all := parts p
  let start : Text := if isAbsolute p then "/" else ""
  (List.range (all.length + 1)).reverse.map fun n => start ++ Text.join "/" (all.take n)

end Path

inductive FileError where
  | missing
  | isDirectory
  /-- A part of the path before the last is no directory. -/
  | notDirectory
  | other (cause : Text)
deriving DecidableEq

def FileError.message (path : Text) : FileError → Text
  | missing => "open " ++ path ++ ": no such file or directory"
  | isDirectory => "read " ++ path ++ ": is a directory"
  | notDirectory => "open " ++ path ++ ": not a directory"
  | other cause => "open " ++ path ++ ": " ++ cause

end Inkwell
