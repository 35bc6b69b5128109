import Inkwell.Text.Basic

/-!
# Replaying a session

A session is a list of entries. A new entry runs as the end of a program that starts with all
earlier ones, and what those have already written is not shown again.
-/

namespace Inkwell

/-- The entries of a session, and how many bytes they write. -/
structure Replay where
  entries : List Text := []
  printed : Int := 0
deriving Inhabited, DecidableEq

namespace Replay

/-- The program that a new entry runs as: every entry on lines of its own, the new one last. -/
def program (r : Replay) (entry : Text) : Text := Text.join "\n" (r.entries ++ [entry])

def accept (r : Replay) (entry : Text) (printed : Int) : Replay :=
  { entries := r.entries ++ [entry], printed }

end Replay

/-- Drops the first `skip` bytes of what is written, and counts all of them. -/
structure Skipper where
  skip : Int
  total : Nat := 0
deriving Inhabited, DecidableEq

namespace Skipper

def write (s : Skipper) (t : Text) : Option Text × Skipper :=
  let total := s.total + t.size
  if 0 < s.skip then
    if (t.size : Int) ≤ s.skip then (none, { skip := s.skip - t.size, total })
    else (some (t.drop s.skip.toNat), { skip := 0, total })
  else (some t, { s with total })

def writeAll : Skipper → List Text → Text × Skipper
  | s, [] => ("", s)
  | s, t :: rest =>
    let (passed, s) := s.write t
    let (more, s) := s.writeAll rest
    (passed.getD "" ++ more, s)

end Skipper

end Inkwell
