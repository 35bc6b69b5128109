import Inkwell.Text.Basic

/-!
# Images in memory

A bounded number of images under their keys. When there are too many, the one that was asked for or
put in longest ago is given up.
-/

namespace Inkwell

namespace Cache

/-- Images in memory, the latest used first. -/
structure Memory where
  capacity : Nat
  images : List (Text × Text) := []
deriving Inhabited

namespace Memory

def find? (m : Memory) (key : Text) : Option Text := m.images.lookup key

/-- The memory with an image under a key, which is now the latest used. -/
def put (m : Memory) (key image : Text) : Memory :=
  { m with images := ((key, image) :: m.images.filter (·.1 ≠ key)).take m.capacity }

/-- The image under a key, which is the latest used afterwards. -/
def get (m : Memory) (key : Text) : Option Text × Memory :=
  match m.find? key with
  | some image => (some image, m.put key image)
  | none => (none, m)

def clear (m : Memory) : Memory := { m with images := [] }

end Memory

end Cache

end Inkwell
