import Inkwell.Cache.Digest
import Inkwell.Cache.Memory
import Inkwell.Image.Basic
import Inkwell.Options.Basic

/-!
# The cache of compiled programs

Images of compiled programs under keys that depend on everything the code depends on. A bounded
number of images is in memory; a table in a file may keep them all.
-/

namespace Inkwell

namespace Cache

/-- What the key of a program is the digest of: the release, the version of images, a text that
stands for the options, and the source. -/
def preimage (source fingerprint : Text) : Text :=
  release ++ Text.ofBytes [0, Image.version, 0] ++ fingerprint ++ Text.ofBytes [0] ++ source

def key (source fingerprint : Text) : Text := (preimage source fingerprint).digest.hex

structure Table where
  images : List (Text × Text) := []
deriving Inhabited

namespace Table

def find? (t : Table) (key : Text) : Option Text := t.images.lookup key

def put (t : Table) (key image : Text) : Table :=
  ⟨(key, image) :: t.images.filter (·.1 ≠ key)⟩

end Table

/-- How often images were found in memory, found in the table, and not found. -/
structure Stats where
  memoryHits : Nat := 0
  tableHits : Nat := 0
  misses : Nat := 0
deriving Inhabited, DecidableEq

inductive Closed where
  | onQuery
  | onSave
  | onPurge
deriving DecidableEq

def Closed.message : Closed → Text
  | onQuery => "querying cache: sql: database is closed"
  | onSave => "saving image: sql: database is closed"
  | onPurge => "purging cache: sql: database is closed"

end Cache

structure Cache where
  memory : Cache.Memory
  table : Option Cache.Table := none
  isOpen : Bool := true
  stats : Cache.Stats := {}
deriving Inhabited

namespace Cache

/-- A cache with room for a number of images in memory, or for the default number unless it is
positive, and maybe a table. -/
def create (entries : Int) (table : Option Table) : Cache where
  memory := { capacity := if entries ≤ 0 then Options.defaultCacheEntries else entries.toNat }
  table := table

def isPersistent (c : Cache) : Bool := c.table.isSome

def missed (c : Cache) : Cache := { c with stats.misses := c.stats.misses + 1 }

/-- The image under a key, if there is one. An image from the table is in memory afterwards. -/
def get (c : Cache) (key : Text) : Except Closed (Option Text) × Cache :=
  match c.memory.get key with
  | (some image, memory) =>
    (.ok (some image), { c with memory, stats.memoryHits := c.stats.memoryHits + 1 })
  | (none, _) =>
    match c.table with
    | none => (.ok none, c.missed)
    | some table =>
      if !c.isOpen then (.error .onQuery, c)
      else
        match table.find? key with
        | none => (.ok none, c.missed)
        | some image =>
          (.ok (some image), { c with
            memory := c.memory.put key image
            stats.tableHits := c.stats.tableHits + 1 })

def put (c : Cache) (key image : Text) : Except Closed Unit × Cache :=
  let c := { c with memory := c.memory.put key image }
  match c.table with
  | none => (.ok (), c)
  | some table =>
    if c.isOpen then (.ok (), { c with table := some (table.put key image) })
    else (.error .onSave, c)

def purge (c : Cache) : Except Closed Unit × Cache :=
  let c := { c with memory := c.memory.clear }
  match c.table with
  | none => (.ok (), c)
  | some _ => if c.isOpen then (.ok (), { c with table := some {} }) else (.error .onPurge, c)

def close (c : Cache) : Cache := { c with isOpen := false }

def reopen (entries : Int) (c : Cache) : Cache := create entries c.table

end Cache

end Inkwell
