import Inkwell.Yaml.Node

/-!
# Reading values from a configuration document

Nodes as texts, numbers, truth values, lists and records. A mapping gives a record: each key names a
field, and keys that name none are passed over. It can take over the entries of other mappings,
which count where it has no entry itself. An alias must not be met again inside of what it stands
for, and a large document must not consist of aliases only.
-/

namespace Inkwell

namespace Yaml

/-- How many nodes have been read, and how many of them inside of aliases. -/
structure Tally where
  all : Nat := 0
  aliased : Nat := 0

abbrev Decode := StateT Tally Option

/-- Whether too many of the nodes that were read came from aliases. -/
def Tally.isExcessive (t : Tally) : Bool :=
  100 < t.aliased && 1000 < t.all && 99 * t.all < 100 * t.aliased

def visit (inAlias : Bool) : Decode Unit := do
  modify fun t => { all := t.all + 1, aliased := if inAlias then t.aliased + 1 else t.aliased }
  if (← get).isExcessive then failure

/-- A field of a record: how a node changes the record, given the numbers of the aliases around. -/
abbrev Field (σ : Type) := List Nat → Node → σ → Decode σ

/-- What two keys must not have in common: the text of scalars and the anchor of aliases. -/
def Node.isSameKey : Node → Node → Bool
  | .scalar a, .scalar b => a.text = b.text
  | .alias _ a _, .alias _ b _ => a = b
  | .sequence _, .sequence _ | .mapping _, .mapping _ => true
  | _, _ => false

def keysOf : List Node → List Node
  | key :: _ :: rest => key :: keysOf rest
  | _ => []

def areDistinct : List Node → Bool
  | [] => true
  | key :: rest => !rest.any key.isSameKey && areDistinct rest

/-- The last value whose key asks to take over the entries of other mappings. -/
def mergedNode? : List Node → Option Node
  | key :: value :: rest =>
    (mergedNode? rest).orElse fun _ => if key.isMerge then some value else none
  | _ => none

namespace Document

/-- The node that a node stands for, with the numbers of the aliases around it. -/
def follow (d : Document) (active : List Nat) (n : Node) : Decode (List Nat × Node) := do
  visit !active.isEmpty
  match n with
  | .alias number _ anchor =>
    if active.contains number then failure
    visit true
    return (number :: active, d.anchors.getD anchor Node.none)
  | n => return (active, n)

/-! ## Scalars -/

def scalar (d : Document) (active : List Nat) (n : Node) : Decode (Scalar × Meaning) := do
  match (← d.follow active n).2 with
  | .scalar s => return (s, ← StateT.lift s.meaning?)
  | _ => failure

def text? (d : Document) (active : List Nat) (n : Node) : Decode (Option Text) := do
  match ← d.scalar active n with
  | (_, .nothing) => return none
  | (_, .text t) => return some t
  | (s, _) => return some s.text

/-- The integer a node gives, unless it means nothing; fractions are cut off, and numbers too small
give the least integer. -/
def integer? (d : Document) (active : List Nat) (n : Node) : Decode (Option Int) := do
  match (← d.scalar active n).2 with
  | .nothing => return none
  | .integer n => if n < (1 <<< 63 : Nat) then return some n else failure
  | .fraction n =>
    if n.isNaN || (Number.ofNat (1 <<< 63)).less n then failure else return some n.toInt64.toInt
  | _ => failure

/-- The words that are a truth value where one is expected, and just texts elsewhere. Each is written
in small letters, with a capital, or in capitals. -/
def truthWords : List (Bool × List String) :=
  [(true, ["y", "Y", "yes", "Yes", "YES", "on", "On", "ON"]),
    (false, ["n", "N", "no", "No", "NO", "off", "Off", "OFF"])]

def truthOfWord? (t : Text) : Option Bool :=
  (truthWords.find? fun (_, words) => words.any fun w => (w : Text) = t).map (·.1)

/-- The truth value a node gives, unless it means nothing; the words for truth values count too. -/
def boolean? (d : Document) (active : List Nat) (n : Node) : Decode (Option Bool) := do
  match (← d.scalar active n).2 with
  | .nothing => return none
  | .boolean b => return some b
  | .text t =>
    match truthOfWord? t with
    | some b => return some b
    | none => failure
  | _ => failure

/-! ## Lists and records -/

def texts? (d : Document) (active : List Nat) (n : Node) : Decode (Option (List Text)) := do
  match ← d.follow active n with
  | (active, .sequence items) =>
    let found ← items.foldlM (fun found item => do
      match ← d.text? active item with
      | some t => return t :: found
      | none => return found) []
    return some found.reverse
  | (_, .scalar s) =>
    match s.meaning? with
    | some .nothing => return none
    | _ => failure
  | _ => failure

/-- Changes a record by the entries of a mapping. If the entries are taken over by another mapping,
those with a name that was seen are passed over; otherwise a field must not be named twice. -/
def entries {σ : Type} (d : Document) (fields : List (Text × Field σ)) (active : List Nat)
    (takenOver : Bool) : List Node → List Text → σ → Decode (List Text × σ)
  | key :: value :: rest, seen, record => do
    if key.isMerge then d.entries fields active takenOver rest seen record
    else
      match ← d.text? active key with
      | none => d.entries fields active takenOver rest seen record
      | some name =>
        if takenOver && seen.contains name then d.entries fields active takenOver rest seen record
        else
          match fields.lookup name with
          | none => d.entries fields active takenOver rest (name :: seen) record
          | some field =>
            if seen.contains name then failure
            let record ← field active value record
            d.entries fields active takenOver rest (name :: seen) record
  | _, seen, record => return (seen, record)

def isMapping (d : Document) : Node → Bool
  | .mapping _ => true
  | .alias _ _ anchor =>
    match d.anchors.getD anchor Node.none with
    | .mapping _ => true
    | _ => false
  | _ => false

/-- Changes a record by a node: a mapping, or one that means nothing. `seen` are the names that
count already, if the mapping is taken over by another. -/
def recordFrom {σ : Type} (d : Document) (fields : List (Text × Field σ)) :
    Nat → Option (List Text) → List Nat → Node → σ → Decode (List Text × σ)
  | 0, _, _, _, _ => failure
  | rounds + 1, seen, active, n, record => do
    match ← d.follow active n with
    | (active, .mapping items) =>
      if !areDistinct (keysOf items) then failure
      let (names, record) ← d.entries fields active seen.isSome items (seen.getD []) record
      match mergedNode? items with
      | none => return (names, record)
      | some merged =>
        if seen.isNone then
          for key in keysOf items do
            let _ ← d.scalar active key
        let parts :=
          match merged with
          | .sequence parts => parts
          | part => [part]
        parts.foldlM (fun (names, record) part => do
          if !d.isMapping part then failure
          recordFrom d fields rounds (some names) active part record) (names, record)
    | (_, .scalar s) =>
      match s.meaning? with
      | some .nothing => return (seen.getD [], record)
      | _ => failure
    | _ => failure

/-- The number of mappings that may be taken over inside of each other. -/
def maxMerges : Nat := 10000

def record {σ : Type} (d : Document) (fields : List (Text × Field σ)) : Field σ :=
  fun active n record => do return (← d.recordFrom fields maxMerges none active n record).2

/-- The field that keeps what a node gives, if it gives something. -/
def field {α σ : Type} (read : List Nat → Node → Decode (Option α)) (keep : α → σ → σ) : Field σ :=
  fun active n record => do
    match ← read active n with
    | some a => return keep a record
    | none => return record

def decode? {σ : Type} (d : Document) (fields : List (Text × Field σ)) (start : σ) : Option σ :=
  match d.root with
  | none => some start
  | some n =>
    let step : Decode σ := do
      visit false
      d.record fields [] n start
    step.run' {}

end Document

end Yaml

end Inkwell
