import Inkwell.Yaml.Lexer
import Inkwell.Yaml.Node

/-!
# Reading a configuration document

The first document of a text, from its tokens. What stands behind it is only looked at as far as
tokens are read ahead.
-/

namespace Inkwell

namespace Yaml

structure Reader where
  lexer : Lexer
  /-- The handles in tags, and the starts of tags they stand for. -/
  handles : List (Text × Text) := []
  /-- The names of anchors and the places of their nodes, latest first. -/
  names : List (Text × Nat) := []
  anchors : Array Node := #[]
  aliases : Nat := 0

abbrev Read := StateT Reader Option

namespace Reader

/-! ## Tokens -/

def scan {α : Type} (step : Scan α) : Read α := do
  let r ← get
  let (a, lexer) ← StateT.lift (step.run r.lexer)
  set { r with lexer }
  return a

def peek : Read Token := scan Lexer.peek

def take : Read Unit := scan Lexer.take

/-! ## Tags and anchors -/

/-- What all tags that this notation defines start with. -/
def standardStart : Text := "tag:yaml.org,2002:"

/-- The handles that need no directive. -/
def standardHandles : List (Text × Text) := [("!", "!"), ("!!", standardStart)]

/-- A tag in its short form; the one that says nothing is empty. -/
def shortTag (t : Text) : Text :=
  if t = ("!" : Text) then ""
  else if t.startsWith standardStart then "!!" ++ t.drop standardStart.size
  else t

def tagOf (handle suffix : Text) : Read Text := do
  if handle.isEmpty then return suffix
  match (← get).handles.find? (·.1 = handle) with
  | some (_, start) => return start ++ suffix
  | none => failure

/-- What may stand in front of a node: an anchor and a tag. -/
structure Properties where
  anchor : Option Text := none
  tag : Option Text := none

def anchorFor (p : Properties) : Read Properties := do
  match ← peek with
  | .anchor name => take; return { p with anchor := some name }
  | _ => return p

def tagFor (p : Properties) : Read (Properties × Option (Text × Text)) := do
  match ← peek with
  | .tag handle suffix => take; return (p, some (handle, suffix))
  | _ => return (p, none)

def properties : Read Properties := do
  let p ← anchorFor {}
  let (p, tag) ← tagFor p
  let p ← if p.anchor.isNone && tag.isSome then anchorFor p else pure p
  match tag with
  | some (handle, suffix) => return { p with tag := some (← tagOf handle suffix) }
  | none => return p

/-- Reads a node and gives it an anchor, which holds already inside of the node. -/
def anchored (anchor : Option Text) (read : Read Node) : Read Node := do
  match anchor with
  | none => read
  | some name =>
    let place := (← get).anchors.size
    modify fun r => { r with
      names := (name, place) :: r.names
      anchors := r.anchors.push Node.none }
    let n ← read
    modify fun r => { r with anchors := r.anchors.setIfInBounds place n }
    return n

def aliasTo (name : Text) : Read Node := do
  let r ← get
  match r.names.lookup name with
  | some place =>
    set { r with aliases := r.aliases + 1 }
    return .alias r.aliases name place
  | none => failure

/-! ## Nodes -/

mutual

/-- Reads a node, which may be told by its indentation if `block`, and may be a sequence that is not
indented if `indentless`. -/
def node (block indentless : Bool) : Nat → Read Node
  | 0 => failure
  | rounds + 1 => do
    match ← peek with
    | .alias name =>
      take
      aliasTo name
    | _ =>
      let p ← properties
      let tag := shortTag (p.tag.getD "")
      match ← peek with
      | .scalar plain text =>
        take
        anchored p.anchor (pure (.scalar { plain, tag, text }))
      | .flowSequenceStart =>
        take
        anchored p.anchor (do return .sequence (← flowItems rounds true []))
      | .flowMappingStart =>
        take
        anchored p.anchor (do return .mapping (← flowEntries rounds true []))
      | .blockEntry =>
        if indentless then anchored p.anchor (do return .sequence (← indentlessItems rounds []))
        else empty p tag
      | .blockSequenceStart =>
        if block then
          take
          anchored p.anchor (do return .sequence (← blockItems rounds []))
        else empty p tag
      | .blockMappingStart =>
        if block then
          take
          anchored p.anchor (do return .mapping (← blockEntries rounds []))
        else empty p tag
      | _ => empty p tag

/-- The node of which there is only what stands in front of it. -/
def empty (p : Properties) (tag : Text) : Read Node :=
  if p.anchor.isSome || p.tag.isSome then anchored p.anchor (pure (.scalar { tag })) else failure

def blockItems : Nat → List Node → Read (List Node)
  | 0, _ => failure
  | rounds + 1, found => do
    match ← peek with
    | .blockEntry =>
      take
      match ← peek with
      | .blockEntry | .blockEnd => blockItems rounds (Node.none :: found)
      | _ => blockItems rounds ((← node true false rounds) :: found)
    | .blockEnd =>
      take
      return found.reverse
    | _ => failure

/-- Reads the items of a sequence that is a value and not indented, behind those found, latest
first. -/
def indentlessItems : Nat → List Node → Read (List Node)
  | 0, _ => failure
  | rounds + 1, found => do
    match ← peek with
    | .blockEntry =>
      take
      match ← peek with
      | .blockEntry | .key | .value | .blockEnd => indentlessItems rounds (Node.none :: found)
      | _ => indentlessItems rounds ((← node true false rounds) :: found)
    | _ => return found.reverse

def blockPart : Nat → Read Node
  | 0 => failure
  | rounds + 1 => do
    match ← peek with
    | .key | .value | .blockEnd => return Node.none
    | _ => node true true rounds

def blockEntries : Nat → List Node → Read (List Node)
  | 0, _ => failure
  | rounds + 1, found => do
    match ← peek with
    | .key =>
      take
      let key ← blockPart rounds
      match ← peek with
      | .value =>
        take
        blockEntries rounds ((← blockPart rounds) :: key :: found)
      | _ => blockEntries rounds (Node.none :: key :: found)
    | .blockEnd =>
      take
      return found.reverse
    | _ => failure

def flowItems : Nat → Bool → List Node → Read (List Node)
  | 0, _, _ => failure
  | rounds + 1, first, found => do
    if !first && (← peek) = .flowEntry then take
    else if !first && (← peek) ≠ .flowSequenceEnd then failure
    match ← peek with
    | .flowSequenceEnd =>
      take
      return found.reverse
    | .key =>
      take
      flowItems rounds false ((← flowPair rounds) :: found)
    | _ => flowItems rounds false ((← node false false rounds) :: found)

/-- Reads a mapping of one entry that is an item in brackets, behind the mark of its key. A key that
is left out takes the token that stands in its place. -/
def flowPair : Nat → Read Node
  | 0 => failure
  | rounds + 1 => do
    let key ←
      match ← peek with
      | .value | .flowEntry | .flowSequenceEnd => do
        take
        pure Node.none
      | _ => node false false rounds
    match ← peek with
    | .value =>
      take
      match ← peek with
      | .flowEntry | .flowSequenceEnd => return .mapping [key, Node.none]
      | _ => return .mapping [key, ← node false false rounds]
    | _ => return .mapping [key, Node.none]

def flowPart (isKey : Bool) : Nat → Read Node
  | 0 => failure
  | rounds + 1 => do
    match ← peek with
    | .flowEntry | .flowMappingEnd => return Node.none
    | .value => if isKey then return Node.none else node false false rounds
    | _ => node false false rounds

def flowEntries : Nat → Bool → List Node → Read (List Node)
  | 0, _, _ => failure
  | rounds + 1, first, found => do
    if !first && (← peek) = .flowEntry then take
    else if !first && (← peek) ≠ .flowMappingEnd then failure
    match ← peek with
    | .flowMappingEnd =>
      take
      return found.reverse
    | .key =>
      take
      let key ← flowPart true rounds
      match ← peek with
      | .value =>
        take
        flowEntries rounds false ((← flowPart false rounds) :: key :: found)
      | _ => flowEntries rounds false (Node.none :: key :: found)
    | _ => flowEntries rounds false (Node.none :: (← node false false rounds) :: found)

end

/-! ## Documents -/

/-- Reads the directives of a document. There must be no handle and no version twice, and the
version must be 1.1. -/
def directives : Nat → Bool → Read Unit
  | 0, _ => failure
  | rounds + 1, versioned => do
    match ← peek with
    | .version major minor =>
      if versioned || major ≠ 1 || minor ≠ 1 then failure
      take
      directives rounds true
    | .tagHandle handle start =>
      if (← get).handles.any (·.1 = handle) then failure
      take
      modify fun r => { r with handles := r.handles ++ [(handle, start)] }
      directives rounds versioned
    | _ => modify fun r => { r with handles := r.handles ++ standardHandles }

/-- Reads the node of the first document, if there is one, and the token behind it. -/
def document (rounds : Nat) : Read (Option Node) := do
  let isMarked : Token → Bool
    | .version .. | .tagHandle .. | .documentStart => true
    | _ => false
  let first ← peek
  if first = .streamEnd then return none
  directives rounds false
  let n ←
    if isMarked first then do
      if (← peek) ≠ .documentStart then failure
      take
      let next ← peek
      if isMarked next || next = .documentEnd || next = .streamEnd then pure Node.none
      else node true false rounds
    else node true false rounds
  let _ ← peek
  return some n

end Reader

def read? (t : Text) : Option Document := do
  let lexer := Lexer.ofText t
  let (root, r) ← (Reader.document (16 * lexer.limit + 64)).run { lexer }
  return { root, anchors := r.anchors }

end Yaml

end Inkwell
