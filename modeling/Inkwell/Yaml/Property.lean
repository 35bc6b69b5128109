import Inkwell.Yaml.Scalar
import Inkwell.Yaml.Token

/-!
# Anchors, tags and directives

What may stand in front of a node or of a whole document: the name of an anchor, a tag, and
directives, each on a line of its own, that tell the version or the meaning of a handle in tags.
-/

namespace Inkwell

namespace Yaml

def textOf (cs : List Char) : Text := Text.ofChars cs

/-- The word that follows, which may be empty, and the place behind it. -/
def takeWord (c : Cursor) : List Char × Cursor :=
  (c.rest.takeWhile isWordChar, c.skipWhile isWordChar)

/-- The name of an anchor or of an alias behind its mark, and the place behind it. -/
def anchorName? (c : Cursor) : Option (Text × Cursor) :=
  let (name, c) := takeWord c.skip
  let ends : Bool :=
    match c.rest with
    | x :: _ => "?:,]\x7d%@".toList.contains x || x = '\x60'
    | [] => true
  if !name.isEmpty && (atGap c.rest || ends) then some (textOf name, c) else none

/-! ## Tags -/

def isTagChar (c : Char) : Bool := isWordChar c || ";/?:@&=+$,.!~*'()[]%".toList.contains c

/-- The bytes of one character in a tag that is written as escapes, and the number of characters
that takes: a first byte that tells how many there are, and those that continue it. -/
def tagEscape? : Nat → Option Nat → List Char → Option (List UInt8 × Nat)
  | 0, _, _ => none
  | rounds + 1, missing, cs =>
    match missing, cs with
    | some 0, _ => some ([], 0)
    | _, '%' :: a :: b :: rest =>
      match hexNumber? [a, b] with
      | none => none
      | some n =>
        let octet := n.toUInt8
        let left : Option Nat :=
          match missing with
          | none =>
            if n < 0x80 then some 0
            else if n / 0x20 = 6 then some 1
            else if n / 0x10 = 14 then some 2
            else if n / 8 = 30 then some 3
            else none
          | some left => if n / 0x40 = 2 then some (left - 1) else none
        match left with
        | none => none
        | some left =>
          (tagEscape? rounds (some left) rest).map fun (bs, width) => (octet :: bs, width + 3)
    | _, _ => none

/-- The rest of a tag, behind the bytes found, latest first, and the place behind it. Every round
takes a character. -/
def tagBytes : Nat → List UInt8 → Cursor → Option (List UInt8 × Cursor)
  | 0, _, _ => none
  | rounds + 1, found, c =>
    match c.rest with
    | [] => some (found.reverse, c)
    | x :: _ =>
      if x = '%' then
        match tagEscape? 5 none c.rest with
        | some (bs, width) => tagBytes rounds (bs.reverse ++ found) (c.advance width)
        | none => none
      else if isTagChar x then tagBytes rounds (x.toUInt8 :: found) c.skip
      else some (found.reverse, c)

/-- The handle of a tag and the place behind it: an exclamation mark, and a word with another behind
it, if that follows. -/
def takeHandle (c : Cursor) : List Char × Cursor :=
  let (word, d) := takeWord c.skip
  if startsWith '!' d.rest then ('!' :: (word ++ ['!']), d.skip) else ('!' :: word, d)

/-- Whether characters are a handle with an exclamation mark on both sides. -/
def isFullHandle (handle : List Char) : Bool :=
  2 ≤ handle.length && handle.getLast? = some '!'

/-- The tag that starts here, and the place behind it. A tag is written in full between angle
brackets, with a handle in front, or with an exclamation mark alone in front. -/
def tag? (limit : Nat) (c : Cursor) : Option (Token × Cursor) := do
  let (token, c) ←
    if startsWith '<' (c.rest.drop 1) then do
      let (suffix, c) ← tagBytes limit [] (c.advance 2)
      if suffix.isEmpty || !startsWith '>' c.rest then none
      pure (Token.tag "" (Text.ofBytes suffix), c.skip)
    else do
      let (handle, d) := takeHandle c
      if isFullHandle handle then do
        let (suffix, d) ← tagBytes limit [] d
        if suffix.isEmpty then none
        pure (Token.tag (textOf handle) (Text.ofBytes suffix), d)
      else do
        let (suffix, d) ← tagBytes limit ((textOf handle).bytes.drop 1).reverse d
        if suffix.isEmpty then pure (Token.tag "" "!", d)
        else pure (Token.tag "!" (Text.ofBytes suffix), d)
  if atGap c.rest then some (token, c) else none

/-! ## Directives -/

def versionNumber? (c : Cursor) : Option (Nat × Cursor) :=
  let digits := c.rest.takeWhile Char.isDigit
  if digits.isEmpty || 2 < digits.length then none
  else some (digits.foldl (fun n d => n * 10 + (d.toNat - 48)) 0, c.advance digits.length)

/-- The version behind the name of its directive. -/
def version? (c : Cursor) : Option (Token × Cursor) := do
  let (major, c) ← versionNumber? (c.skipWhile isBlank)
  if !startsWith '.' c.rest then none
  let (minor, c) ← versionNumber? c.skip
  return (.version major minor, c)

def tagHandle? (limit : Nat) (c : Cursor) : Option (Token × Cursor) := do
  let c := c.skipWhile isBlank
  if !startsWith '!' c.rest then none
  let (handle, c) := takeHandle c
  if handle ≠ ['!'] && !isFullHandle handle then none
  if !(c.rest.head?.any isBlank) then none
  let (start, c) ← tagBytes limit [] (c.skipWhile isBlank)
  if start.isEmpty || !atGap c.rest then none
  return (.tagHandle (textOf handle) (Text.ofBytes start), c)

def directive? (limit : Nat) (c : Cursor) : Option (Token × Cursor) := do
  let (name, c) := takeWord c.skip
  if !atGap c.rest then none
  let (token, c) ←
    if name = "YAML".toList then version? c
    else if name = "TAG".toList then tagHandle? limit c
    else none
  let c := c.skipWhile isBlank
  let c := if startsWith '#' c.rest then c.skipToLineEnd else c
  if atLineEnd c.rest then return (token, c.skipBreak) else none

end Yaml

end Inkwell
