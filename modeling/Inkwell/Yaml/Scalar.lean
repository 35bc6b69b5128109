import Inkwell.Yaml.Cursor

/-!
# Scalars of a configuration document

Reading scalars: without quotes, in single or double quotes, and as blocks of lines. A line break
inside a scalar counts as a space, and further breaks directly behind it count as themselves; only
blocks can keep their lines.
-/

namespace Inkwell

namespace Yaml

/-! ## Gaps inside scalars -/

/-- A gap between two words of a scalar: whether there is a line break in it, the blanks in front of
that, and the line breaks, both latest first. -/
structure Gap where
  crossed : Bool := false
  blanks : List Char := []
  breaks : List Char := []

/-- What line breaks stand for. -/
def fold : List Char → List Char
  | ['\n'] => [' ']
  | '\n' :: rest => rest
  | breaks => breaks

def Gap.text (g : Gap) : List Char :=
  if g.crossed then fold g.breaks.reverse else g.blanks.reverse

/-- The gap that follows, and the place behind it. Behind a line break there must be no tab in a
column below `least`. Every round takes a character. -/
def takeGap (least : Int) : Nat → Gap → Cursor → Option (Gap × Cursor)
  | 0, g, c => some (g, c)
  | rounds + 1, g, c =>
    match c.rest with
    | [] => some (g, c)
    | x :: _ =>
      if isBreak x then
        let (b, d) := c.takeBreak
        takeGap least rounds { g with crossed := true, breaks := b ++ g.breaks } d
      else if isBlank x then
        if !g.crossed then takeGap least rounds { g with blanks := x :: g.blanks } c.skip
        else if x = '\t' && (c.column : Int) < least then none
        else takeGap least rounds g c.skip
      else some (g, c)

/-! ## Without quotes -/

def isFlowMark (c : Char) : Bool :=
  c = ',' || c = '?' || c = '[' || c = ']' || c = '\x7b' || c = '\x7d'

/-- The number of characters of a word of a scalar without quotes. -/
def wordLength (flow : Bool) : List Char → Nat
  | [] => 0
  | c :: rest =>
    if isBlank c || isBreak c || (c = ':' && atGap rest) || (flow && isFlowMark c) then 0
    else wordLength flow rest + 1

/-- A scalar without quotes: its text, whether line breaks behind it belong to it, and the place
behind it. -/
structure Plain where
  text : List Char
  crossed : Bool
  place : Cursor

/-- A scalar without quotes whose words so far are `found`, latest character first, followed by a
gap. Outside of brackets its lines start at the column `least` or behind it. Every round takes a
word; `limit` is more than the number of characters. -/
def plainFrom (limit : Nat) (flow : Bool) (least : Int) :
    Nat → List Char → Gap → Cursor → Option Plain
  | 0, _, _, _ => none
  | rounds + 1, found, g, c =>
    let ending (found : List Char) (g : Gap) (c : Cursor) : Plain :=
      { text := found.reverse, crossed := g.crossed, place := c }
    if c.isAtMark || startsWith '#' c.rest then some (ending found g c)
    else
      let length := wordLength flow c.rest
      let word := c.rest.take length
      let d := c.advance length
      let found := if length = 0 then found else word.reverse ++ (g.text.reverse ++ found)
      let g : Gap := if length = 0 then g else {}
      if d.rest.isEmpty || !atGap d.rest then some (ending found g d)
      else
        match takeGap least limit {} d with
        | none => none
        | some (g, d) =>
          if !flow && (d.column : Int) < least then some (ending found g d)
          else plainFrom limit flow least rounds found g d

def plain? (limit : Nat) (flow : Bool) (least : Int) (c : Cursor) : Option Plain :=
  plainFrom limit flow least limit [] {} c

def startsPlain (flow : Bool) : List Char → Bool
  | [] => false
  | c :: rest =>
    if c = '-' then !atGap rest
    else if c = '?' || c = ':' then !flow && !atGap rest
    else !(isBlank c || isBreak c || isFlowMark c || "#&*!|>'\"%@".toList.contains c || c = '\x60')

/-! ## In quotes -/

def escape? : Char → Option Char
  | '0' => some '\x00'
  | 'a' => some '\x07'
  | 'b' => some '\x08'
  | 't' => some '\t'
  | '\t' => some '\t'
  | 'n' => some '\n'
  | 'v' => some '\x0b'
  | 'f' => some '\x0c'
  | 'r' => some '\r'
  | 'e' => some '\x1b'
  | ' ' => some ' '
  | '"' => some '"'
  | '\'' => some '\''
  | '\\' => some '\\'
  | 'N' => some '\u0085'
  | '_' => some '\u00a0'
  | 'L' => some '\u2028'
  | 'P' => some '\u2029'
  | _ => none

def escapeDigits? : Char → Option Nat
  | 'x' => some 2
  | 'u' => some 4
  | 'U' => some 8
  | _ => none

def hexNumber? (digits : List Char) : Option Nat :=
  digits.foldlM (fun n d =>
    if d.toNat < 128 then (Text.hexValue? d.toUInt8).map (n * 16 + ·) else none) 0

/-- The character of an escape behind its backslash, and the number of characters that takes. -/
def escaped? (x : Char) (rest : List Char) : Option (Char × Nat) :=
  match escape? x with
  | some value => some (value, 1)
  | none =>
    match escapeDigits? x with
    | none => none
    | some n =>
      match if (rest.take n).length = n then hexNumber? (rest.take n) else none with
      | some value => if value.isValidChar then some (Char.ofNat value, n + 1) else none
      | none => none

/-- The content of a scalar in quotes and the place behind it; `found` is what precedes, latest
first. Only double quotes know escapes, and two single quotes stand for one. A line of it must not
look like a mark of a document. Every round takes at least a character. -/
def quotedFrom (double : Bool) : Nat → List Char → Cursor → Option (List Char × Cursor)
  | 0, _, _ => none
  | rounds + 1, found, c =>
    if c.isAtMark then none
    else
      match c.rest with
      | [] => none
      | x :: rest =>
        if isBlank x || isBreak x then
          match takeGap 0 rounds {} c with
          | none => none
          | some (g, d) => quotedFrom double rounds (g.text.reverse ++ found) d
        else if double && x = '"' then some (found.reverse, c.skip)
        else if !double && x = '\'' then
          if startsWith '\'' rest then quotedFrom double rounds ('\'' :: found) (c.advance 2)
          else some (found.reverse, c.skip)
        else if double && x = '\\' then
          match rest with
          | [] => none
          | y :: rest =>
            if isBreak y then
              match takeGap 0 rounds { crossed := true } c.skip.skipBreak with
              | none => none
              | some (g, d) => quotedFrom double rounds (g.breaks ++ found) d
            else
              match escaped? y rest with
              | none => none
              | some (value, width) =>
                quotedFrom double rounds (value :: found) (c.advance (width + 1))
        else quotedFrom double rounds (x :: found) c.skip

def quoted? (limit : Nat) (double : Bool) (c : Cursor) : Option (List Char × Cursor) :=
  quotedFrom double limit [] c.skip

/-! ## Blocks of lines -/

/-- How a block of lines ends: with one line break, with none, or with all it has. -/
inductive Chomp where
  | clip
  | strip
  | keep

def chomp? : Char → Option Chomp
  | '-' => some .strip
  | '+' => some .keep
  | _ => none

/-- The digit for how far a block is indented, if it is one. -/
def indentDigit? (c : Char) : Option Nat := if c.isDigit then some (c.toNat - 48) else none

structure BlockSigns where
  chomp : Chomp := .clip
  indent : Option Nat := none
  count : Nat := 0

/-- The signs that follow the mark of a block, in any order and each at most once. -/
def blockSigns (cs : List Char) : BlockSigns :=
  match cs with
  | a :: rest =>
    match chomp? a, indentDigit? a with
    | some chomp, _ =>
      match rest.head?.bind indentDigit? with
      | some n => { chomp, indent := some n, count := 2 }
      | none => { chomp, count := 1 }
    | none, some n =>
      match rest.head?.bind chomp? with
      | some chomp => { chomp, indent := some n, count := 2 }
      | none => { indent := some n, count := 1 }
    | none, none => {}
  | [] => {}

/-- The line breaks in front of the next line of a block, latest first, the largest column that a
line of spaces reaches, and the place behind them. The spaces of the indentation, which is not known
yet if it is zero, are passed over; a tab must not stand among them. -/
def blockBreaks (indent : Nat) : Nat → List Char → Nat → Cursor → Option (List Char × Nat × Cursor)
  | 0, _, _, _ => none
  | rounds + 1, breaks, widest, c =>
    let spaces := (c.rest.takeWhile (· = ' ')).length
    let c := c.advance (if indent = 0 then spaces else min spaces (indent - c.column))
    let widest := max widest c.column
    if (indent = 0 || c.column < indent) && startsWith '\t' c.rest then none
    else if c.rest.isEmpty || !atLineEnd c.rest then some (breaks, widest, c)
    else
      let (b, d) := c.takeBreak
      blockBreaks indent rounds (b ++ breaks) widest d

/-- The lines of a block from its place on, each of them indented by `indent`. What was found so far
comes latest first; `ending` is the break of the last line, `breaks` are those behind it, and
`blank` says whether that line starts with a blank. Every round takes a line. -/
def blockLines (limit : Nat) (folded : Bool) (indent : Nat) :
    Nat → List Char → List Char → List Char → Bool → Cursor →
      Option (List Char × List Char × List Char × Cursor)
  | 0, _, _, _, _, _ => none
  | rounds + 1, found, ending, breaks, blank, c =>
    if c.column ≠ indent || c.rest.isEmpty then some (found, ending, breaks, c)
    else
      let starts := c.rest.head?.any isBlank
      let joined :=
        if folded && !blank && !starts && startsWith '\n' ending then
          if breaks.isEmpty then ' ' :: found else found
        else ending ++ found
      let content := c.rest.takeWhile (!isBreak ·)
      let (ending, d) := (c.advance content.length).takeBreak
      match blockBreaks indent limit [] 0 d with
      | none => none
      | some (later, _, d) =>
        blockLines limit folded indent rounds (content.reverse ++ (breaks ++ joined)) ending later
          starts d

/-- The content of the block of lines that starts here, and the place behind it. The lines of a
block are indented by more than those around it, which are indented by `outer`. -/
def block? (limit : Nat) (folded : Bool) (outer : Int) (c : Cursor) :
    Option (List Char × Cursor) := do
  let signs := blockSigns (c.rest.drop 1)
  if signs.indent = some 0 then none
  let c := (c.advance (1 + signs.count)).skipWhile isBlank
  let c := if startsWith '#' c.rest then c.skipToLineEnd else c
  if !atLineEnd c.rest then none
  let given := signs.indent.map ((max outer 0).toNat + ·)
  let (breaks, widest, c) ← blockBreaks (given.getD 0) limit [] 0 c.skipBreak
  let indent := given.getD (max widest (max (outer + 1) 1).toNat)
  let (found, ending, breaks, c) ← blockLines limit folded indent limit [] [] breaks false c
  let tail :=
    match signs.chomp with
    | .strip => []
    | .clip => ending
    | .keep => breaks ++ ending
  return ((tail ++ found).reverse, c)

end Yaml

end Inkwell
