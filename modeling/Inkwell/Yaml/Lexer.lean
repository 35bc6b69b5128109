import Inkwell.Yaml.Encoding
import Inkwell.Yaml.Property

/-!
# Reading the tokens of a configuration document

Tokens are read as they are asked for, with two more ahead. The tokens that start a mapping and its
keys are not written: what may be a key is kept in mind, and when a colon follows it, they are put
in front of it. A key is on one line and has at most 1024 characters.
-/

namespace Inkwell

namespace Yaml

/-- What may be a key, on one level of brackets: the number of its first token, and its place. -/
structure Candidate where
  possible : Bool := false
  /-- Whether there is an error if it is no key. -/
  required : Bool := false
  number : Nat := 0
  index : Nat := 0
  line : Nat := 0
  column : Nat := 0
deriving Inhabited

structure Lexer where
  cursor : Cursor
  /-- More than the number of characters. -/
  limit : Nat
  /-- Whether the text goes on with something that cannot be decoded. -/
  broken : Bool := false
  /-- Whether the text starts with a second mark of its encoding. -/
  marked : Bool := false
  tokens : Array Token := #[]
  taken : Nat := 0
  /-- A candidate for every level of brackets, and one for outside. -/
  candidates : Array Candidate := #[{}]
  /-- The numbers of tokens that may start a key, with their levels. -/
  watched : List (Nat × Nat) := []
  indent : Int := -1
  indents : List Int := []
  keyAllowed : Bool := true

abbrev Scan := StateT Lexer Option

namespace Lexer

/-- The largest number of brackets, or of indented sequences and mappings, inside of each other. -/
def maxDepth : Nat := 10000

def maxKey : Nat := 1024

def inFlow (s : Lexer) : Bool := 1 < s.candidates.size

def level (s : Lexer) : Nat := s.candidates.size - 1

def ofText (t : Text) : Lexer :=
  let text := charactersOf t
  { cursor := { rest := text.chars }, limit := text.chars.length + 4, broken := text.broken,
    marked := startsWith '\ufeff' text.chars }

/-! ## Between tokens -/

/-- The place behind blanks and the two shortest line breaks. Every round takes a character. -/
def skipIdle : Nat → Cursor → Cursor
  | 0, c => c
  | rounds + 1, c =>
    match c.rest with
    | x :: _ =>
      if isBlank x then skipIdle rounds c.skip
      else if x = '\n' || x = '\r' then skipIdle rounds c.skipBreak
      else c
    | [] => c

/-- The end of the comment that starts here, or of the last one if only comments follow it. Every
round takes a comment. -/
def skipComments (limit : Nat) : Nat → Cursor → Cursor
  | 0, c => c
  | rounds + 1, c =>
    let c := c.skipToLineEnd
    let ahead := skipIdle limit c
    if startsWith '#' ahead.rest then skipComments limit rounds ahead else c

/-- The state at the next token. Outside of brackets a tab must not stand where a key may start.
Every round takes a line. -/
def skipGap : Nat → Lexer → Lexer
  | 0, s => s
  | rounds + 1, s =>
    let c := if s.marked && s.cursor.column = 0 then s.cursor.skip else s.cursor
    let c := c.skipWhile fun x => x = ' ' || (x = '\t' && (s.inFlow || !s.keyAllowed))
    let c := if startsWith '#' c.rest then skipComments s.limit s.limit c else c
    if !c.rest.isEmpty && atLineEnd c.rest then
      skipGap rounds { s with cursor := c.skipBreak, keyAllowed := s.keyAllowed || !s.inFlow }
    else { s with cursor := c }

def skipLineComment (c : Cursor) : Cursor :=
  let d := c.skipWhile isBlank
  if startsWith '#' d.rest then d.skipToLineEnd else c

/-! ## Tokens and indentation -/

def emit (t : Token) : Scan Unit := modify fun s => { s with tokens := s.tokens.push t }

/-- Puts a token in front of the one with a number, unless that has been taken. -/
def insert (number : Nat) (t : Token) : Scan Unit :=
  modify fun s =>
    if number < s.taken then { s with tokens := s.tokens.push t }
    else { s with tokens := s.tokens.insertIdxIfInBounds number t }

/-- The number of indented sequences and mappings that end at a column, given the innermost and the
others; and those that stay. -/
def closed (column : Int) : Int → List Int → Nat × Int × List Int
  | indent, outer :: rest =>
    if column < indent then
      let (n, indent, rest) := closed column outer rest
      (n + 1, indent, rest)
    else (0, indent, outer :: rest)
  | indent, [] => (0, indent, [])

/-- Ends the indented sequences and mappings that lie behind a column. -/
def closeBlocks (column : Int) : Scan Unit :=
  modify fun s =>
    if s.inFlow then s
    else
      let (n, indent, indents) := closed column s.indent s.indents
      { s with tokens := s.tokens ++ List.replicate n Token.blockEnd, indent, indents }

/-- Starts an indented sequence or mapping at a column, unless there is one; its token is put in
front of the one with a number, if that is given. -/
def openBlock (column : Nat) (number : Option Nat) (t : Token) : Scan Unit := do
  let s ← get
  if !s.inFlow && s.indent < column then
    if maxDepth ≤ s.indents.length then failure
    set { s with indents := s.indent :: s.indents, indent := column }
    match number with
    | some number => insert number t
    | none => emit t

/-! ## Keys -/

def dropCandidate : Scan Unit := do
  let s ← get
  let k := s.candidates.getD s.level {}
  if k.possible then
    if k.required then failure
    set { s with
      candidates := s.candidates.setIfInBounds s.level { k with possible := false }
      watched := s.watched.filter (·.1 ≠ k.number) }

def keepCandidate : Scan Unit := do
  let c := (← get).cursor
  if (← get).keyAllowed then
    dropCandidate
    modify fun s =>
      let k : Candidate :=
        { possible := true, required := !s.inFlow && s.indent == (c.column : Int),
          number := s.tokens.size, index := c.index, line := c.line, column := c.column }
      { s with
        candidates := s.candidates.setIfInBounds s.level k
        watched := (k.number, s.level) :: s.watched.filter (·.1 ≠ k.number) }

/-- Whether the candidate of a level can still be a key. -/
def isPossible (level : Nat) : Scan Bool := do
  let s ← get
  let k := s.candidates.getD level {}
  if !k.possible then return false
  if k.line < s.cursor.line || k.index + maxKey < s.cursor.index then
    if k.required then failure
    set { s with candidates := s.candidates.setIfInBounds level { k with possible := false } }
    return false
  return true

def allowKey (allowed : Bool) : Scan Unit := modify fun s => { s with keyAllowed := allowed }

/-! ## Reading one token -/

def moveTo (c : Cursor) : Scan Unit := modify fun s => { s with cursor := c }

def emitMark (t : Token) : Scan Unit := do
  moveTo (← get).cursor.skip
  emit t

def readEnd : Scan Unit := do
  modify fun s =>
    if s.cursor.column = 0 then s
    else { s with cursor := { s.cursor with column := 0, line := s.cursor.line + 1 } }
  closeBlocks (-1)
  dropCandidate
  allowKey false
  emit .streamEnd

/-- Ends what is open before a directive or the mark of a document. -/
def endDocument : Scan Unit := do
  closeBlocks (-1)
  dropCandidate
  allowKey false

def openBracket (t : Token) : Scan Unit := do
  keepCandidate
  let s ← get
  if maxDepth < s.candidates.size then failure
  let k : Candidate := { number := s.tokens.size }
  set { s with candidates := s.candidates.push k }
  allowKey true
  emitMark t

def closeBracket (t : Token) : Scan Unit := do
  dropCandidate
  modify fun s =>
    if s.inFlow then
      let k := s.candidates.getD s.level {}
      { s with candidates := s.candidates.pop, watched := s.watched.filter (·.1 ≠ k.number) }
    else s
  allowKey false
  emitMark t

def readEntry : Scan Unit := do
  let s ← get
  if !s.inFlow then
    if !s.keyAllowed then failure
    openBlock s.cursor.column none .blockSequenceStart
  dropCandidate
  allowKey true
  emitMark .blockEntry

def readKey : Scan Unit := do
  let s ← get
  if !s.inFlow then
    if !s.keyAllowed then failure
    openBlock s.cursor.column none .blockMappingStart
  dropCandidate
  allowKey (!s.inFlow)
  emitMark .key

def readValue : Scan Unit := do
  let level := (← get).level
  if ← isPossible level then
    let s ← get
    let k := s.candidates.getD level {}
    insert k.number .key
    openBlock k.column (some k.number) .blockMappingStart
    modify fun s => { s with
      candidates := s.candidates.setIfInBounds level { k with possible := false }
      watched := s.watched.filter (·.1 ≠ k.number) }
    allowKey false
  else
    let s ← get
    if !s.inFlow then
      if !s.keyAllowed then failure
      openBlock s.cursor.column none .blockMappingStart
    allowKey (!s.inFlow)
  emitMark .value

def readPart (read : Cursor → Option (Token × Cursor)) : Scan Unit := do
  keepCandidate
  allowKey false
  let (t, c) ← StateT.lift (read (← get).cursor)
  moveTo c
  emit t

def readPlain : Scan Unit := do
  keepCandidate
  allowKey false
  let s ← get
  let p ← StateT.lift (plain? s.limit s.inFlow (s.indent + 1) s.cursor)
  set { s with cursor := p.place, keyAllowed := p.crossed }
  emit (.scalar true (textOf p.text))

def readBlock (folded : Bool) : Scan Unit := do
  dropCandidate
  let s ← get
  let (content, c) ← StateT.lift (block? s.limit folded s.indent s.cursor)
  set { s with cursor := c, keyAllowed := true }
  emit (.scalar false (textOf content))

def passComment : Scan Unit := do moveTo (skipLineComment (← get).cursor)

def readToken (x : Char) (rest : List Char) : Scan Unit := do
  let s ← get
  let anchor (make : Text → Token) (c : Cursor) : Option (Token × Cursor) :=
    (anchorName? c).map fun (name, c) => (make name, c)
  let quoted (double : Bool) (c : Cursor) : Option (Token × Cursor) :=
    (quoted? s.limit double c).map fun (text, c) => (.scalar false (textOf text), c)
  let spaced := s.inFlow || atGap rest
  if x = '[' then openBracket .flowSequenceStart; passComment
  else if x = '\x7b' then openBracket .flowMappingStart; passComment
  else if x = ']' then closeBracket .flowSequenceEnd; passComment
  else if x = '\x7d' then closeBracket .flowMappingEnd; passComment
  else if x = ',' then
    dropCandidate
    allowKey true
    emitMark .flowEntry
    passComment
  else if x = '-' && atGap rest then readEntry
  else if x = '?' && spaced then readKey; passComment
  else if x = ':' && spaced then readValue; passComment
  else if x = '*' then readPart (anchor .alias); passComment
  else if x = '&' then readPart (anchor .anchor); passComment
  else if x = '!' then readPart (tag? s.limit); passComment
  else if x = '|' && !s.inFlow then readBlock false
  else if x = '>' && !s.inFlow then readBlock true
  else if x = '\'' then readPart (quoted false); passComment
  else if x = '"' then readPart (quoted true); passComment
  else if startsPlain s.inFlow (x :: rest) then
    readPlain
    if !(← get).keyAllowed then passComment
  else failure

/-- Fails if the text cannot be decoded up to a number of characters behind the place. -/
def needs (n : Nat) : Scan Unit := do
  let s ← get
  if s.broken && (s.cursor.rest.drop (n - 1)).isEmpty then failure

def readNext : Scan Unit := do
  modify fun s => skipGap s.limit s
  let s ← get
  closeBlocks s.cursor.column
  needs 4
  let c := s.cursor
  let mark (t : Token) : Scan Unit := do
    endDocument
    moveTo (c.advance 3)
    emit t
  match c.rest with
  | [] => readEnd
  | x :: rest =>
    if c.column = 0 && x = '%' then
      endDocument
      let (t, c) ← StateT.lift (directive? s.limit c)
      moveTo c
      emit t
    else if c.column = 0 && startsDocument c.rest then mark .documentStart
    else if c.column = 0 && endsDocument c.rest then mark .documentEnd
    else readToken x rest
  needs 1

/-! ## Taking tokens -/

/-- Reads tokens until the next one to take is known: until there are two more behind it, and it is
clear whether it starts a key. Every round reads a token. -/
def prepare : Nat → Scan Unit
  | 0 => failure
  | rounds + 1 => do
    let s ← get
    let isKnown ←
      if s.taken + 2 < s.tokens.size then
        match s.watched.lookup s.taken with
        | none => pure true
        | some level => do pure !(← isPossible level)
      else pure false
    if isKnown then return ()
    readNext
    prepare rounds

def peek : Scan Token := do
  prepare ((← get).limit + 4)
  let s ← get
  match s.tokens[s.taken]? with
  | some t => return t
  | none => failure

def take : Scan Unit := modify fun s => { s with taken := s.taken + 1 }

end Lexer

end Yaml

end Inkwell
