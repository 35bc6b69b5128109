import Inkwell.Cbor.Item

/-!
# Reading items

The item that a text spells. Numbers may be longer than needed, and strings, arrays and maps may be
written without their length, closed by a break. A text that ends too early or goes on behind the
item spells none; nor does one whose items are nested too deep or that has too many of them.
-/

namespace Inkwell

namespace Cbor

def maxDepth : Nat := 32

/-- How many items an array, and how many entries a map, may have. -/
def maxItems : Nat := 131072

/-- The first bytes of an item: its kind, and a number, which is missing if an array, map or string
is closed by a break. -/
structure Head where
  kind : Nat
  info : Nat
  number : Option Nat

def bytesNumber? (n : Nat) (bs : List UInt8) : Option (Nat × List UInt8) :=
  let (number, rest) := bs.splitAt n
  if number.length = n then some (number.foldl (fun v b => v * 256 + b.toNat) 0, rest) else none

def head? : List UInt8 → Option (Head × List UInt8)
  | [] => none
  | b :: rest =>
    let kind := b.toNat / 32
    let info := b.toNat % 32
    let numbered (n : Nat) : Option (Head × List UInt8) := do
      let (number, rest) ← bytesNumber? n rest
      if kind = 7 && info = 24 && number < 32 then none
      else some (⟨kind, info, some number⟩, rest)
    if info < 24 then some (⟨kind, info, some info⟩, rest)
    else if info = 24 then numbered 1
    else if info = 25 then numbered 2
    else if info = 26 then numbered 4
    else if info = 27 then numbered 8
    else if info = 31 && 2 ≤ kind && kind ≤ 5 then some (⟨kind, info, none⟩, rest)
    else none

def breakByte : UInt8 := 255

def content? (n : Nat) (bs : List UInt8) : Option (Text × List UInt8) :=
  let (content, rest) := bs.splitAt n
  if content.length = n then some (Text.ofBytes content, rest) else none

/-- The chunks of a string up to the break; every round takes one. -/
def chunks? (kind : Nat) (found : List Text) : Nat → List UInt8 → Option (List Text × List UInt8)
  | 0, _ => none
  | rounds + 1, bs =>
    match bs with
    | [] => none
    | b :: rest =>
      if b = breakByte then some (found.reverse, rest)
      else
        match head? bs with
        | some ({ kind := k, number := some n, .. }, rest) =>
          if k = kind then
            match content? n rest with
            | some (chunk, rest) => chunks? kind (chunk :: found) rounds rest
            | none => none
          else none
        | _ => none

/-- The item of kind 7 with the given form and number. -/
def plainItem (info number : Nat) : Item :=
  if info = 25 then .float 2 number
  else if info = 26 then .float 4 number
  else if info = 27 then .float 8 number
  else .simple number

def startsTag : List UInt8 → Bool
  | b :: _ => b.toNat / 32 = 6
  | [] => false

mutual

/-- The item at the start of some bytes, inside `depth` others, and the bytes behind it. Every item
takes a byte, so a number of rounds above twice the number of bytes is enough. -/
def item? : Nat → Nat → List UInt8 → Option (Item × List UInt8)
  | 0, _, _ => none
  | rounds + 1, depth, bs =>
    match head? bs with
    | none => none
    | some ({ kind, info, number }, rest) =>
      match kind, number with
      | 0, some n => some (.unsigned n, rest)
      | 1, some n => some (.negative n, rest)
      | 2, some n => (content? n rest).map fun (content, rest) => (.bytes [content], rest)
      | 2, none => (chunks? 2 [] (rounds + 1) rest).map fun (chunks, rest) => (.bytes chunks, rest)
      | 3, some n => (content? n rest).map fun (content, rest) => (.text [content], rest)
      | 3, none => (chunks? 3 [] (rounds + 1) rest).map fun (chunks, rest) => (.text chunks, rest)
      | 4, some n =>
        if maxDepth ≤ depth || maxItems < n then none
        else (items? rounds (depth + 1) n [] rest).map fun (items, rest) => (.array items, rest)
      | 4, none =>
        if maxDepth ≤ depth then none
        else (itemsToBreak? rounds (depth + 1) 0 [] rest).bind fun (count, items, rest) =>
          if maxItems < count then none else some (.array items, rest)
      | 5, some n =>
        if maxDepth ≤ depth || maxItems < n then none
        else (items? rounds (depth + 1) (2 * n) [] rest).map fun (items, rest) =>
          (.map items, rest)
      | 5, none =>
        if maxDepth ≤ depth then none
        else (itemsToBreak? rounds (depth + 1) 0 [] rest).bind fun (count, items, rest) =>
          if maxItems < count / 2 || count % 2 = 1 then none else some (.map items, rest)
      | 6, some tag =>
        let inner := if startsTag rest then depth + 1 else depth
        if maxDepth < inner then none
        else (item? rounds inner rest).map fun (item, rest) => (.tagged tag item, rest)
      | _, some n => some (plainItem info n, rest)
      | _, none => none

def items? : Nat → Nat → Nat → List Item → List UInt8 → Option (List Item × List UInt8)
  | _, _, 0, found, bs => some (found.reverse, bs)
  | 0, _, _ + 1, _, _ => none
  | rounds + 1, depth, count + 1, found, bs =>
    match item? rounds depth bs with
    | some (item, rest) => items? rounds depth count (item :: found) rest
    | none => none

def itemsToBreak? : Nat → Nat → Nat → List Item → List UInt8 →
    Option (Nat × List Item × List UInt8)
  | 0, _, _, _, _ => none
  | _ + 1, _, _, _, [] => none
  | rounds + 1, depth, count, found, b :: rest =>
    if b = breakByte then some (count, found.reverse, rest)
    else
      match item? rounds depth (b :: rest) with
      | some (item, rest) => itemsToBreak? rounds depth (count + 1) (item :: found) rest
      | none => none

end

def read? (t : Text) : Option Item :=
  match item? (2 * t.size + 2) 0 t.bytes with
  | some (item, []) => some item
  | _ => none

end Cbor

end Inkwell
