import Inkwell.Fault
import Inkwell.Value.Datum

/-!
# Keys

A key of a composite is an index or a label. Numbers that are natural and strings that spell one in
the shortest way are the same index; every other number and string is a label.
-/

namespace Inkwell

/-- A key of a composite after the two spellings of an index have been identified. -/
inductive Key where
  | index (i : Nat)
  /-- A key that is no index, by its text; the datum is the key as it was given. -/
  | label (text : Text) (given : Datum)
deriving DecidableEq, Inhabited

namespace Key

def maxIndex : Nat := 1 <<< 31 - 1

def indexOfNumber? (n : Number) : Option Nat :=
  if n.isIntegral && (!n.isNegative || n.isZero) && n.truncatedMagnitude ≤ maxIndex then
    some n.truncatedMagnitude
  else none

/-- The index that a text spells in at most nine digits without a leading zero. -/
def indexOfText? (t : Text) : Option Nat :=
  let ds := t.bytes
  if ds.isEmpty || 9 < ds.length then none
  else if 1 < ds.length && ds.head? == some 48 then none
  else if ds.all fun d => 48 ≤ d && d ≤ 57 then
    some (ds.foldl (fun n d => n * 10 + (d.toNat - 48)) 0)
  else none

def ofDatum : Datum → Except Fault Key
  | .number n =>
    match indexOfNumber? n with
    | some i => .ok (.index i)
    | none => .ok (.label n.format (.number n))
  | .string t =>
    match indexOfText? t with
    | some i => .ok (.index i)
    | none => .ok (.label t (.string t))
  | d => .error (.invalidKey d.typeName)

def text : Key → Text
  | index i => Text.ofNat i
  | label text _ => text

def datum : Key → Datum
  | index i => .number (Number.ofNat i)
  | label _ given => given

end Key

def Datum.byteIndex : Datum → Except Fault Nat
  | .number n =>
    match Key.indexOfNumber? n with
    | some i => .ok i
    | none => .error (.invalidStringIndex n.format)
  | .string t =>
    match Key.indexOfText? t with
    | some i => .ok i
    | none => .error (.invalidStringIndex t.singleQuoted)
  | d => .error (.invalidKey d.typeName)

end Inkwell
