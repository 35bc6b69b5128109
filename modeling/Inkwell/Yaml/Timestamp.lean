import Inkwell.Number.Reader

/-!
# Timestamps in a configuration document

A date, alone or with a time of day. The year has four digits and all other numbers one or two. The
time follows a letter and has a zone, or it follows spaces and has none; its seconds may have a
fraction.
-/

namespace Inkwell

namespace Yaml

def twoDigits? : List UInt8 → Option (Nat × List UInt8)
  | a :: b :: rest =>
    if !Number.isDigitByte a then none
    else if Number.isDigitByte b then some ((a.toNat - 48) * 10 + (b.toNat - 48), rest)
    else some (a.toNat - 48, b :: rest)
  | [a] => if Number.isDigitByte a then some (a.toNat - 48, []) else none
  | [] => none

def behind? (b : UInt8) : List UInt8 → Option (List UInt8)
  | c :: rest => if c = b then some rest else none
  | [] => none

def daysIn (year month : Nat) : Nat :=
  if month = 2 then
    if year % 4 = 0 && (year % 100 ≠ 0 || year % 400 = 0) then 29 else 28
  else if month = 4 || month = 6 || month = 9 || month = 11 then 30
  else 31

def behindDate? (bs : List UInt8) : Option (List UInt8) := do
  let digits := bs.takeWhile Number.isDigitByte
  if digits.length ≠ 4 then none
  let year := digits.foldl (fun n b => n * 10 + (b.toNat - 48)) 0
  let (month, bs) ← twoDigits? (← behind? 45 (bs.drop 4))
  if month < 1 || 12 < month then none
  let (day, bs) ← twoDigits? (← behind? 45 bs)
  if day < 1 || daysIn year month < day then none
  return bs

def behindTime? (bs : List UInt8) : Option (List UInt8) := do
  let (hour, bs) ← twoDigits? bs
  let (minute, bs) ← twoDigits? (← behind? 58 bs)
  let (second, bs) ← twoDigits? (← behind? 58 bs)
  if 24 ≤ hour || 60 ≤ minute || 60 ≤ second then none
  match bs with
  | point :: digit :: rest =>
    if (point = 46 || point = 44) && Number.isDigitByte digit then
      return rest.dropWhile Number.isDigitByte
    else return bs
  | _ => return bs

/-- Whether bytes are a zone: the letter for none, or a distance in hours and minutes. -/
def isZone : List UInt8 → Bool
  | [90] => true
  | [sign, a, b, 58, c, d] =>
    let hours := (a.toNat - 48) * 10 + (b.toNat - 48)
    let minutes := (c.toNat - 48) * 10 + (d.toNat - 48)
    (sign = 43 || sign = 45) && [a, b, c, d].all Number.isDigitByte && hours ≤ 24 && minutes ≤ 60
  | _ => false

def isTimestamp (t : Text) : Bool :=
  match behindDate? t.bytes with
  | none => false
  | some [] => true
  | some (mark :: rest) =>
    if mark = 84 || mark = 116 then ((behindTime? rest).map isZone).getD false
    else if mark = 32 then (behindTime? (rest.dropWhile (· = 32))).map List.isEmpty = some true
    else false

end Yaml

end Inkwell
