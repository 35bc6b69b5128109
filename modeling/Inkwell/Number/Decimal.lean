import Inkwell.Number.Basic
import Inkwell.Text.Basic

/-!
# Decimal spelling of numbers

A number is written with the fewest decimal digits that read back as the same number; among those
the nearest to it, and of two equally near the one with an even last digit. It is written
positionally, without an exponent.
-/

namespace Inkwell.Number

/-- A decimal `digits · 10^exponent`. -/
structure Decimal where
  digits : Nat
  exponent : Int
deriving DecidableEq

/-- The reals that read back as `m · 2^q`, in quarters of `2^q`: from `low` to `high`, the ends
included exactly when `m` is even. -/
structure Interval where
  low : Nat
  middle : Nat
  high : Nat
  closed : Bool

/-- The interval of a positive finite number. Below a power of two the neighbours are twice as
dense. -/
def interval (n : Number) : Interval :=
  let m := n.significand
  { low := if m = hiddenBit && 1 < n.exponentField then 4 * m - 1 else 4 * m - 2
    middle := 4 * m
    high := 4 * m + 2
    closed := m % 2 = 0 }

/-- The two numbers of a grid of step `s` next to the middle of an interval whose unit is `u`; of
those inside the interval the nearer, of two equally near the even one. -/
def Interval.gridPoint? (i : Interval) (u s : Nat) : Option Nat :=
  let below := i.middle * u / s
  let above := below + 1
  let inside := fun (d : Nat) =>
    if i.closed then i.low * u ≤ d * s && d * s ≤ i.high * u
    else i.low * u < d * s && d * s < i.high * u
  match inside below, inside above with
  | false, false => none
  | true, false => some below
  | false, true => some above
  | true, true =>
    let down := i.middle * u - below * s
    let up := above * s - i.middle * u
    if down < up then some below
    else if up < down then some above
    else if below % 2 = 0 then some below else some above

/-- The coarsest decimal in the interval of `n`, looking at the grids of step `10^exponent`,
`10^(exponent - 1)` and so on. -/
def coarsest (n : Number) : Nat → Int → Decimal
  | 0, exponent => ⟨0, exponent⟩
  | fuel + 1, exponent =>
    let q := n.scale - 2
    let u := Nat.pow 10 (-exponent).toNat <<< q.toNat
    let s := Nat.pow 10 exponent.toNat <<< (-q).toNat
    match n.interval.gridPoint? u s with
    | some d => ⟨d, exponent⟩
    | none => coarsest n fuel (exponent - 1)

/-- The fewest digits that read back as the positive finite number `n`. Its magnitude is below
`2^b`, so the first grid is coarser than the number, and twenty finer ones have more than
seventeen digits. -/
def shortest (n : Number) : Decimal :=
  let b : Int := n.scale + n.significand.log2 + 1
  coarsest n 22 (b * 30103 / 100000 + 1)

def Decimal.positional (d : Decimal) : Text :=
  let digits := Text.ofNat d.digits
  if 0 ≤ d.exponent then
    digits ++ Text.ofBytes (List.replicate d.exponent.toNat 48)
  else
    let places := (-d.exponent).toNat
    if places < digits.size then
      digits.take (digits.size - places) ++ "." ++ digits.drop (digits.size - places)
    else
      "0." ++ Text.ofBytes (List.replicate (places - digits.size) 48) ++ digits

def spelling (n : Number) : Text :=
  if n.isNaN then "NaN"
  else if n.isInfinite then if n.isNegative then "-Inf" else "+Inf"
  else
    let sign : Text := if n.isNegative then "-" else ""
    if n.isZero then sign ++ "0" else sign ++ n.shortest.positional

/-- The number as a program shows it: an integer below `10^15` is written as one, so without the
sign of a zero, and any other number by its spelling. -/
def format (n : Number) : Text :=
  if n.isIntegral && n.truncatedMagnitude < 1000000000000000 then Text.ofInt n.truncate
  else n.spelling

end Inkwell.Number
