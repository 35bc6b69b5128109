import Inkwell.Number.Basic

/-!
# Numbers of other formats

A number rounded to single precision, and cut off to an integer without a sign.
-/

namespace Inkwell.Number

/-- The number nearest in single precision, of two equally near ones the one whose last digit is
even; numbers too large become infinite. -/
def toSingle (n : Number) : Number :=
  if n.isNaN then ⟨n.quiet.bits &&& 0xffffffffe0000000⟩
  else if !n.isFinite then n
  else
    let m := n.significand
    let scale := max (n.scale + (Nat.log2 m + 1 : Nat) - 24) (-149)
    if scale ≤ n.scale then n
    else
      let rounded := divideToEven m (1 <<< (scale - n.scale).toNat)
      if 1 <<< 128 ≤ rounded <<< scale.toNat then ofMagnitudeBits n.isNegative infiniteBits
      else ofBinary n.isNegative rounded scale

/-- The number rounded toward zero as a sixty-four bit integer without a sign, of which negative
ones wrap around. -/
def toUInt64 (n : Number) : UInt64 :=
  if n.isFinite && !n.isNegative && 1 <<< 63 ≤ n.truncatedMagnitude then
    if n.truncatedMagnitude < 1 <<< 64 then n.truncatedMagnitude.toUInt64 else 0x8000000000000000
  else n.toInt64.toUInt64

end Inkwell.Number
