/-!
# Numbers

A number is an IEEE-754 double, given by its sixty-four bits. Two numbers are the same value of this
type when they have the same bits, so `0` and `-0` differ here and a not-a-number keeps its payload;
`Number.equal` is the comparison programs see. Conversions work on the exact value `m · 2^q` of the
bits, so they need no floating-point operation.
-/

namespace Inkwell

/-- An IEEE-754 double by its bit pattern. -/
structure Number where
  bits : UInt64
deriving DecidableEq, Hashable

namespace Number

instance : Inhabited Number := ⟨⟨0⟩⟩

/-! ## The parts of a bit pattern -/

/-- The weight of the exponent field's lowest bit. -/
def hiddenBit : Nat := 1 <<< 52

def signBit : Nat := 1 <<< 63

def isNegative (n : Number) : Bool := 0x8000000000000000 ≤ n.bits

def magnitudeBits (n : Number) : Nat := (n.bits % 0x8000000000000000).toNat

def exponentField (n : Number) : Nat := n.magnitudeBits / hiddenBit

def fraction (n : Number) : Nat := n.magnitudeBits % hiddenBit

def infiniteBits : Nat := 2047 * hiddenBit

def isNaN (n : Number) : Bool := infiniteBits < n.magnitudeBits

def isInfinite (n : Number) : Bool := n.magnitudeBits == infiniteBits

def isFinite (n : Number) : Bool := n.magnitudeBits < infiniteBits

/-- The natural factor `m` of the magnitude `m · 2^q` of a finite number. -/
def significand (n : Number) : Nat :=
  if n.exponentField = 0 then n.fraction else n.fraction + hiddenBit

/-- The exponent `q` of the magnitude `m · 2^q` of a finite number. -/
def scale (n : Number) : Int :=
  if n.exponentField = 0 then -1074 else (n.exponentField : Int) - 1075

def ofMagnitudeBits (negative : Bool) (bits : Nat) : Number :=
  ⟨(if negative then bits + signBit else bits).toUInt64⟩

/-! ## Rounding a quotient to the nearest number -/

/-- The quotient rounded to the nearest integer, a half to the even one. -/
def divideToEven (n d : Nat) : Nat :=
  let quotient := n / d
  let twice := 2 * (n % d)
  if twice < d then quotient
  else if d < twice then quotient + 1
  else if quotient % 2 = 0 then quotient else quotient + 1

/-- The exponent of the power of two just below or at the positive quotient `n / d`. -/
def floorLog2 (n d : Nat) : Int :=
  let guess : Int := (n.log2 : Int) - d.log2
  if d <<< guess.toNat ≤ n <<< (-guess).toNat then guess else guess - 1

/-- The magnitude bits of the number nearest to `n / d`, a tie going to the even significand; the
infinite bits when the quotient is too large. -/
def nearestBits (n d : Nat) : Nat :=
  if n = 0 then 0
  else
    let q : Int := max (floorLog2 n d - 52) (-1074)
    let significand := divideToEven (n <<< (-q).toNat) (d <<< q.toNat)
    min ((q + 1074).toNat * hiddenBit + significand) infiniteBits

def nearest (negative : Bool) (n d : Nat) : Number :=
  ofMagnitudeBits negative (nearestBits n d)

def ofInt (n : Int) : Number := nearest (n < 0) n.natAbs 1

def ofNat (n : Nat) : Number := nearest false n 1

def ofDecimal (negative : Bool) (digits : Nat) (exponent : Int) : Number :=
  nearest negative (digits * Nat.pow 10 exponent.toNat) (Nat.pow 10 (-exponent).toNat)

def ofBinary (negative : Bool) (m : Nat) (exponent : Int) : Number :=
  nearest negative (m <<< exponent.toNat) (1 <<< (-exponent).toNat)

/-! ## Integers -/

/-- The magnitude of a finite number without its fraction. -/
def truncatedMagnitude (n : Number) : Nat :=
  n.significand <<< n.scale.toNat >>> (-n.scale).toNat

def truncate (n : Number) : Int :=
  if n.isNegative then -(n.truncatedMagnitude : Int) else n.truncatedMagnitude

def isIntegral (n : Number) : Bool :=
  n.isFinite && n.significand <<< n.scale.toNat % 1 <<< (-n.scale).toNat == 0

/-- The number rounded toward zero as a sixty-four bit integer; the least one when the number is not
in their range. -/
def toInt64 (n : Number) : Int64 :=
  if n.isFinite && -(1 <<< 63 : Nat) ≤ n.truncate && n.truncate < (1 <<< 63 : Nat) then
    Int64.ofInt n.truncate
  else Int64.minValue

/-! ## Arithmetic -/

def toFloat (n : Number) : Float := Float.ofBits n.bits

def ofFloat (x : Float) : Number := ⟨x.toBits⟩

/-- The not-a-number an operation on numbers gives when it has no result. -/
def invalid : Number := ⟨0xfff8000000000000⟩

/-- The not-a-number that stands for an absent number. -/
def undefined : Number := ⟨0x7ff8000000000001⟩

/-- A not-a-number as an operation hands it on. -/
def quiet (n : Number) : Number := ⟨n.bits ||| 0x0008000000000000⟩

/-- A machine operation on two numbers: the first operand that is not a number is the result, and
an operation without a result gives `invalid`. -/
def operate (operation : Float → Float → Float) (a b : Number) : Number :=
  if a.isNaN then a.quiet
  else if b.isNaN then b.quiet
  else
    let result := ofFloat (operation a.toFloat b.toFloat)
    if result.isNaN then invalid else result

instance : Add Number := ⟨operate (· + ·)⟩
instance : Sub Number := ⟨operate (· - ·)⟩
instance : Mul Number := ⟨operate (· * ·)⟩
instance : Div Number := ⟨operate (· / ·)⟩

def negate (n : Number) : Number := ⟨n.bits ^^^ 0x8000000000000000⟩

def isZero (n : Number) : Bool := n.magnitudeBits == 0

/-- Whether two numbers are equal: a not-a-number equals nothing, and zeros of both signs are
equal. -/
def equal (a b : Number) : Bool :=
  !a.isNaN && !b.isNaN && (a.bits == b.bits || a.isZero && b.isZero)

def less (a b : Number) : Bool := a.toFloat < b.toFloat

/-- The remainder of a division rounded toward zero: it has the sign of the dividend and a smaller
magnitude than the divisor. -/
def remainder (a b : Number) : Number :=
  if b.isZero || !a.isFinite || b.isNaN then undefined
  else if b.isInfinite then a
  else
    let q := min a.scale b.scale
    let dividend := a.significand <<< (a.scale - q).toNat
    let divisor := b.significand <<< (b.scale - q).toNat
    ofBinary a.isNegative (dividend % divisor) q

def bitwise (operation : Int64 → Int64 → Int64) (a b : Number) : Number :=
  ofInt (operation a.toInt64 b.toInt64).toInt

end Number

end Inkwell
