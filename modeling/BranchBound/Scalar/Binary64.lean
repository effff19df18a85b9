import BranchBound.Scalar.Basic
import BranchBound.Decimal.Shortest

/-! # Binary floating-point numbers as scalars

The operations of `Scalar` on 64-bit floating-point numbers. Rounding to whole numbers, the total
order and the conversions to and from decimals work on the bit pattern: one sign bit, eleven bits
of exponent and fifty-two bits of mantissa. -/

namespace BranchBound.Binary64

/-- The biased exponent of a number. -/
def biasedExponent (x : Float) : UInt64 := (x.toBits >>> 52) &&& 0x7ff

/-- The stored bits of the mantissa. -/
def storedMantissa (x : Float) : UInt64 := x.toBits &&& 0xfffffffffffff

/-- Whether the sign bit is set. -/
def isNegative (x : Float) : Bool := x.toBits >>> 63 = 1

/-- The number without its fraction: the bits of the mantissa that count less than one are
cleared. -/
def truncate (x : Float) : Float :=
  let exponent := biasedExponent x
  if exponent < 1023 then Float.ofBits (x.toBits &&& 0x8000000000000000)
  else if exponent < 1075 then
    Float.ofBits (x.toBits &&& ~~~((1 <<< (1075 - exponent)) - 1))
  else x

/-- The greatest whole number that is not above `x`. -/
def floor (x : Float) : Float :=
  let whole := truncate x
  if x < whole then whole - 1 else whole

/-- The least whole number that is not below `x`. -/
def ceil (x : Float) : Float :=
  let whole := truncate x
  if whole < x then whole + 1 else whole

/-- A key whose order as a natural number is the total order: negative numbers have their bits
flipped, the others come after them. -/
def orderKey (x : Float) : UInt64 :=
  if isNegative x then ~~~x.toBits else x.toBits ||| 0x8000000000000000

/-- The positive binary number that a finite nonzero value is, up to its sign. -/
def dyadic (x : Float) : Dyadic :=
  let exponent := biasedExponent x
  let mantissa := (storedMantissa x).toNat
  if exponent = 0 then ⟨mantissa, -1074, false⟩
  else ⟨mantissa + 0x10000000000000, (exponent.toNat : Int) - 1075, mantissa = 0 && 1 < exponent⟩

/-- The shortest decimal that reads back as a finite value. -/
def toDecimal (tie : Tie) (x : Float) : Decimal :=
  if x == 0 then ⟨isNegative x, 0, 0⟩
  else { (dyadic x).shortest tie with negative := isNegative x }

/-- The value closest to a decimal. A decimal far outside the range is settled by its magnitude
alone, so that no huge power is computed. -/
def ofDecimal (d : Decimal) : Float :=
  let size :=
    if d.coefficient = 0 ∨ d.magnitude < -400 then 0
    else if 400 < d.magnitude then 1 / 0
    else Float.ofScientific d.coefficient (d.exponent < 0) d.exponent.natAbs
  if d.negative then -size else size

instance : Scalar Float where
  zero := 0
  one := 1
  decLt := inferInstance
  decLe := inferInstance
  infinity := 1 / 0
  isNaN := Float.isNaN
  isFinite := Float.isFinite
  abs := Float.abs
  floor := floor
  ceil := ceil
  order x y := compare (orderKey x) (orderKey y)
  ofNat := Float.ofNat
  ofDecimal := ofDecimal
  toDecimal := toDecimal
  toWord x := x.toUInt64.toNat

end BranchBound.Binary64
