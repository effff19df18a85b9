import BranchBound.Decimal.Layout

/-! # The numbers a search computes with

Bounds, scores and objective values are numbers of one type, which the search only touches through
the operations of `Scalar`. The class holds operations and no laws: binary floating-point numbers
are an instance, and so is any exact number line with two infinities and an undefined value.

Comparisons are those of a partial order in which the undefined value is related to nothing, not
even to itself. `least` and `greatest` therefore prefer the operand that is defined. -/

namespace BranchBound

/-- The operations of a number type with infinities and an undefined value. -/
class Scalar (α : Type) extends Zero α, One α, Add α, Sub α, Mul α, Div α, Neg α, LT α, LE α,
    BEq α where
  /-- Strict comparison is decidable. -/
  decLt : DecidableLT α
  /-- Weak comparison is decidable. -/
  decLe : DecidableLE α
  /-- Positive infinity. -/
  infinity : α
  /-- Whether the value is undefined. -/
  isNaN : α → Bool
  /-- Whether the value is a number other than the two infinities. -/
  isFinite : α → Bool
  /-- The distance from zero. -/
  abs : α → α
  /-- The greatest whole number that is not above the value. -/
  floor : α → α
  /-- The least whole number that is not below the value. -/
  ceil : α → α
  /-- A total order on all values, which tells apart values that compare as equal. -/
  order : α → α → Ordering
  /-- The value closest to a natural number. -/
  ofNat : Nat → α
  /-- The value closest to a decimal. -/
  ofDecimal : Decimal → α
  /-- The shortest decimal that identifies a finite value; of two equally close ones, as a tie
  says. -/
  toDecimal : Tie → α → Decimal
  /-- The whole part of a value, held within the range of a 64-bit word; zero if undefined. -/
  toWord : α → Nat

namespace Scalar

variable {α : Type} [Scalar α]

instance : DecidableLT α := decLt

instance : DecidableLE α := decLe

/-- Whether a value is one of the two infinities. -/
def isInfinite (x : α) : Bool := !isNaN x && !isFinite x

/-- The smaller of two values; if one is undefined, the other. -/
def least (x y : α) : α := if x < y ∨ isNaN y then x else y

/-- The greater of two values; if one is undefined, the other. -/
def greatest (x y : α) : α := if y < x ∨ isNaN y then x else y

/-- The value closest to `x` within the interval from `lower` to `upper`. -/
def clamp (x lower upper : α) : α :=
  let raised := if x < lower then lower else x
  if upper < raised then upper else raised

/-- One half. -/
def half : α := ofDecimal (.tenths 5 1)

/-- The middle of the interval from `lower` to `upper`. -/
def middle (lower upper : α) : α := half * (lower + upper)

/-- The text of a value under a layout; the values that are not finite have names. -/
def textWith (layout : Layout) (x : α) : String :=
  if isNaN x then "NaN"
  else if isFinite x then (toDecimal layout.tie x).text layout
  else if x < 0 then "-inf" else "inf"

/-- The text of a value in a message. -/
def text (x : α) : String := textWith .plain x

end Scalar

end BranchBound
