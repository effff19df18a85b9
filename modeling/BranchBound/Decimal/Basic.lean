/-! # Decimal numbers

A `Decimal` is a signed integer scaled by a power of ten, which is what a number written with
digits denotes. The sign is kept apart from the coefficient, so that zero has two signs. Many
decimals denote one number; `Decimal.normal` chooses the one whose coefficient has no trailing
zero. -/

namespace BranchBound

/-- The number `± coefficient × 10 ^ exponent`. -/
structure Decimal where
  /-- Whether a minus sign stands in front. -/
  negative : Bool
  /-- The digits, read as a natural number. -/
  coefficient : Nat
  /-- The power of ten that scales the digits. -/
  exponent : Int
  deriving DecidableEq, Repr, Inhabited

/-- Which of two decimals is chosen that are equally close to a number. -/
inductive Tie
  /-- The one whose last digit is even. -/
  | even
  /-- The one farther from zero. -/
  | away
  deriving DecidableEq, Repr, Inhabited

namespace Decimal

/-- Moves trailing zeros of a coefficient into the exponent, at most `fuel` of them. -/
def stripZeros : Nat → Nat → Int → Nat × Int
  | 0, coefficient, exponent => (coefficient, exponent)
  | fuel + 1, coefficient, exponent =>
      if coefficient % 10 = 0 then stripZeros fuel (coefficient / 10) (exponent + 1)
      else (coefficient, exponent)

/-- The number of digits of a coefficient; zero is written with one. -/
def digitCount (coefficient : Nat) : Nat := (Nat.toDigits 10 coefficient).length

/-- The decimal of the same value and sign whose coefficient does not end in zero; a zero gets the
exponent zero. -/
def normal (d : Decimal) : Decimal :=
  if d.coefficient = 0 then ⟨d.negative, 0, 0⟩
  else
    let (coefficient, exponent) := stripZeros (digitCount d.coefficient) d.coefficient d.exponent
    ⟨d.negative, coefficient, exponent⟩

/-- The power of ten of the first digit. -/
def magnitude (d : Decimal) : Int := d.exponent + digitCount d.coefficient - 1

/-- A natural number as a decimal. -/
def ofNat (n : Nat) : Decimal := ⟨false, n, 0⟩

/-- The decimal `coefficient × 10 ^ (-places)`. -/
def tenths (coefficient places : Nat) : Decimal := ⟨false, coefficient, -places⟩

end Decimal

end BranchBound
