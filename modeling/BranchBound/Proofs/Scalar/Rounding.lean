import BranchBound.Proofs.Scalar.Order

/-! # Rounding to whole numbers

What the splitting of boxes relies on when it moves bounds to whole numbers and looks for the middle
between two bounds. Arithmetic need not be exact for this: the result of an operation may be
rounded, as long as rounding does not carry it past a whole number.

* **`Scalar.IsWhole`**, **`Scalar.slack`** — whole numbers, and how much a bound may miss one.
* **`Scalar.Rounding`** — the laws. Exact arithmetic and binary floating-point numbers obey them. -/

namespace BranchBound.Scalar

variable {α : Type} [Scalar α]

/-- A number is whole if rounding leaves it as it is. -/
def IsWhole (x : α) : Prop := (floor x == x) = true

/-- By how much the bound of a discrete variable may miss a whole number. -/
def slack : α := ofDecimal (.tenths 1 9)

/-- The laws of rounding. -/
class Rounding (α : Type) [Scalar α] : Prop extends Ordered α where
  /-- Rounding up with a slack does not pass a whole number. -/
  ceil_sub_slack_le {x y : α} : IsWhole y → x ≤ y → ceil (x - slack) ≤ y
  /-- Rounding down with a slack does not pass a whole number. -/
  le_floor_add_slack {x y : α} : IsWhole x → x ≤ y → x ≤ floor (y + slack)
  /-- Rounding up keeps finite numbers finite. -/
  isFinite_ceil_sub_slack {x : α} : isFinite x = true → isFinite (ceil (x - slack)) = true
  /-- Rounding down keeps finite numbers finite. -/
  isFinite_floor_add_slack {x : α} : isFinite x = true → isFinite (floor (x + slack)) = true
  /-- There is a middle between finite numbers. -/
  isNaN_middle {x y : α} : isFinite x = true → isFinite y = true → isNaN (middle x y) = false
  /-- A number that is defined can be rounded down. -/
  isNaN_floor {x : α} : isNaN x = false → isNaN (floor x) = false
  /-- A whole number above another one is above it by one at least. -/
  floor_add_one_le {x y : α} : IsWhole y → floor x < y → floor x + 1 ≤ y

end BranchBound.Scalar
