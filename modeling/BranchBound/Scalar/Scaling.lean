import BranchBound.Scalar.Basic
import BranchBound.Word

/-! # Reading numbers by scaling

A number in a machine-readable text is read in two steps: as many of its digits as fit into a word
make a whole number, and that number is multiplied or divided by a power of ten. Each step rounds,
so the value may differ from the one closest to the number as written, which `Scalar.ofDecimal`
gives; where numbers are exact, only the digits beyond the word are lost.

* **`Scalar.enlarge?`**, **`Scalar.reduce`** — multiply by a power of ten and divide by one.
* **`Scalar.ofNumeral?`** — the value that a number as written is read as. -/

namespace BranchBound.Scalar

variable {α : Type} [Scalar α]

/-- The greatest power of ten that a value is scaled by at once. -/
def greatestPower : Nat := 308

/-- A power of ten. -/
def powerOfTen (power : Nat) : α := ofDecimal ⟨false, 1, power⟩

/-- Multiplies a value by a power of ten; `none` if the power or the product is too great. -/
def enlarge? (x : α) (power : Nat) : Option α :=
  if power ≤ greatestPower then
    let product := x * powerOfTen power
    if isInfinite product then none else some product
  else if x == 0 then some x
  else none

/-- Divides a value by a power of ten, in several steps if the power is great. -/
def reduce (x : α) (power : Nat) : α :=
  if power ≤ greatestPower then x / powerOfTen power
  else if x == 0 then x
  else reduce (x / powerOfTen greatestPower) (power - greatestPower)
termination_by power
decreasing_by
  simp only [greatestPower] at *
  omega

/-- Scales the coefficient of a decimal; `none` if the decimal is too great. -/
def scale? (d : Decimal) : Option α :=
  let size : Option α :=
    if d.exponent < 0 then some (reduce (ofNat d.coefficient) d.exponent.natAbs)
    else enlarge? (ofNat d.coefficient) d.exponent.toNat
  size.map fun x => if d.negative then -x else x

/-- The value that a number as written is read as; `none` if it is too great. -/
def ofNumeral? (n : Numeral) : Option α := scale? (n.clipped wordRange)

end BranchBound.Scalar
