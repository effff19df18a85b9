import BranchBound.Decimal.Basic

/-! # The shortest decimal that identifies a binary number

A binary floating-point number stands for an interval of reals: those that round to it. The
decimal chosen for it is one with the fewest digits inside that interval, and of those the closest
to the number; where two are equally close, a `Tie` decides. All comparisons are made between
natural numbers, by multiplying out the powers of two and of ten.

* **`Dyadic.readsBack d c e`** — whether `c × 10 ^ e` rounds to `d`.
* **`Dyadic.shortest d tie`** — the decimal chosen for `d`. -/

namespace BranchBound

/-- The positive binary number `mantissa × 2 ^ exponent`. -/
structure Dyadic where
  /-- The digits, read as a natural number. -/
  mantissa : Nat
  /-- The power of two that scales them. -/
  exponent : Int
  /-- Whether the next smaller number is only half as far away as the next greater one. -/
  narrow : Bool
  deriving DecidableEq, Repr

namespace Dyadic

/-- Whether `a × 10 ^ e ≤ b × 2 ^ f`. -/
def decimalLe (a : Nat) (e : Int) (b : Nat) (f : Int) : Bool :=
  a * Nat.pow 10 e.toNat * Nat.pow 2 (-f).toNat ≤ b * Nat.pow 2 f.toNat * Nat.pow 10 (-e).toNat

/-- Whether `b × 2 ^ f ≤ a × 10 ^ e`. -/
def binaryLe (b : Nat) (f : Int) (a : Nat) (e : Int) : Bool :=
  b * Nat.pow 2 f.toNat * Nat.pow 10 (-e).toNat ≤ a * Nat.pow 10 e.toNat * Nat.pow 2 (-f).toNat

/-- Whether `c × 10 ^ e` rounds to `d`: it lies between the points halfway to the neighbours, where
a halfway point itself counts exactly when the mantissa is even. -/
def readsBack (d : Dyadic) (c : Nat) (e : Int) : Bool :=
  let low := 4 * d.mantissa - (if d.narrow then 1 else 2)
  let high := 4 * d.mantissa + 2
  let unit := d.exponent - 2
  if d.mantissa % 2 = 0 then binaryLe low unit c e && decimalLe c e high unit
  else !decimalLe c e low unit && !binaryLe high unit c e

/-- The number of whole units `10 ^ e` in `d`. -/
def wholeUnits (d : Dyadic) (e : Int) : Nat :=
  d.mantissa * Nat.pow 2 d.exponent.toNat * Nat.pow 10 (-e).toNat
    / (Nat.pow 2 (-d.exponent).toNat * Nat.pow 10 e.toNat)

/-- Whether `(c + 1) × 10 ^ e` is to be chosen rather than `c × 10 ^ e`, given that `d` lies between
the two: it is the closer one, or it is equally close and wins the tie. -/
def prefersUpper (d : Dyadic) (tie : Tie) (c : Nat) (e : Int) : Bool :=
  let middleReached := decimalLe (2 * c + 1) e d.mantissa (d.exponent + 1)
  let middlePassed := !binaryLe d.mantissa (d.exponent + 1) (2 * c + 1) e
  middlePassed || (middleReached && (tie = .away || c % 2 = 1))

/-- Of the two neighbours of `d` among the multiples of `10 ^ e`, the closest that reads back. -/
def onGrid (d : Dyadic) (tie : Tie) (e : Int) : Option Decimal :=
  let c := d.wholeUnits e
  match d.readsBack c e, d.readsBack (c + 1) e with
  | true, true => some ⟨false, if d.prefersUpper tie c e then c + 1 else c, e⟩
  | true, false => some ⟨false, c, e⟩
  | false, true => some ⟨false, c + 1, e⟩
  | false, false => none

/-- A power of ten that exceeds `d`, the least one of those tried: the estimate comes from the
binary magnitude and is off by less than two. -/
def decade (d : Dyadic) : Int :=
  let estimate := ((d.mantissa.log2 : Int) + d.exponent) * 30103 / 100000
  let candidates := [estimate - 1, estimate, estimate + 1]
  (candidates.find? fun k => !decimalLe 1 k d.mantissa d.exponent).getD (estimate + 2)

/-- The decimal with the fewest digits that reads back as `d`; seventeen always suffice. -/
def shortest (d : Dyadic) (tie : Tie) : Decimal :=
  let top := d.decade
  let found := (List.range 17).findSome? fun n : Nat => d.onGrid tie (top - 1 - (n : Int))
  (found.getD ⟨false, d.wholeUnits (top - 17), top - 17⟩).normal

end Dyadic

end BranchBound
