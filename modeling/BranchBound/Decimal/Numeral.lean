import BranchBound.Decimal.Basic

/-! # Numbers as written

A `Numeral` is a number as it stands in a text: digits, then perhaps a point and more digits, then
perhaps a power of ten. Two numerals may denote one number, and a reader of limited precision may
read them differently; the parts of a numeral are therefore kept as they were written.

* **`Numeral.characters`** — the text of a numeral.
* **`Numeral.toDecimal`** — the decimal that a numeral denotes.
* **`Numeral.clipped limit`** — the decimal that is left if only so many of its digits count as make
  a coefficient below a limit. -/

namespace BranchBound

/-- The value of a decimal digit. -/
def digitValue (c : Char) : Nat := c.toNat - '0'.toNat

/-- The natural number that digits denote. -/
def natOfDigits (digits : List Char) : Nat := digits.foldl (fun n c => 10 * n + digitValue c) 0

/-- Appends digits to a coefficient as long as it stays below a limit; answers the coefficient and
the number of digits left over. -/
def appendDigits (limit : Nat) : List Char → Nat → Nat × Nat
  | [], n => (n, 0)
  | c :: rest, n =>
      let longer := 10 * n + digitValue c
      if longer < limit then appendDigits limit rest longer else (n, rest.length + 1)

/-- A number as written. -/
structure Numeral where
  /-- Whether a minus sign stands in front. -/
  negative : Bool
  /-- The digits before the point. -/
  whole : List Char
  /-- The digits after the point; without them there is no point. -/
  places : List Char
  /-- The power of ten at the end, if one is written. -/
  shift : Option Int
  deriving DecidableEq, Repr, Inhabited

namespace Numeral

/-- A natural number as written. -/
def ofNat (n : Nat) : Numeral := ⟨false, Nat.toDigits 10 n, [], none⟩

/-- The natural number that a numeral spells out; a sign, a point or a power of ten rule that
out. -/
def toNat? : Numeral → Option Nat
  | ⟨false, whole, [], none⟩ => some (natOfDigits whole)
  | _ => none

/-- The word that a numeral spells out: a natural number below a limit. -/
def toWord? (limit : Nat) (n : Numeral) : Option Nat := n.toNat?.filter (· < limit)

/-- The decimal that a numeral denotes. -/
def toDecimal (n : Numeral) : Decimal :=
  ⟨n.negative, natOfDigits (n.whole ++ n.places), n.shift.getD 0 - n.places.length⟩

/-- The decimal whose coefficient takes digits as long as it stays below a limit. Digits before the
point that are left over count as zeros, digits after the point that are left over do not count. -/
def clipped (limit : Nat) (n : Numeral) : Decimal :=
  let (coefficient, zeros) := appendDigits limit n.whole 0
  let (coefficient, dropped) := appendDigits limit n.places coefficient
  ⟨n.negative, coefficient, n.shift.getD 0 + zeros - (n.places.length - dropped : Nat)⟩

/-- The characters of a numeral. A power of ten always carries its sign. -/
def characters (n : Numeral) : List Char :=
  (if n.negative then ['-'] else []) ++ n.whole
    ++ (if n.places.isEmpty then [] else '.' :: n.places)
    ++ match n.shift with
      | none => []
      | some shift =>
          'e' :: (if shift < 0 then '-' else '+') :: Nat.toDigits 10 shift.natAbs

end Numeral

end BranchBound
