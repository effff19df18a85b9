import BranchBound.Decimal.Numeral

/-! # The text of a decimal

A `Layout` fixes how a number is written: which magnitudes are written with all their places,
whether a whole number shows a point, and which of two equally close decimals stands for the number.
`Layout.plain` serves messages to people, `Layout.wire` the machine-readable forms. -/

namespace BranchBound

/-- The decisions of a number format. -/
structure Layout where
  /-- Least magnitude written with all its places; `none` if there is no such limit. -/
  lowest : Option Int
  /-- Greatest magnitude written with all its places; `none` if there is no such limit. -/
  highest : Option Int
  /-- Whether a whole number written with all its places ends in a point and a zero. -/
  pointOnWhole : Bool
  /-- Which of two equally close decimals is written. -/
  tie : Tie
  deriving DecidableEq, Repr

namespace Layout

/-- Numbers in messages have all their places, however many, and whole numbers have no point. Ties
go away from zero. -/
def plain : Layout := ⟨none, none, false, .away⟩

/-- Machine-readable numbers have all their places from `0.00001` up to sixteen digits before the
point, always with a point; beyond that they carry a signed exponent. Ties go to the even digit. -/
def wire : Layout := ⟨some (-5), some 15, true, .even⟩

/-- Whether a number of this magnitude is written with all its places. -/
def isPositional (layout : Layout) (magnitude : Int) : Bool :=
  layout.lowest.all (· ≤ magnitude) && layout.highest.all (magnitude ≤ ·)

/-- The digits with all their places: zeros are filled in up to the point. -/
def positional (layout : Layout) (negative : Bool) (digits : List Char) (exponent : Int) :
    Numeral :=
  if 0 ≤ exponent then
    ⟨negative, digits ++ List.replicate exponent.toNat '0',
      if layout.pointOnWhole then ['0'] else [], none⟩
  else
    let places := (-exponent).toNat
    if places < digits.length then
      ⟨negative, digits.take (digits.length - places), digits.drop (digits.length - places), none⟩
    else ⟨negative, ['0'], List.replicate (places - digits.length) '0' ++ digits, none⟩

/-- The digits with a point after the first of several, then the power of ten of the first digit. -/
def scientific (negative : Bool) (digits : List Char) (magnitude : Int) : Numeral :=
  ⟨negative, digits.take 1, digits.drop 1, some magnitude⟩

/-- The numeral of a decimal; zero counts as of magnitude zero. -/
def numeral (layout : Layout) (d : Decimal) : Numeral :=
  let digits := Nat.toDigits 10 d.coefficient
  let magnitude := if d.coefficient = 0 then 0 else d.magnitude
  if layout.isPositional magnitude then layout.positional d.negative digits d.exponent
  else scientific d.negative digits magnitude

end Layout

/-- The text of a decimal under a layout. -/
def Decimal.text (layout : Layout) (d : Decimal) : String :=
  String.ofList (layout.numeral d).characters

end BranchBound
