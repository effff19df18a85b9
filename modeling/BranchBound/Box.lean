import BranchBound.Scalar.Basic

/-! # Boxes

A box bounds every variable from below and from above. It is a plain pair of lists: a box that was
read from a message or tightened from outside may have lists of different lengths, bounds that
cross, or bounds that are undefined. Bounds beyond the end of a list read as zero. -/

namespace BranchBound

/-- A product of intervals. -/
structure Box (α : Type) where
  /-- Lower bounds, one per variable. -/
  lower : List α
  /-- Upper bounds, one per variable. -/
  upper : List α
  deriving Repr

namespace Box

variable {α : Type} [Scalar α]

/-- The number of lower bounds. -/
def dimension (b : Box α) : Nat := b.lower.length

/-- The lower bound of a variable. -/
def lowerAt (b : Box α) (i : Nat) : α := b.lower.getD i 0

/-- The upper bound of a variable. -/
def upperAt (b : Box α) (i : Nat) : α := b.upper.getD i 0

/-- The width of a dimension. -/
def width (b : Box α) (i : Nat) : α := b.upperAt i - b.lowerAt i

/-- The middle of a dimension. -/
def midpoint (b : Box α) (i : Nat) : α := Scalar.middle (b.lowerAt i) (b.upperAt i)

/-- The middle of every dimension. -/
def center (b : Box α) : List α := (List.range b.dimension).map b.midpoint

/-- Whether every interval is a single point. -/
def isPoint (b : Box α) : Bool := (b.lower.zip b.upper).all fun (lower, upper) => lower == upper

/-- Whether some interval has its upper bound below its lower bound. -/
def isEmpty (b : Box α) : Bool := (b.lower.zip b.upper).any fun (lower, upper) => upper < lower

/-- The box with another lower bound in one dimension. -/
def setLower (b : Box α) (i : Nat) (x : α) : Box α := { b with lower := b.lower.set i x }

/-- The box with another upper bound in one dimension. -/
def setUpper (b : Box α) (i : Nat) (x : α) : Box α := { b with upper := b.upper.set i x }

/-- Whether `n` dimensions are bounded from both sides. -/
def hasDimension (b : Box α) (n : Nat) : Bool := b.lower.length = n && b.upper.length = n

end Box

end BranchBound
