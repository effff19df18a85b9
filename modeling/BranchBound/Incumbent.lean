import BranchBound.Frontier.Basic

/-! # Incumbents and cutoffs

The incumbent is the best feasible point known. A cutoff is the value of an incumbent together with
the tolerances under which nodes are fathomed against it; whoever processes nodes carries one. -/

namespace BranchBound

/-- A feasible point with its objective value. -/
structure Candidate (α : Type) where
  /-- Objective value. -/
  value : α
  /-- The point. -/
  point : List α
  deriving Repr

/-- The best feasible point known. -/
structure Incumbent (α : Type) where
  /-- The point, if there is one. -/
  point : Option (List α)
  /-- Its objective value; infinity if there is none. -/
  value : α
  deriving Repr

variable {α : Type} [Scalar α]

namespace Incumbent

/-- No point is known. -/
def none : Incumbent α := ⟨Option.none, Scalar.infinity⟩

/-- Whether a point is known. -/
def isKnown (i : Incumbent α) : Bool := i.point.isSome

/-- Adopts a point if it is better; says whether it is. -/
def offer (i : Incumbent α) (c : Candidate α) : Bool × Incumbent α :=
  if c.value < i.value then (true, ⟨some c.point, c.value⟩) else (false, i)

end Incumbent

/-- What nodes are fathomed against. -/
structure Cutoff (α : Type) where
  /-- The best objective value known; infinity if none is. -/
  incumbent : α
  /-- Tolerance relative to the incumbent. -/
  relTolerance : α
  /-- Absolute tolerance. -/
  absTolerance : α
  deriving Repr

namespace Cutoff

/-- Nodes are dominated from this score on. -/
def threshold (c : Cutoff α) : α := toleranceAdjusted c.incumbent c.relTolerance c.absTolerance

/-- Whether a node of this score is dominated. -/
def dominates (c : Cutoff α) (score : α) : Bool := c.threshold ≤ score

/-- Adopts an objective value if it is better; says whether it is. -/
def tighten (c : Cutoff α) (value : α) : Bool × Cutoff α :=
  if value < c.incumbent then (true, { c with incumbent := value }) else (false, c)

end Cutoff

end BranchBound
