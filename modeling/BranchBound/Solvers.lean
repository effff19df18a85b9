import BranchBound.Duration
import BranchBound.Error
import BranchBound.Node.Basic

/-! # Solvers

A search does not evaluate its problem itself. It calls on solvers that tighten the box of a node,
bound the node from below and look for feasible points in it. Solvers may remember what they were
asked: each call takes the state the solvers are in and leaves another. A call can fail with an
error, or crash, and then whoever made the call is gone too. -/

namespace BranchBound

/-- How a call can go wrong. -/
inductive Failure (α : Type)
  /-- The solver reports an error. -/
  | error (cause : Error α)
  /-- The solver takes its caller down with it. -/
  | crash

/-- A call of solvers whose state is of type `σ`. -/
abbrev Call (σ α : Type) := ExceptT (Failure α) (StateM σ)

/-- Multipliers of the relaxation. -/
structure Duals (α : Type) where
  /-- Multipliers of the bounds, one per variable; empty if unavailable. -/
  multipliers : List α
  /-- Objective value of the relaxation they belong to. -/
  value : α
  deriving Repr

/-- The answer to a call for a lower bound. -/
structure LowerAnswer (α : Type) where
  /-- The box holds no feasible point. -/
  infeasible : Bool
  /-- The bound is attained. -/
  converged : Bool
  /-- No point of the box has a lower objective value. -/
  bound : α
  /-- Where the relaxation attains the bound; may be empty. -/
  point : List α
  /-- Multipliers for the second tightening. -/
  duals : Duals α
  deriving Repr

namespace LowerAnswer

variable {α : Type} [Scalar α]

/-- The box was proved infeasible. -/
def ofInfeasible : LowerAnswer α := ⟨true, false, Scalar.infinity, [], ⟨[], 0⟩⟩

/-- A bound and where it is attained in the relaxation. -/
def ofBound (bound : α) (point : List α) : LowerAnswer α :=
  ⟨false, false, bound, point, ⟨[], bound⟩⟩

/-- The answer, marked as attained. -/
def markConverged (a : LowerAnswer α) : LowerAnswer α := { a with converged := true }

/-- The answer with multipliers. -/
def withDuals (a : LowerAnswer α) (duals : Duals α) : LowerAnswer α := { a with duals }

end LowerAnswer

/-- The answer to a call for a feasible point. -/
structure UpperAnswer (α : Type) where
  /-- The point is better than the incumbent the call was made with. -/
  improves : Bool
  /-- The point is optimal for the node. -/
  converged : Bool
  /-- Objective value; infinity if no point was found. -/
  value : α
  /-- The point; empty if none was found. -/
  point : List α
  deriving Repr

namespace UpperAnswer

variable {α : Type} [Scalar α]

/-- No point was found. -/
def notFound : UpperAnswer α := ⟨false, false, Scalar.infinity, []⟩

/-- A point was found; it improves if its value is below that of the incumbent. -/
def ofPoint (value : α) (point : List α) (incumbent : α) : UpperAnswer α :=
  ⟨value < incumbent, false, value, point⟩

/-- The answer, marked as optimal for the node. -/
def markConverged (a : UpperAnswer α) : UpperAnswer α := { a with converged := true }

end UpperAnswer

/-- What a search calls on. Every call is told the value of the incumbent. -/
structure Solvers (σ α : Type) where
  /-- Tightens a node before it is bounded; says whether the box was proved infeasible. -/
  preprocess : Node α → α → Call σ α (Bool × Node α) := fun node _ => pure (false, node)
  /-- Bounds a node from below. -/
  lower : Node α → α → Call σ α (LowerAnswer α)
  /-- Looks for a feasible point of a node, starting from a point. -/
  upper : Node α → List α → α → Call σ α (UpperAnswer α)
  /-- Tightens a node after it was bounded, given the point and the multipliers of the relaxation;
  says whether the node is solved. -/
  postprocess : Node α → List α → Duals α → α → Call σ α (Bool × Node α) :=
    fun node _ _ _ => pure (false, node)
  /-- The time since the start of the search, as the state of the solvers tells it. -/
  clock : σ → Duration := fun _ => .zero

/-- What the clock shows now. -/
def Solvers.now {σ α : Type} (solvers : Solvers σ α) : Call σ α Duration := do
  return solvers.clock (← get)

end BranchBound
