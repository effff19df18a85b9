import BranchBound.Error

/-! # Variables

A variable has a domain — an interval, of which discrete variables only take the whole numbers —
and a weight for branching. `Variable.validated` checks a variable and shrinks the bounds of a
discrete one to the whole numbers between them. -/

namespace BranchBound

/-- The values a variable takes within its bounds. -/
inductive VariableKind
  /-- All of them. -/
  | continuous
  /-- Zero and one. -/
  | binary
  /-- The whole numbers. -/
  | integer
  deriving DecidableEq, Repr, Inhabited

namespace VariableKind

/-- Whether only whole numbers are taken. -/
def isDiscrete : VariableKind → Bool
  | continuous => false
  | binary | integer => true

/-- The written name of a kind. -/
def name : VariableKind → String
  | continuous => "Continuous"
  | binary => "Binary"
  | integer => "Integer"

end VariableKind

/-- A variable of the problem. -/
structure Variable (α : Type) where
  /-- Least value. -/
  lower : α
  /-- Greatest value. -/
  upper : α
  /-- The kind of values taken. -/
  kind : VariableKind
  /-- Weight in the choice of the dimension to split. -/
  priority : α
  /-- Name in messages. -/
  name : String
  deriving Repr

namespace Variable

variable {α : Type} [Scalar α]

/-- A variable that is zero or one, of priority one. -/
def binary (name : String) : Variable α := ⟨0, 1, .binary, 1, name⟩

/-- The width of the domain. -/
def width (v : Variable α) : α := v.upper - v.lower

/-- The least and greatest values that a kind admits between two bounds. -/
def inward (kind : VariableKind) (lower upper : α) : α × α :=
  match kind with
  | .continuous => (lower, upper)
  | .binary => (Scalar.ceil (Scalar.greatest lower 0), Scalar.floor (Scalar.least upper 1))
  | .integer => (Scalar.ceil lower, Scalar.floor upper)

/-- The variable with its domain in standard form, or what is wrong with it. Bounds and priority
are checked as given; then the domain is shrunk to the values of its kind, which must leave some. -/
def validated (v : Variable α) : Except (Error α) (Variable α) :=
  if !Scalar.isFinite v.lower || !Scalar.isFinite v.upper then
    .error (.invalidProblem (.unboundedDomain v.name v.lower v.upper))
  else if v.upper < v.lower then
    .error (.invalidProblem (.crossedBounds v.name v.lower v.upper))
  else if !Scalar.isFinite v.priority || v.priority < 0 then
    .error (.invalidProblem (.badPriority v.name v.priority))
  else
    let (lower, upper) := inward v.kind v.lower v.upper
    if upper < lower then .error (.unsuitableType v.name (.noIntegralValue v.kind.name))
    else .ok { v with lower, upper }

end Variable

end BranchBound
