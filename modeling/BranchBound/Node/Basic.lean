import BranchBound.Box
import BranchBound.Variable
import BranchBound.Word

/-! # Nodes

A node is a box still to be explored, with a lower bound on what can be attained in it. A node that
came out of a split carries a `History`, from which the split is later judged. -/

namespace BranchBound

/-- A box of the search with what is known about it. -/
structure Node (α : Type) where
  /-- No point of the box has a lower objective value. -/
  score : α
  /-- The part of the domain the node covers. -/
  box : Box α
  /-- The subset of the data the node is evaluated on, if any. -/
  dataset : Option Nat
  /-- Name of the node, unique within a search. -/
  id : Nat
  /-- Number of splits that led to the node. -/
  depth : Nat
  /-- Whether the node was augmented beyond its data. -/
  augmented : Bool
  deriving Repr

namespace Node

variable {α : Type} [Scalar α]

/-- The node that covers the whole domain. -/
def root (vars : List (Variable α)) : Node α where
  score := -Scalar.infinity
  box := ⟨vars.map (·.lower), vars.map (·.upper)⟩
  dataset := none
  id := 0
  depth := 0
  augmented := false

end Node

/-- The side of a split. -/
inductive Side
  /-- The part above, whose lower bound was raised. -/
  | up
  /-- The part below, whose upper bound was lowered. -/
  | down
  /-- No split. -/
  | unsplit
  deriving DecidableEq, Repr, Inhabited

namespace Side

/-- The written name of a side. -/
def name : Side → String
  | up => "BranchedUp"
  | down => "BranchedDown"
  | unsplit => "NotBranched"

end Side

/-- How a node came out of its parent. -/
structure History (α : Type) where
  /-- The variable the parent was split on. -/
  dimension : Option Nat
  /-- The side of the split. -/
  side : Side
  /-- Value of that variable in the relaxation of the parent. -/
  relaxed : α
  /-- Lower bound of that variable in the parent. -/
  lower : α
  /-- Upper bound of that variable in the parent. -/
  upper : α
  deriving Repr

namespace History

variable {α : Type} [Scalar α]

/-- The history of a node that no split made. -/
def unsplit : History α := ⟨none, .unsplit, 0, 0, 0⟩

/-- The dimension and side of the split, if there was one. -/
def split? (h : History α) : Option (Nat × Side) :=
  if h.side = .unsplit then none else h.dimension.map (·, h.side)

/-- Whether the node came out of a split. -/
def isSplit (h : History α) : Bool := h.split?.isSome

end History

/-- A node in the tree. -/
structure OpenNode (α : Type) where
  /-- The node itself. -/
  node : Node α
  /-- Rank among the open nodes, fixed when the node became open. -/
  selectionScore : α
  /-- How the node was made. -/
  history : History α
  deriving Repr

namespace OpenNode

variable {α : Type}

/-- The id of the node. -/
def id (n : OpenNode α) : Nat := n.node.id

/-- The lower bound of the node. -/
def score (n : OpenNode α) : α := n.node.score

end OpenNode

end BranchBound
