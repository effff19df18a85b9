/-! # Stages of a node

A node handed out of the tree passes through a fixed sequence of stages: it is tightened, bounded
from below, searched for feasible points and tightened again; at any point it may be fathomed, and
a node that comes through is branched, queued once more because it is a single point, or dropped
because it is too small. `Stage.allows` is the relation of legal steps. -/

namespace BranchBound

/-- Why a node needs no further work. -/
inductive Reason
  /-- The relaxation proved the box infeasible. -/
  | infeasible
  /-- Tightening emptied the box. -/
  | tighteningInfeasible
  /-- The bound of the node cannot beat the incumbent. -/
  | valueDominated
  /-- The node was solved. -/
  | converged
  /-- The node is a single point that was evaluated for the second time. -/
  | fixedPointEvaluated
  deriving DecidableEq, Repr, Inhabited

namespace Reason

/-- The written name of a reason. -/
def name : Reason → String
  | infeasible => "Infeasible"
  | tighteningInfeasible => "TighteningInfeasible"
  | valueDominated => "ValueDominated"
  | converged => "Converged"
  | fixedPointEvaluated => "FixedPointEvaluated"

/-- All reasons. -/
def all : List Reason :=
  [infeasible, tighteningInfeasible, valueDominated, converged, fixedPointEvaluated]

/-- The reason with a written name. -/
def ofName? (name : String) : Option Reason := all.find? fun reason => reason.name == name

/-- Whether the reason is a proof that the box holds no feasible point. -/
def isInfeasible : Reason → Bool
  | infeasible | tighteningInfeasible => true
  | _ => false

end Reason

/-- How far the work on a node has come. -/
inductive Stage
  /-- Taken out of the tree. -/
  | new
  /-- Tightened before bounding. -/
  | preprocessed
  /-- Bounded from below. -/
  | lowerBounded
  /-- Searched for feasible points. -/
  | upperBounded
  /-- Tightened after bounding. -/
  | postprocessed
  /-- Needs no further work. -/
  | fathomed (reason : Reason)
  /-- Split into two children. -/
  | branched
  /-- Queued once more because it is a single point. -/
  | fixed
  /-- Dropped because it is below the size tolerance. -/
  | dropped
  deriving DecidableEq, Repr, Inhabited

namespace Stage

/-- The written name of a stage, without the reason of a fathomed node. -/
def name : Stage → String
  | new => "New"
  | preprocessed => "Preprocessed"
  | lowerBounded => "LowerBounded"
  | upperBounded => "UpperBounded"
  | postprocessed => "Postprocessed"
  | fathomed _ => "Fathomed"
  | branched => "Branched"
  | fixed => "Fixed"
  | dropped => "Dropped"

/-- All stages that carry no reason. -/
def plain : List Stage :=
  [new, preprocessed, lowerBounded, upperBounded, postprocessed, branched, fixed, dropped]

/-- The stage without a reason that has a written name. -/
def ofName? (name : String) : Option Stage := plain.find? fun stage => stage.name == name

/-- Whether no stage can follow. -/
def isTerminal : Stage → Bool
  | fathomed _ | branched | fixed | dropped => true
  | _ => false

/-- Whether `next` may directly follow a stage: a node may be fathomed from every stage that is not
terminal, and otherwise the stages come in their order. -/
def allows : Stage → Stage → Bool
  | fathomed _, _ | branched, _ | fixed, _ | dropped, _ => false
  | _, fathomed _ => true
  | new, preprocessed => true
  | preprocessed, lowerBounded => true
  | lowerBounded, upperBounded => true
  | upperBounded, postprocessed => true
  | postprocessed, branched | postprocessed, fixed | postprocessed, dropped => true
  | _, _ => false

end Stage

/-- How a node came out of its processing, or why workers are told to stop. -/
inductive Tag
  /-- Nothing special; as an order, a regular stop. -/
  | everythingFine
  /-- Something failed; as an order, an abort. -/
  | exception
  /-- The relaxation of the node was infeasible. -/
  | infeasible
  /-- Tightening proved the node infeasible. -/
  | tighteningInfeasible
  /-- The node was bounded. -/
  | feasible
  deriving DecidableEq, Repr, Inhabited

namespace Tag

/-- The written name of a tag. -/
def name : Tag → String
  | everythingFine => "EverythingFine"
  | exception => "Exception"
  | infeasible => "Infeasible"
  | tighteningInfeasible => "TighteningInfeasible"
  | feasible => "Feasible"

/-- All tags. -/
def all : List Tag := [everythingFine, exception, infeasible, tighteningInfeasible, feasible]

/-- The tag with a written name. -/
def ofName? (name : String) : Option Tag := all.find? fun tag => tag.name == name

end Tag

end BranchBound
