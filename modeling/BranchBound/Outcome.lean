import BranchBound.Scalar.Basic

/-! # Outcomes of a search

How a search ended, what it counted on the way, and what it found. -/

namespace BranchBound

/-- Why a search ended. -/
inductive Status
  /-- The tree is exhausted and a point is known: it is optimal within the tolerances. -/
  | globallyOptimal
  /-- The tree is exhausted and no point is known. -/
  | infeasible
  /-- As many nodes were processed as may be. -/
  | nodeLimit
  /-- The wall-clock time ran out. -/
  | wallTimeLimit
  /-- The accounted computing time ran out. -/
  | cpuTimeLimit
  /-- The open nodes take too much memory. -/
  | memoryLimit
  /-- The incumbent reached its target. -/
  | targetUpperReached
  /-- The lowest open bound reached its target. -/
  | targetLowerReached
  /-- An error ended the search. -/
  | failed
  deriving DecidableEq, Repr, Inhabited

namespace Status

/-- The written name of a status. -/
def name : Status → String
  | globallyOptimal => "GloballyOptimal"
  | infeasible => "Infeasible"
  | nodeLimit => "NodeLimit"
  | wallTimeLimit => "WallTimeLimit"
  | cpuTimeLimit => "CpuTimeLimit"
  | memoryLimit => "MemoryLimit"
  | targetUpperReached => "TargetUpperBoundReached"
  | targetLowerReached => "TargetLowerBoundReached"
  | failed => "Failed"

/-- All statuses. -/
def all : List Status :=
  [globallyOptimal, infeasible, nodeLimit, wallTimeLimit, cpuTimeLimit, memoryLimit,
    targetUpperReached, targetLowerReached, failed]

/-- The status with a written name. -/
def ofName? (name : String) : Option Status := all.find? fun status => status.name == name

/-- Whether the whole tree was explored. -/
def isExhaustive : Status → Bool
  | globallyOptimal | infeasible => true
  | _ => false

/-- Whether a limit on resources was reached. -/
def isResourceLimit : Status → Bool
  | nodeLimit | wallTimeLimit | cpuTimeLimit | memoryLimit => true
  | _ => false

end Status

/-- Whether work was still outstanding when a search ended. -/
inductive Termination
  /-- No node is out. -/
  | complete
  /-- Some nodes were still out. -/
  | workersActive
  deriving DecidableEq, Repr, Inhabited

/-- The written name of a termination. -/
def Termination.name : Termination → String
  | complete => "Terminated"
  | workersActive => "TerminatedWorkersActive"

/-- What a search counts. -/
structure Stats where
  /-- Nodes processed. -/
  processed : Nat := 0
  /-- Nodes fathomed after processing. -/
  fathomed : Nat := 0
  /-- Open nodes fathomed by a better incumbent. -/
  pruned : Nat := 0
  /-- Nodes split. -/
  branched : Nat := 0
  /-- Nodes queued once more because they are a single point. -/
  fixed : Nat := 0
  /-- Nodes dropped because they are too small. -/
  dropped : Nat := 0
  /-- Calls for a lower bound. -/
  lowerCalls : Nat := 0
  /-- Calls for a feasible point. -/
  upperCalls : Nat := 0
  /-- Improvements of the incumbent. -/
  improvements : Nat := 0
  /-- Greatest depth of a processed node. -/
  maxDepth : Nat := 0
  deriving DecidableEq, Repr, Inhabited

/-- What a search found. -/
structure Solution (α : Type) where
  /-- Why the search ended. -/
  status : Status
  /-- Whether work was still outstanding. -/
  termination : Termination
  /-- The best point known; empty if there is none. -/
  point : List α
  /-- Its objective value; infinity if there is none. -/
  value : α
  /-- No point has a lower objective value. -/
  lowerBound : α
  /-- How far the best value may be from the optimum. -/
  gap : α
  /-- What was counted. -/
  stats : Stats
  /-- The wording of the error that ended the search, if one did. -/
  error : Option String
  deriving Repr

/-- Whether a solution has a point. -/
def Solution.hasPoint {α : Type} (s : Solution α) : Bool := !s.point.isEmpty

/-- The distance between an incumbent and the lowest bound that is left. An exhausted tree, whose
bound is infinite, leaves no gap; otherwise the gap is infinite if one of the two is. -/
def optimalityGap {α : Type} [Scalar α] (incumbent lowerBound : α) : α :=
  if lowerBound == Scalar.infinity then 0
  else if Scalar.isInfinite incumbent || Scalar.isInfinite lowerBound then Scalar.infinity
  else Scalar.greatest (incumbent - lowerBound) 0

end BranchBound
