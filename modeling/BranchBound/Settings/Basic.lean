import BranchBound.Error
import BranchBound.Strategy

/-! # Settings

The settings of a search: when it ends, how it explores the tree, and how it is spread over
workers. `Settings.fault?` says what is wrong with settings that no search can run under. -/

namespace BranchBound

/-- The settings of a search. Limits that are absent do not limit. -/
structure Settings (α : Type) where
  /-- Number of nodes to process at most. -/
  maxNodes : Nat
  /-- Limit on the wall-clock time, in milliseconds. -/
  timeLimit : Option Nat
  /-- Limit on the accounted computing time, in milliseconds. -/
  cpuTimeLimit : Option Nat
  /-- Limit on the estimated memory of the open nodes, in bytes. -/
  memoryLimit : Option Nat
  /-- The search ends once the lowest open bound reaches this value. -/
  targetLower : Option α
  /-- The search ends once the incumbent reaches this value. -/
  targetUpper : Option α
  /-- Absolute tolerance for fathoming. -/
  absTolerance : α
  /-- Tolerance for fathoming, relative to the incumbent. -/
  relTolerance : α
  /-- Which open node is processed next. -/
  selection : NodeSelection
  /-- Which dimension of a node is split. -/
  rule : BranchingRule
  /-- Which selection score an open node is given. -/
  scoring : Scoring
  /-- Nodes whose every relative width is at most this are dropped. -/
  sizeTolerance : α
  /-- Nodes above this depth are branched strongly; zero turns strong branching off. -/
  strongDepth : Nat
  /-- Number of workers of a distributed search. -/
  workers : Nat
  /-- How often a waiting manager wakes up, in milliseconds. -/
  tick : Nat
  /-- How long late results are waited for, in milliseconds. -/
  drainTime : Nat
  /-- Whether progress is logged. -/
  verbose : Bool
  /-- Progress is logged every so many nodes. -/
  logFrequency : Nat
  deriving Repr

namespace Settings

variable {α : Type} [Scalar α]

/-- The settings that hold unless others are given. -/
def standard : Settings α where
  maxNodes := 1000000
  timeLimit := none
  cpuTimeLimit := none
  memoryLimit := none
  targetLower := none
  targetUpper := none
  absTolerance := Scalar.ofDecimal (.tenths 1 6)
  relTolerance := Scalar.ofDecimal (.tenths 1 4)
  selection := .bestBound
  rule := .pseudocost
  scoring := .lowBoundFirst
  sizeTolerance := 0
  strongDepth := 0
  workers := 4
  tick := 50
  drainTime := 1000
  verbose := false
  logFrequency := 100

/-- The fault of a tolerance that is negative or not finite. -/
def toleranceFault? (field : String) (value : α) : Option (SettingsFault α) :=
  if !Scalar.isFinite value || value < 0 then some (.badTolerance field value) else none

/-- The fault of a target that is undefined. -/
def targetFault? (field : String) (target : Option α) : Option (SettingsFault α) :=
  if target.any Scalar.isNaN then some (.undefinedTarget field) else none

/-- What is wrong with settings, if anything is; of several faults, the first in this order. -/
def fault? (s : Settings α) : Option (SettingsFault α) :=
  (toleranceFault? "abs_pruning_tol" s.absTolerance)
    <|> (toleranceFault? "rel_pruning_tol" s.relTolerance)
    <|> (toleranceFault? "rel_node_size_tol" s.sizeTolerance)
    <|> (if 1 < s.sizeTolerance then some (.sizeToleranceAboveOne s.sizeTolerance) else none)
    <|> (if s.logFrequency = 0 then some .zeroLogFrequency else none)
    <|> (targetFault? "target_lower_bound" s.targetLower)
    <|> (targetFault? "target_upper_bound" s.targetUpper)

/-- The error of settings that no search can run under. -/
def validate (s : Settings α) : Except (Error α) Unit :=
  match s.fault? with
  | some fault => .error (.invalidSettings fault)
  | none => .ok ()

/-- The settings with a wall-clock limit in seconds, cut to whole milliseconds. -/
def withTimeLimit (s : Settings α) (seconds : α) : Settings α :=
  { s with timeLimit := some (Scalar.toWord (seconds * Scalar.ofNat 1000)) }

/-- The settings with other tolerances for fathoming. -/
def withTolerances (s : Settings α) (rel abs : α) : Settings α :=
  { s with relTolerance := rel, absTolerance := abs }

end Settings

end BranchBound
