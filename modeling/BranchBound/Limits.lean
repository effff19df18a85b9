import BranchBound.Duration
import BranchBound.Outcome
import BranchBound.Settings.Basic

/-! # Resource limits

A search accounts the time it uses and ends when a limit is reached. Computing time is the time
spent on nodes, by whoever processed them, together with the time spent on the tree. -/

namespace BranchBound

/-- The time a search has used. -/
structure Usage where
  /-- Wall-clock time since the start. -/
  elapsed : Duration := .zero
  /-- Time spent on nodes. -/
  processing : Duration := .zero
  /-- Time spent on the tree. -/
  managing : Duration := .zero
  deriving DecidableEq, Repr, Inhabited

namespace Usage

/-- Accounts time spent on nodes. -/
def addProcessing (u : Usage) (d : Duration) : Usage := { u with processing := u.processing.add d }

/-- Accounts time spent on the tree. -/
def addManaging (u : Usage) (d : Duration) : Usage := { u with managing := u.managing.add d }

/-- The accounted computing time. -/
def cpuTime (u : Usage) : Duration := u.processing.add u.managing

end Usage

/-- Whether a length of time reaches a limit in milliseconds. -/
def Duration.reaches (d : Duration) (limit : Option Nat) : Bool :=
  limit.any fun millis => (Duration.ofMillis millis).nanoseconds ≤ d.nanoseconds

/-- The first limit that is reached, in the order: nodes, wall clock, computing time, memory. -/
def resourceLimit? {α : Type} (settings : Settings α) (processed : Nat) (usage : Usage)
    (memory : Nat) : Option Status :=
  if settings.maxNodes ≤ processed then some .nodeLimit
  else if usage.elapsed.reaches settings.timeLimit then some .wallTimeLimit
  else if usage.cpuTime.reaches settings.cpuTimeLimit then some .cpuTimeLimit
  else if settings.memoryLimit.any (· ≤ memory) then some .memoryLimit
  else none

end BranchBound
