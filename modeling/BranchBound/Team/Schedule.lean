import BranchBound.Team.Basic

/-! # Taking turns

Of all orders of events in a team, one is of special use: the workers take turns. The worker whose
node has been out for the longest processes it, while the others rest, and the manager reads the
reply before anything else happens. Nodes can be held back; their workers never get a turn, and when
only such nodes are left at the end, the time for late results is over.

* **`Team.round`** — the events of one round, each of them a `Team.step`.
* **`Team.takeTurns`** — round after round, until the search has ended. -/

namespace BranchBound.Team

variable {σ α : Type} [Scalar α]

/-- The worker whose turn it is: of those on a node that is not held back, the one on the node
dispatched first. -/
def nextWorker? (held : List Nat) (t : Team σ α) : Option Nat :=
  let ready := t.seats.zipIdx.filterMap fun (seat, i) =>
    match seat.out with
    | some assignment => if assignment.node.id ∈ held then none else some (assignment.turn, i)
    | none => none
  (ready.foldl (fun (first : Option (Nat × Nat)) next =>
    match first with
    | none => some next
    | some f => if next.1 < f.1 then some next else some f) none).map (·.2)

/-- A worker handles its orders until it has a reply or is gone. -/
def workUntilReply (solvers : Nat → Solvers σ α) (i : Nat) : Nat → Team σ α → Team σ α
  | 0, t => t
  | n + 1, t =>
      if (t.news? i).isSome then t
      else workUntilReply solvers i n (t.step solvers (.work i))

/-- A worker has its turn: it handles its orders until it has a reply, and the manager reads it. -/
def turn (solvers : Nat → Solvers σ α) (t : Team σ α) (i : Nat) : Team σ α :=
  let orders := (t.seats[i]?.map (·.orders.length)).getD 0
  (workUntilReply solvers i orders t).step solvers (.receive i)

/-- One round: the manager looks at the search, and one worker has its turn. -/
def round (solvers : Nat → Solvers σ α) (held : List Nat) (t : Team σ α) : Team σ α :=
  let t := t.step solvers .decide
  match t.phase, t.nextWorker? held with
  | .waiting, some i | .draining _, some i => t.turn solvers i
  | .draining _, none => t.step solvers .deadline
  | _, _ => t

/-- How far a team is from its end: nodes left to the limit while it searches, nodes that are out
while it waits for late results. -/
def distance (t : Team σ α) : Nat :=
  match t.phase with
  | .ended .. => 0
  | .draining _ => t.outNodes.length
  | .deciding | .waiting =>
      t.search.settings.maxNodes - t.search.stats.processed + t.seats.length + 1

/-- Goes round until the search has ended, or until a round brings it no closer to its end, which
happens only if all nodes that are out are held back. -/
def takeTurns (solvers : Nat → Solvers σ α) (held : List Nat) (t : Team σ α) : Team σ α :=
  let next := t.round solvers held
  if next.distance < t.distance then takeTurns solvers held next
  else next -- the search has ended, or no worker may have a turn
termination_by t.distance
decreasing_by assumption

/-- Solves a problem with workers that take turns; answers the team at its end, which knows the
solution. -/
def solveInTurns (solvers : Nat → Solvers σ α) (held : List Nat) (vars : List (Variable α))
    (settings : Settings α) (memory : σ) : Except (Error α) (Team σ α) := do
  let t ← start vars settings memory
  return t.takeTurns solvers held

end BranchBound.Team
