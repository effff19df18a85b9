import BranchBound.Brancher.Learning
import BranchBound.Brancher.Split
import BranchBound.Limits
import BranchBound.Report

/-! # The state of a search

A search owns the tree, the incumbent, the counters and the account of time. Nodes are taken out of
it, processed elsewhere, and come back as reports; a report may bring a better point, and its node
is then counted, branched, queued once more or dropped.

A node may leave the search without having been resolved: it is fathomed within the tolerances,
refused by the frontier, or dropped as too small. The lowest score of such nodes is kept, because
the bound of the search may not rise above it.

* **`Search.next`**, **`Search.apply`** — a node goes out; its report comes in. `apply` first
  records the report (`record`) and then acts on it (`settle`).
* **`Search.offer`** — a feasible point, which becomes the incumbent if it is better.
* **`Search.provenBound`** — the lowest score of all that is not resolved.
* **`Search.check`** — whether the search is over, and why. -/

namespace BranchBound

variable {α : Type} [Scalar α]

/-- The state of a search. -/
structure Search (α : Type) where
  /-- The tree and what is known about splits. -/
  brancher : Brancher α
  /-- The best point known. -/
  incumbent : Incumbent α
  /-- The counters. -/
  stats : Stats
  /-- The account of time. -/
  usage : Usage
  /-- The settings the search runs under. -/
  settings : Settings α
  /-- Nodes that are a single point and were queued once more. -/
  requeued : List Nat
  /-- The lowest score of a node that was fathomed within the tolerances or dropped as too
  small. -/
  discarded : α
  deriving Repr

namespace Search

/-- A search at its start: settings and variables are valid, and the root is open. -/
def new (vars : List (Variable α)) (settings : Settings α) : Except (Error α) (Search α) := do
  settings.validate
  let brancher ← Brancher.new vars
  let brancher := { brancher with rule := settings.rule }
  let brancher := brancher.setSelection settings.selection
  let brancher := { brancher with scoring := settings.scoring }
  let brancher := brancher.setTolerances settings.relTolerance settings.absTolerance
  let (inserted, brancher) := brancher.insertRoot (.root brancher.vars)
  let _ ← inserted
  return {
    brancher
    incumbent := .none
    stats := {}
    usage := {}
    settings
    requeued := []
    discarded := Scalar.infinity }

/-- What nodes are to be processed against. -/
def cutoff (s : Search α) : Cutoff α :=
  ⟨s.incumbent.value, s.settings.relTolerance, s.settings.absTolerance⟩

/-- The search once the wall clock shows a time. -/
def atTime (s : Search α) (elapsed : Duration) : Search α := { s with usage.elapsed := elapsed }

/-- Hands out the next node. -/
def next (s : Search α) : Except (Error α) (Node α) × Search α :=
  let (node, brancher) := s.brancher.next
  (node, { s with brancher })

/-- Keeps the score of a node that was not resolved; an undefined score is not kept. -/
def noteDiscarded (s : Search α) (score : α) : Search α :=
  if Scalar.isNaN score then s else { s with discarded := Scalar.least s.discarded score }

/-- Offers a feasible point; says whether it became the incumbent. If it did, the open nodes that
cannot lead to a better point are fathomed. -/
def offer (s : Search α) (c : Candidate α) : Bool × Search α :=
  let (better, incumbent) := s.incumbent.offer c
  if better then
    let (lowest, brancher) := s.brancher.lowerThreshold c.value
    let pruned := brancher.frontier.fathomed - s.brancher.frontier.fathomed
    let stats := { s.stats with
      improvements := s.stats.improvements + 1
      pruned := s.stats.pruned + pruned }
    (true, { s with incumbent, brancher, stats }.noteDiscarded lowest)
  else (false, s)

/-- Accounts a report in the counters and the time, and offers the point it brings. -/
def account (s : Search α) (r : Report α) : Search α :=
  let s := { s with
    usage := s.usage.addProcessing r.busy
    stats := { s.stats with
      processed := s.stats.processed + 1
      lowerCalls := (s.stats.lowerCalls + r.lowerCalls) % wordRange
      upperCalls := (s.stats.upperCalls + r.upperCalls) % wordRange
      maxDepth := max s.stats.maxDepth r.node.depth } }
  match r.candidate with
  | some c => (s.offer c).2
  | none => s

/-- Accounts a report and confirms its node. The account stands even if the node is not waited
for. -/
def record (s : Search α) (r : Report α) : Except (Error α) Unit × Search α :=
  let s := s.account r
  let (confirmed, brancher) := s.brancher.confirm r.node.id r.node
  (confirmed, { s with brancher })

/-- Counts a fathomed node. One that was merely dominated keeps its score for the bound of the
search. -/
def countFathomed (s : Search α) (r : Report α) : Search α :=
  let s := { s with stats.fathomed := s.stats.fathomed + 1 }
  if r.stage = .fathomed .valueDominated then s.noteDiscarded r.node.score else s

/-- Counts a split. -/
def countBranched (s : Search α) : Search α :=
  { s with stats.branched := s.stats.branched + 1 }

/-- Counts a dropped node. -/
def countDropped (s : Search α) : Search α :=
  { s with stats.dropped := s.stats.dropped + 1 }

/-- Branches the node of a report. A node that is a single point and was queued once more before has
now been evaluated twice, and is fathomed. -/
def branch (s : Search α) (r : Report α) : Except (Error α) Stage × Search α :=
  if r.node.box.isPoint ∧ r.node.id ∈ s.requeued then
    (.ok (.fathomed .fixedPointEvaluated),
      { s with stats.fathomed := s.stats.fathomed + 1 })
  else
    let (branching, brancher) :=
      s.brancher.branch r.node r.point r.lowerBound s.settings.sizeTolerance
    let s := { s with brancher }
    match branching with
    | .error e => (.error e, s)
    | .ok .requeued =>
        (.ok .fixed,
          { s with
            requeued := r.node.id :: s.requeued
            stats.fixed := s.stats.fixed + 1 })
    | .ok .dropped => (.ok .dropped, s.countDropped.noteDiscarded r.node.score)
    | .ok (.split ..) => (.ok .branched, s.countBranched)

/-- Acts on a recorded report: a fathomed node is counted, one that came through is branched. A
report in any other stage is an error. -/
def settle (s : Search α) (r : Report α) : Except (Error α) Stage × Search α :=
  match r.stage with
  | .fathomed reason => (.ok (.fathomed reason), s.countFathomed r)
  | .postprocessed => s.branch r
  | stage => (.error (.invalidProblem (.openStage r.node.id stage)), s)

/-- Takes in a report: records it, then acts on it. Answers the final stage of the node. -/
def apply (s : Search α) (r : Report α) : Except (Error α) Stage × Search α :=
  match s.record r with
  | (.error e, s) => (.error e, s)
  | (.ok (), s) => s.settle r

/-- Queues a node that was evaluated already; says whether the frontier took it. -/
def insertEvaluated (s : Search α) (n : Node α) : Except (Error α) Bool × Search α :=
  let (taken, brancher) := s.brancher.insertNode n
  (taken, { s with brancher })

/-- The children of a reported node in every dimension, which count as handed out. -/
def strongChildren (s : Search α) (r : Report α) : Except (Error α) (List (Node α)) × Search α :=
  let (children, brancher) := s.brancher.allChildren r.node r.point
  (children, { s with brancher })

/-- The lowest score of the open nodes and of the nodes that are out. -/
def openBound (s : Search α) (outLowest : Option α) : α :=
  let lowest := s.brancher.frontier.lowestScore
  match outLowest with
  | some score => Scalar.least lowest score
  | none => lowest

/-- The lowest score of any part of the domain that is not resolved: open nodes, nodes that are
out, and nodes that left the search unresolved. -/
def provenBound (s : Search α) (outLowest : Option α) : α :=
  Scalar.least (Scalar.least (s.openBound outLowest) s.discarded) s.brancher.frontier.lowestRefused

/-- The status of an exhausted tree. -/
def exhaustedStatus (s : Search α) : Status :=
  if s.incumbent.isKnown then .globallyOptimal else .infeasible

/-- Whether the search is over, and why, given the lowest score of the nodes that are out. In this
order: the tree is exhausted, the incumbent reached its target, the open bound reached its target, a
resource limit is reached. -/
def check (s : Search α) (outLowest : Option α) : Option Status :=
  if s.brancher.frontier.size = 0 ∧ outLowest.isNone then some s.exhaustedStatus
  else if s.settings.targetUpper.any fun target => s.incumbent.value ≤ target then
    some .targetUpperReached
  else if s.settings.targetLower.any fun target => target ≤ s.openBound outLowest then
    some .targetLowerReached
  else
    resourceLimit? s.settings s.stats.processed s.usage s.brancher.frontier.footprint

/-- The outcome of the search. -/
def solution (s : Search α) (status : Status) (termination : Termination)
    (error : Option String) : Solution α :=
  let lowest := s.provenBound none
  { status
    termination
    point := s.incumbent.point.getD []
    value := s.incumbent.value
    lowerBound := Scalar.least lowest s.incumbent.value
    gap := optimalityGap s.incumbent.value lowest
    stats := s.stats
    error }

end Search

end BranchBound
