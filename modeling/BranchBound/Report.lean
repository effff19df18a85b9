import BranchBound.Duration
import BranchBound.Incumbent
import BranchBound.Solvers

/-! # Processing a node

Processing takes a node through its stages up to the point where it is fathomed or has to be
branched, and reports what came out. It does not touch the tree: it runs on whatever node and cutoff
it is given, so that it serves a search in one place and workers alike.

* **`Report`** — what the processing of a node brought; `Report.trace` has the stages gone through.
* **`processNode solvers node cutoff`** — the processing, in four parts of which each may end it:
  `tightenNode`, `boundNode`, `searchNode`, `finishNode`. -/

namespace BranchBound

/-- What the processing of a node brought. -/
structure Report (α : Type) where
  /-- The node, with tightened bounds and raised score. -/
  node : Node α
  /-- Lower bound of the relaxation; infinity if it is infeasible. -/
  lowerBound : α
  /-- Where the relaxation attains its bound. -/
  point : List α
  /-- Calls for a lower bound. -/
  lowerCalls : Nat
  /-- Calls for a feasible point. -/
  upperCalls : Nat
  /-- Whether the node was proved infeasible. -/
  infeasible : Bool
  /-- Whether the node was solved. -/
  converged : Bool
  /-- How the node came out. -/
  tag : Tag
  /-- The last stage reached. -/
  stage : Stage
  /-- The stages gone through, in order. -/
  trace : List Stage
  /-- A point better than the incumbent, if one was found. -/
  candidate : Option (Candidate α)
  /-- Time spent on the node. -/
  busy : Duration
  deriving Repr

namespace Report

variable {α : Type} [Scalar α]

/-- The report on a node at the start of its processing. -/
def start (node : Node α) : Report α where
  node := node
  lowerBound := -Scalar.infinity
  point := []
  lowerCalls := 0
  upperCalls := 0
  infeasible := false
  converged := false
  tag := .feasible
  stage := .new
  trace := [.new]
  candidate := none
  busy := .zero

/-- Goes on to the next stage. -/
def advance (r : Report α) (stage : Stage) : Report α :=
  { r with stage, trace := r.trace ++ [stage] }

/-- Fathoms the node. One that is infeasible gets an infinite score. -/
def fathom (r : Report α) (reason : Reason) : Report α :=
  let r := match reason with
    | .infeasible =>
        { r with infeasible := true, node.score := Scalar.infinity, tag := .infeasible }
    | .tighteningInfeasible =>
        { r with infeasible := true, node.score := Scalar.infinity, tag := .tighteningInfeasible }
    | .converged => { r with converged := true }
    | .valueDominated | .fixedPointEvaluated => r
  r.advance (.fathomed reason)

/-- Whether the node has to be branched. -/
def needsBranching (r : Report α) : Bool := r.stage = .postprocessed

/-- Takes in the answer to the call for a lower bound, which the score cannot fall below. -/
def withLower (r : Report α) (answer : LowerAnswer α) : Report α :=
  { r with
    lowerBound := answer.bound
    node.score := Scalar.greatest r.node.score answer.bound
    point := answer.point }

/-- The point the search for feasible points starts from: that of the relaxation, or the center of
the box if the relaxation gives none that fits. -/
def seed (r : Report α) : List α :=
  if r.point.length = r.node.box.dimension then r.point else r.node.box.center

/-- The better point that an answer brings under a cutoff, if it does. -/
def candidate? (cutoff : Cutoff α) (answer : UpperAnswer α) : Option (Candidate α) :=
  if answer.improves && !answer.point.isEmpty && (cutoff.tighten answer.value).1 then
    some ⟨answer.value, answer.point⟩
  else none

/-- The cutoff after a better point was found. -/
def tightened (cutoff : Cutoff α) : Option (Candidate α) → Cutoff α
  | some c => (cutoff.tighten c.value).2
  | none => cutoff

end Report

variable {σ α : Type} [Scalar α]

/-- The last part of processing: the second tightening, which may empty the box or solve the
node. -/
def finishNode (solvers : Solvers σ α) (r : Report α) (answer : LowerAnswer α)
    (cutoff : Cutoff α) : Call σ α (Report α) := do
  let (solved, node) ← solvers.postprocess r.node r.point answer.duals cutoff.incumbent
  let r := { r with node }
  if node.box.isEmpty then return r.fathom .tighteningInfeasible
  else
    let r := r.advance .postprocessed
    if solved then return r.fathom .converged else return r

/-- The middle part of processing: the search for a feasible point, which may solve the node or
make it dominated. -/
def searchNode (solvers : Solvers σ α) (r : Report α) (answer : LowerAnswer α)
    (cutoff : Cutoff α) : Call σ α (Report α) := do
  let found ← solvers.upper r.node r.seed cutoff.incumbent
  let candidate := Report.candidate? cutoff found
  let cutoff := Report.tightened cutoff candidate
  let r := { r with upperCalls := r.upperCalls + 1, candidate }
  let r := r.advance .upperBounded
  if answer.converged || found.converged then return r.fathom .converged
  else if cutoff.dominates r.node.score then return r.fathom .valueDominated
  else finishNode solvers r answer cutoff

/-- The second part of processing: the call for a lower bound, which may prove the node infeasible
or dominated. An undefined bound is an error. -/
def boundNode (solvers : Solvers σ α) (r : Report α) (cutoff : Cutoff α) :
    Call σ α (Report α) := do
  let answer ← solvers.lower r.node cutoff.incumbent
  let r := { r with lowerCalls := r.lowerCalls + 1 }
  if answer.infeasible then
    return { r with lowerBound := Scalar.infinity }.fathom .infeasible
  else if Scalar.isNaN answer.bound then
    throw (.error (.solverFailed (.undefinedBound r.node.id)))
  else
    let r := (r.withLower answer).advance .lowerBounded
    if !answer.converged && cutoff.dominates r.node.score then return r.fathom .valueDominated
    else searchNode solvers r answer cutoff

/-- The first part of processing: the first tightening, which may prove the node infeasible. -/
def tightenNode (solvers : Solvers σ α) (node : Node α) (cutoff : Cutoff α) :
    Call σ α (Report α) := do
  let (infeasible, node) ← solvers.preprocess node cutoff.incumbent
  let r := Report.start node
  if infeasible || node.box.isEmpty then return r.fathom .tighteningInfeasible
  else boundNode solvers (r.advance .preprocessed) cutoff

/-- Processes a node: tightens it, bounds it, searches it and tightens it again, as far as it does
not turn out to need no further work. The report tells how long that took. -/
def processNode (solvers : Solvers σ α) (node : Node α) (cutoff : Cutoff α) :
    Call σ α (Report α) := do
  let started ← solvers.now
  let r ← tightenNode solvers node cutoff
  let ended ← solvers.now
  return { r with busy := ended.since started }

end BranchBound
