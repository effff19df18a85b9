import BranchBound.Search.State

/-! # A round of the serial search

A search in one place goes round after round: it asks whether it is over, takes out a node,
processes it and takes in the report. A node of small depth may be branched strongly: its children
in every dimension are processed at once, and the most promising pair is kept.

A `Run` is a search together with the state of its solvers, and `Work` is what is done on it; what
was done before something went wrong stands.

* **`Serial.round solvers`** — one round: the reason why the search is over, or nothing once a node
  has been processed.
* **`Serial.strongBranch`** — the round of a node that is branched strongly. -/

namespace BranchBound

/-- A search together with the state of its solvers. -/
structure Run (σ α : Type) where
  /-- The state of the search. -/
  search : Search α
  /-- The state of the solvers. -/
  memory : σ

/-- A piece of work on a run. -/
abbrev Work (σ α : Type) := ExceptT (Failure α) (StateM (Run σ α))

namespace Work

variable {σ α β : Type}

/-- Does a piece of work on a run: the answer, or what went wrong, and the run it leaves. -/
def exec (work : Work σ α β) (run : Run σ α) : Except (Failure α) β × Run σ α :=
  Id.run (StateT.run (ExceptT.run work) run)

/-- Works on the search; the state it leaves stands even if it fails. -/
def onSearch (f : Search α → Except (Error α) β × Search α) : Work σ α β :=
  ExceptT.mk fun run =>
    let (answer, search) := f run.search
    (answer.mapError Failure.error, { run with search })

/-- Calls on the solvers. -/
def onSolvers (call : Call σ α β) : Work σ α β :=
  ExceptT.mk fun run =>
    let (answer, memory) := call.run.run run.memory
    (answer, { run with memory })

/-- The state of the search. -/
def search : Work σ α (Search α) := return (← get).search

/-- Changes the search in a way that cannot fail. -/
def change (f : Search α → Search α) : Work σ α Unit := onSearch fun s => (.ok (), f s)

end Work

variable {σ α : Type} [Scalar α]

/-- Two neighbours each of the entries of a list; an odd last one is left out. -/
def pairs {β : Type} : List β → List (β × β)
  | x :: y :: rest => (x, y) :: pairs rest
  | _ => []

namespace Serial

/-- Whether a report calls for strong branching: the node has to be branched, is not a single point
and is wide enough. -/
def wantsStrong (s : Search α) (r : Report α) : Bool :=
  r.needsBranching && !r.node.box.isPoint
    && !s.brancher.isBelowTolerance r.node.box s.settings.sizeTolerance

/-- Processes handed-out nodes one after the other, each under the cutoff in force by then, and
records the reports. -/
def evaluate (solvers : Solvers σ α) : List (Node α) → Work σ α (List (Report α))
  | [] => return []
  | node :: rest => do
      let s ← Work.search
      let r ← Work.onSolvers (processNode solvers node s.cutoff)
      Work.onSearch (·.record r)
      return r :: (← evaluate solvers rest)

/-- How much a child improves on the score of its parent, as far as that counts. -/
def gain (threshold parentScore : α) (r : Report α) : α :=
  Scalar.greatest (Scalar.least r.node.score threshold - parentScore) 0

/-- The pair of children with the highest product score; of several, the first. -/
def bestPair (threshold parentScore : α) (children : List (Report α × Report α)) :
    Option (Report α × Report α) :=
  let scored := children.map fun (down, up) =>
    ((down, up), productScore (gain threshold parentScore up) (gain threshold parentScore down))
  let best := scored.foldl (fun best found =>
    match best with
    | none => some found
    | some b => if b.2 < found.2 then some found else some b) none
  best.map (·.1)

/-- Takes in a kept child: one that has to be branched is queued, one that was fathomed is
counted. -/
def keep (r : Report α) : Work σ α Unit :=
  if r.needsBranching then do
    let _ ← Work.onSearch (·.insertEvaluated r.node)
  else Work.change (·.countFathomed r)

/-- Branches the node of a report strongly: processes its children in every dimension and keeps the
pair that scores best. The node is dropped if it has no children. -/
def strongBranch (solvers : Solvers σ α) (r : Report α) : Work σ α Stage := do
  Work.onSearch (·.record r)
  let children ← Work.onSearch (·.strongChildren r)
  let reports ← evaluate solvers children
  let s ← Work.search
  match bestPair s.brancher.frontier.threshold r.node.score (pairs reports) with
  | none =>
      Work.change (·.countDropped)
      return .dropped
  | some (down, up) =>
      keep down
      keep up
      Work.change (·.countBranched)
      return .branched

/-- What follows the processing of a node: strong branching for a node above the depth for it that
calls for it, and otherwise the taking in of the report. -/
def conclude (solvers : Solvers σ α) (depth : Nat) (r : Report α) : Work σ α Stage := do
  let s ← Work.search
  if depth < s.settings.strongDepth ∧ wantsStrong s r then strongBranch solvers r
  else Work.onSearch (·.apply r)

/-- One round of a search: answers why the search is over, or processes a node. -/
def round (solvers : Solvers σ α) : Work σ α (Option Status) := do
  modify fun run => { run with search := run.search.atTime (solvers.clock run.memory) }
  let s ← Work.search
  match s.check none with
  | some status => return some status
  | none =>
      let node ← Work.onSearch Search.next
      let r ← Work.onSolvers (processNode solvers node s.cutoff)
      let _ ← conclude solvers node.depth r
      return none

end Serial

end BranchBound
