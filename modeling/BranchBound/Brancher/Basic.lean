import BranchBound.Frontier.Basic
import BranchBound.Pseudocost

/-! # The brancher

The brancher owns the frontier and decides how nodes are split. A node leaves it by being handed
out and is then waited for until it is confirmed or cancelled; what a split has brought is learned
at the confirmation.

This module has the state of a brancher and the ways nodes enter and leave it:

* **`insertRoot`**, **`insertNode`** — offer a node to the frontier, if its box fits the variables;
* **`next`** — hands out the next open node, which is then in `Brancher.waiting`;
* **`cancel`** — takes a node out of `Brancher.waiting` unprocessed (`confirm`, which learns from
  the processed node, comes with the rules for learning).

An operation that can fail answers with the state it leaves behind as well. -/

namespace BranchBound

variable {α : Type} [Scalar α]

/-- What is remembered of a node while it is out. -/
structure HandedOut (α : Type) where
  /-- The score of the node when it was handed out. -/
  score : α
  /-- How the node was made. -/
  history : History α
  deriving Repr

/-- The nodes that are out, by their ids. -/
abbrev Waiting (α : Type) := List (Nat × HandedOut α)

namespace Waiting

/-- Forgets a node. -/
def erase (w : Waiting α) (id : Nat) : Waiting α := w.filter fun (other, _) => other ≠ id

/-- Remembers a node; an earlier entry of the same id is replaced. -/
def insert (w : Waiting α) (id : Nat) (entry : HandedOut α) : Waiting α :=
  (id, entry) :: erase w id

end Waiting

/-- The frontier, the nodes that are out, and what is known about splits. -/
structure Brancher (α : Type) where
  /-- The variables, in standard form. -/
  vars : List (Variable α)
  /-- The open nodes. -/
  frontier : Frontier α
  /-- What splits have brought so far. -/
  pseudocosts : Pseudocosts α
  /-- The nodes that are out. -/
  waiting : Waiting α
  /-- Which dimension is split. -/
  rule : BranchingRule
  /-- Which selection score an open node is given. -/
  scoring : Scoring
  deriving Repr

namespace Brancher

/-- A brancher over valid variables, of which there must be one at least. -/
def new (vars : List (Variable α)) : Except (Error α) (Brancher α) :=
  if vars.isEmpty then .error (.invalidProblem .noVariables)
  else do
    let vars ← vars.mapM Variable.validated
    return {
      vars
      frontier := .new .bestBound
      pseudocosts := .new vars.length
      waiting := []
      rule := .pseudocost
      scoring := .lowBoundFirst }

/-- The selection score of a node. -/
def selectionScore (b : Brancher α) (n : Node α) : α :=
  match b.scoring with
  | .lowBoundFirst => -n.score
  | .lowIdFirst => -Scalar.ofNat n.id
  | .highIdFirst => Scalar.ofNat n.id

/-- A node as it becomes open. -/
def toOpen (b : Brancher α) (n : Node α) (history : History α) : OpenNode α :=
  ⟨n, b.selectionScore n, history⟩

/-- What is wrong with a node whose bounds are not as many as the variables. -/
def dimensionFault? (b : Brancher α) (n : Node α) : Option (Error α) :=
  if n.box.hasDimension b.vars.length then none
  else some (.invalidProblem
    (.wrongDimension n.id n.box.lower.length n.box.upper.length b.vars.length))

/-- Offers an open node to the frontier; says whether it was taken. -/
def offer (b : Brancher α) (n : OpenNode α) : Bool × Brancher α :=
  let (taken, frontier) := b.frontier.insert n
  (taken, { b with frontier })

/-- Offers a node under a given selection score. Ids given out later are above the id of the
node. -/
def insertScored (b : Brancher α) (n : Node α) (selectionScore : α) :
    Except (Error α) Bool × Brancher α :=
  match b.dimensionFault? n with
  | some e => (.error e, b)
  | none =>
      let b := { b with frontier := b.frontier.reserveIds n.id }
      let (taken, b) := b.offer ⟨n, selectionScore, .unsplit⟩
      (.ok taken, b)

/-- Offers the root, whose selection score is zero. -/
def insertRoot (b : Brancher α) (n : Node α) : Except (Error α) Bool × Brancher α :=
  b.insertScored n 0

/-- Offers a node that was evaluated before. -/
def insertNode (b : Brancher α) (n : Node α) : Except (Error α) Bool × Brancher α :=
  b.insertScored n (b.selectionScore n)

/-- Hands out the next node. -/
def next (b : Brancher α) : Except (Error α) (Node α) × Brancher α :=
  match b.frontier.pop? with
  | none => (.error .emptyTree, b)
  | some (n, frontier) =>
      (.ok n.node, { b with frontier, waiting := b.waiting.insert n.id ⟨n.score, n.history⟩ })

/-- Cancels a node that is out and will never be confirmed. -/
def cancel (b : Brancher α) (id : Nat) : Except (Error α) Unit × Brancher α :=
  match b.waiting.lookup id with
  | none => (.error (.unknownNode id), b)
  | some _ => (.ok (), { b with waiting := b.waiting.erase id })

/-- Lowers the threshold; answers the lowest score that was fathomed. -/
def lowerThreshold (b : Brancher α) (threshold : α) : α × Brancher α :=
  let (lowest, frontier) := b.frontier.lowerThreshold threshold
  (lowest, { b with frontier })

/-- Sets the tolerances of the frontier. -/
def setTolerances (b : Brancher α) (rel abs : α) : Brancher α :=
  { b with frontier := b.frontier.setTolerances rel abs }

/-- Changes which open node comes out first. -/
def setSelection (b : Brancher α) (selection : NodeSelection) : Brancher α :=
  { b with frontier := b.frontier.setSelection selection }

end Brancher

end BranchBound
