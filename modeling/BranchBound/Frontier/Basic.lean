import BranchBound.Frontier.Heap
import BranchBound.Node.Basic
import BranchBound.Strategy

/-! # The frontier

The frontier holds the open nodes of a search. Nodes lie in an arena of slots and do not move while
they are open; a binary heap of slot indices is ordered by the selection in force, and slots that
fall free are used again before the arena grows.

A node whose score reaches the threshold, after the tolerances have been taken off it, cannot lead
to a better point: it is refused when offered and fathomed when the threshold falls. The frontier
keeps the lowest score it has refused, and counts the nodes it has fathomed.

* **`Frontier.toList`** — the open nodes; what the operations do is to be read off this view.
* **`insert`**, **`pop?`**, **`peek?`** — nodes enter, leave and are looked at in the order of
  `NodeSelection.prefers`.
* **`lowerThreshold`** — fathoms all nodes that the new threshold dominates.
* **`takeId`**, **`reserveIds`** — give out ids and keep clear of ids given out elsewhere. -/

namespace BranchBound

variable {α : Type} [Scalar α]

/-- A threshold lowered by the greater of an absolute tolerance and a tolerance relative to its
size; only a finite threshold can be lowered. -/
def toleranceAdjusted (threshold rel abs : α) : α :=
  if Scalar.isFinite threshold then
    threshold - Scalar.greatest abs (rel * Scalar.abs threshold)
  else threshold

/-- Whether `a` is taken out of the frontier before `b`. -/
def NodeSelection.prefers (selection : NodeSelection) (a b : OpenNode α) : Bool :=
  match selection with
  | bestBound =>
      match Scalar.order a.selectionScore b.selectionScore with
      | .gt => true
      | .lt => false
      | .eq => a.id < b.id
  | depthFirst => b.id < a.id
  | breadthFirst => a.id < b.id

/-- The open nodes of a search. -/
structure Frontier (α : Type) where
  /-- The arena; a free slot holds nothing. -/
  slots : Array (Option (OpenNode α))
  /-- The free slots, the one freed last in front. -/
  free : List Nat
  /-- The slots in use, as a heap. -/
  heap : Array Nat
  /-- Which node comes out first. -/
  selection : NodeSelection
  /-- Scores from here on are of no interest. -/
  threshold : α
  /-- Tolerance relative to the size of the threshold. -/
  relTolerance : α
  /-- Absolute tolerance. -/
  absTolerance : α
  /-- The next node id to be given out. -/
  nextId : Nat
  /-- The lowest score of a refused node. -/
  lowestRefused : α
  /-- The number of nodes fathomed by lowering the threshold. -/
  fathomed : Nat
  deriving Repr

namespace Frontier

/-- An empty frontier without threshold. Id 0 is left to the root. -/
def new (selection : NodeSelection) : Frontier α where
  slots := #[]
  free := []
  heap := #[]
  selection := selection
  threshold := Scalar.infinity
  relTolerance := 0
  absTolerance := 0
  nextId := 1
  lowestRefused := Scalar.infinity
  fathomed := 0

/-- The node in a slot. -/
def nodeAt? (f : Frontier α) (slot : Nat) : Option (OpenNode α) := f.slots[slot]?.join

/-- The open nodes, in the order of the heap. -/
def toList (f : Frontier α) : List (OpenNode α) := f.heap.toList.filterMap f.nodeAt?

/-- The number of open nodes. -/
def size (f : Frontier α) : Nat := f.heap.size

/-- Whether no node is open. -/
def isEmpty (f : Frontier α) : Bool := f.heap.isEmpty

/-- Whether the node in slot `a` comes out before the node in slot `b`. -/
def slotBefore (f : Frontier α) (a b : Nat) : Bool :=
  match f.nodeAt? a, f.nodeAt? b with
  | some m, some n => f.selection.prefers m n
  | _, _ => false

/-- The threshold after the tolerances have been taken off. -/
def adjustedThreshold (f : Frontier α) : α :=
  toleranceAdjusted f.threshold f.relTolerance f.absTolerance

/-- Whether a node of this score is of no interest. -/
def dominates (f : Frontier α) (score : α) : Bool := f.adjustedThreshold ≤ score

/-- The slot for the next node, with the arena and the free slots once it is taken. -/
def claimSlot (f : Frontier α) (n : OpenNode α) :
    Nat × Array (Option (OpenNode α)) × List Nat :=
  match f.free with
  | slot :: free => (slot, f.slots.setIfInBounds slot (some n), free)
  | [] => (f.slots.size, f.slots.push (some n), [])

/-- Offers a node; says whether it was taken. A refused node leaves its score. -/
def insert (f : Frontier α) (n : OpenNode α) : Bool × Frontier α :=
  if f.dominates n.score then
    (false, { f with lowestRefused := Scalar.least f.lowestRefused n.score })
  else
    let (slot, slots, free) := f.claimSlot n
    let f := { f with slots, free }
    (true, { f with heap := Heap.push f.slotBefore f.heap slot })

/-- The node that comes out next. -/
def peek? (f : Frontier α) : Option (OpenNode α) := f.heap[0]? >>= f.nodeAt?

/-- Takes the next node out; its slot falls free. -/
def pop? (f : Frontier α) : Option (OpenNode α × Frontier α) :=
  match f.heap[0]? with
  | none => none
  | some slot =>
      let heap := Heap.dropRoot f.slotBefore f.heap
      (f.nodeAt? slot).map fun n =>
        (n, { f with heap, slots := f.slots.setIfInBounds slot none, free := slot :: f.free })

/-- The lowest score of an open node; infinity if none is open. -/
def lowestScore (f : Frontier α) : α :=
  f.toList.foldl (fun lowest n => Scalar.least lowest n.score) Scalar.infinity

/-- The distance from the lowest score to the threshold; negative infinity if no node is open. -/
def gap (f : Frontier α) : α :=
  if f.isEmpty then -Scalar.infinity else f.threshold - f.lowestScore

/-- Lowers the threshold and fathoms the nodes that reach it; returns their lowest score. A
threshold that is undefined or above the one in force changes nothing. -/
def lowerThreshold (f : Frontier α) (threshold : α) : α × Frontier α :=
  if Scalar.isNaN threshold ∨ f.threshold < threshold then (Scalar.infinity, f)
  else
    let f := { f with threshold }
    let scoreAt slot := (f.nodeAt? slot).elim Scalar.infinity OpenNode.score
    -- The nodes that stay keep their slots; only the heap is built anew.
    let (dead, kept) := f.heap.toList.partition fun slot => f.dominates (scoreAt slot)
    let lowest := dead.foldl (fun lowest slot => Scalar.least lowest (scoreAt slot)) Scalar.infinity
    let f := { f with
      slots := dead.foldl (fun slots slot => slots.setIfInBounds slot none) f.slots
      free := dead.reverse ++ f.free
      fathomed := f.fathomed + dead.length }
    (lowest, { f with heap := Heap.heapify f.slotBefore kept.toArray })

/-- Sets the tolerances for nodes offered and thresholds lowered from now on; negative ones count
as zero. -/
def setTolerances (f : Frontier α) (rel abs : α) : Frontier α :=
  { f with relTolerance := Scalar.greatest rel 0, absTolerance := Scalar.greatest abs 0 }

/-- Changes which node comes out first. Open nodes keep their selection scores. -/
def setSelection (f : Frontier α) (selection : NodeSelection) : Frontier α :=
  if f.selection = selection then f
  else
    let f := { f with selection }
    { f with heap := Heap.heapify f.slotBefore f.heap }

/-- Gives out a new id. -/
def takeId (f : Frontier α) : Nat × Frontier α :=
  (f.nextId, { f with nextId := (f.nextId + 1) % wordRange })

/-- Makes sure that ids given out from now on are greater than `id`, as far as there are any. -/
def reserveIds (f : Frontier α) (id : Nat) : Frontier α :=
  { f with nextId := max f.nextId (min (id + 1) (wordRange - 1)) }

/-- Estimated memory of one open node without its bounds, in bytes. -/
def nodeBytes : Nat := 80

/-- Estimated memory of one slot of the arena, in bytes. -/
def slotBytes : Nat := 136

/-- Estimated memory of a bound or of an index, in bytes. -/
def cellBytes : Nat := 8

/-- Estimated memory of the open nodes and of the structure around them, in bytes. Lists and arrays
count for what they hold; the room that they keep in reserve is not counted, so the estimate is a
lower one. -/
def footprint (f : Frontier α) : Nat :=
  let cells := f.toList.foldl (fun cells n =>
    cells + n.node.box.lower.length + n.node.box.upper.length) 0
  nodeBytes * f.size + slotBytes * f.slots.size
    + cellBytes * (cells + f.heap.size + f.free.length)

end Frontier

end BranchBound
