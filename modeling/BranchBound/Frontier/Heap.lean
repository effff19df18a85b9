/-! # Binary heaps

A binary heap is an array whose entry at `i` has its children at `2 * i + 1` and `2 * i + 2`; it is
ordered by a relation `before` that says which of two entries must come out first. The relation may
change between operations, so it is an argument of each of them.

* **`siftUp before heap i`**, **`siftDown before heap i`** — restore the order around the entry at
  `i` by moving it towards the root or away from it.
* **`push`**, **`dropRoot`**, **`heapify`** — add an entry, take the root out, order a whole array.

Positions beyond the end have no entry and precede nothing, so no operation needs a bound on its
position; `earliestChild_bounds` is why moving down ends. -/

namespace BranchBound.Heap

variable {β : Type} (before : β → β → Bool)

/-- Whether the entry at `i` must come out before the entry at `j`; false unless both exist. -/
def precedes (heap : Array β) (i j : Nat) : Bool :=
  match heap[i]?, heap[j]? with
  | some x, some y => before x y
  | _, _ => false

/-- Moves the entry at a position up until its parent need not come out after it. -/
def siftUp (heap : Array β) (position : Nat) : Array β :=
  if position = 0 then heap
  else
    let parent := (position - 1) / 2
    if precedes before heap position parent then
      siftUp (heap.swapIfInBounds position parent) parent
    else heap
termination_by position
decreasing_by omega

/-- The child that must come out before its parent and before its sibling, if a child must come out
before its parent at all; of two equal children, the left one. -/
def earliestChild (heap : Array β) (position : Nat) : Option Nat :=
  let left := 2 * position + 1
  let right := 2 * position + 2
  if precedes before heap left position then
    if precedes before heap right left then some right else some left
  else if precedes before heap right position then some right
  else none

/-- An entry that precedes another is within the array. -/
theorem lt_size_of_precedes {heap : Array β} {i j : Nat} (h : precedes before heap i j = true) :
    i < heap.size := by
  unfold precedes at h
  split at h
  · next x y hx _ => exact (Array.getElem?_eq_some_iff.1 hx).1
  · cases h

/-- The child chosen by `earliestChild` lies below its parent and within the array. -/
theorem earliestChild_bounds {heap : Array β} {position child : Nat}
    (h : earliestChild before heap position = some child) :
    position < child ∧ child < heap.size := by
  simp only [earliestChild] at h
  split at h
  · next hl =>
    have := lt_size_of_precedes before hl
    split at h
    · next hr =>
      have := lt_size_of_precedes before hr
      cases h
      omega
    · cases h
      omega
  · split at h
    · next hr =>
      have := lt_size_of_precedes before hr
      cases h
      omega
    · cases h

/-- Moves the entry at a position down until no child must come out before it. -/
def siftDown (heap : Array β) (position : Nat) : Array β :=
  match _h : earliestChild before heap position with
  | some child => siftDown (heap.swapIfInBounds position child) child
  | none => heap
termination_by heap.size - position
decreasing_by
  have := earliestChild_bounds before ‹_ = some child›
  simp only [Array.size_swapIfInBounds]
  omega

/-- Orders a whole array, from the last parent to the root. -/
def heapify (heap : Array β) : Array β :=
  (List.range (heap.size / 2)).reverse.foldl (siftDown before) heap

/-- Adds an entry at the end and moves it up. -/
def push (heap : Array β) (x : β) : Array β := siftUp before (heap.push x) heap.size

/-- Takes the root out: the last entry takes its place and moves down. -/
def dropRoot (heap : Array β) : Array β :=
  siftDown before ((heap.swapIfInBounds 0 (heap.size - 1)).pop) 0

end BranchBound.Heap
