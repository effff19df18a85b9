import BranchBound.Brancher.Choice

/-! # Splitting nodes

A node is split in the middle of one dimension. The bounds of discrete variables are rounded to
whole numbers first, with some slack, and their parts are separated by one. `Brancher.branch` splits
a node in the dimension that the rule in force chooses and queues the two children;
`Brancher.allChildren` splits it in every dimension for a comparison and queues nothing. -/

namespace BranchBound.Brancher

variable {α : Type} [Scalar α]

/-- The box with the bounds of discrete variables moved to whole numbers. A bound that misses a
whole number by a hair counts as that number. -/
def roundDiscrete (vars : List (Variable α)) (box : Box α) : Box α :=
  let slack : α := Scalar.ofDecimal (.tenths 1 9)
  let isDiscrete (i : Nat) : Bool := vars[i]?.any (·.kind.isDiscrete)
  { lower := box.lower.mapIdx fun i x => if isDiscrete i then Scalar.ceil (x - slack) else x
    upper := box.upper.mapIdx fun i x => if isDiscrete i then Scalar.floor (x + slack) else x }

/-- The lower and the upper part of a box, split in the middle of a dimension. -/
def parts (kind : VariableKind) (box : Box α) (i : Nat) : Box α × Box α :=
  let middle := box.midpoint i
  if kind.isDiscrete then
    (box.setUpper i (Scalar.floor middle), box.setLower i (Scalar.floor middle + 1))
  else (box.setUpper i middle, box.setLower i middle)

/-- A child of a node. -/
def child (parent : Node α) (box : Box α) (id : Nat) : Node α where
  score := parent.score
  box := box
  dataset := parent.dataset
  id := id
  depth := (parent.depth + 1) % depthRange
  augmented := false

/-- The lower and the upper child of a node split in a dimension; they get the next two ids. -/
def split (b : Brancher α) (parent : Node α) (i : Nat) (kind : VariableKind) (point : List α) :
    (OpenNode α × OpenNode α) × Brancher α :=
  let relaxed := relaxedValue parent.box i point
  let history side : History α :=
    ⟨some i, side, relaxed, parent.box.lowerAt i, parent.box.upperAt i⟩
  let (below, above) := parts kind parent.box i
  let (downId, frontier) := b.frontier.takeId
  let (upId, frontier) := frontier.takeId
  ((b.toOpen (child parent below downId) (history .down),
    b.toOpen (child parent above upId) (history .up)),
    { b with frontier })

/-- What became of a node that was to be branched. -/
inductive Branching
  /-- It is a single point and was queued once more. -/
  | requeued
  /-- It holds no point or is below the size tolerance, and was dropped. -/
  | dropped
  /-- It was split in a dimension into two children of these ids. -/
  | split (dimension down up : Nat)
  deriving DecidableEq, Repr

/-- Splits a node and queues its children, which the frontier may refuse. The children inherit the
score of the node or the objective value of its relaxation, whichever is greater. A node that is a
single point is queued once more, and one that is empty or within the size tolerance is dropped. -/
def branch (b : Brancher α) (parent : Node α) (point : List α) (objective tolerance : α) :
    Except (Error α) Branching × Brancher α :=
  match b.dimensionFault? parent with
  | some e => (.error e, b)
  | none =>
      let box := roundDiscrete b.vars parent.box
      let parent := { parent with box }
      if box.isEmpty then (.ok .dropped, b)
      else if box.isPoint then (.ok .requeued, (b.offer (b.toOpen parent .unsplit)).2)
      else if b.isBelowTolerance box tolerance then (.ok .dropped, b)
      else
        match (b.choose box point).bind fun i => b.vars[i]?.map (i, ·) with
        | none => (.error (.invalidProblem (.nothingToSplit parent.id)), b)
        | some (i, v) =>
            let score :=
              if Scalar.isNaN objective then parent.score
              else Scalar.greatest parent.score objective
            let ((down, up), b) := b.split { parent with score } i v.kind point
            let b := (b.offer down).2
            let b := (b.offer up).2
            (.ok (.split i down.id up.id), b)

/-- Hands out a child without queuing it first. -/
def handOut (b : Brancher α) (n : OpenNode α) : Brancher α :=
  { b with waiting := b.waiting.insert n.id ⟨n.score, n.history⟩ }

/-- Adds the two children of a node in one dimension to those found before, and hands them out. -/
def addChildren (parent : Node α) (point : List α) (found : List (Node α) × Brancher α)
    (dimension : Variable α × Nat) : List (Node α) × Brancher α :=
  let (v, i) := dimension
  if parent.box.width i ≤ 0 then found
  else
    let (nodes, b) := found
    let ((down, up), b) := b.split parent i v.kind point
    (nodes ++ [down.node, up.node], (b.handOut down).handOut up)

/-- The children of a node in every dimension that can be split, the lower before the upper one.
They count as handed out and have to be confirmed or cancelled. -/
def allChildren (b : Brancher α) (parent : Node α) (point : List α) :
    Except (Error α) (List (Node α)) × Brancher α :=
  match b.dimensionFault? parent with
  | some e => (.error e, b)
  | none =>
      let box := roundDiscrete b.vars parent.box
      if box.isEmpty then (.ok [], b)
      else
        let (nodes, b) :=
          b.vars.zipIdx.foldl (addChildren { parent with box } point) ([], b)
        (.ok nodes, b)

end BranchBound.Brancher
