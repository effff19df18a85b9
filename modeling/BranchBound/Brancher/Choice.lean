import BranchBound.Brancher.Basic

/-! # The choice of the dimension to split

Every dimension that is wide enough to be split gets a score by the rule in force, and the highest
score wins. Under a rule by diameter, scores that differ only by rounding count as equal, and then
the dimension wins whose relaxed value is farther from its bounds; under pseudocosts the first of
several highest scores wins.

* **`dimensionScore? b box point i v`** — the score of dimension `i` under the rule of `b`.
* **`supersedes`** — when a dimension takes the place of the best one before it.
* **`choose b box point`** — the dimension to split, if there is one. -/

namespace BranchBound.Brancher

variable {α : Type} [Scalar α]

/-- Whether two scores differ by rounding at most. -/
def nearlyEqual (x y : α) : Bool :=
  Scalar.abs (x - y)
    ≤ Scalar.ofDecimal (.tenths 1 12) * Scalar.greatest (Scalar.abs x) (Scalar.abs y)

/-- The value of a variable in the relaxation, brought within the box; the midpoint if the
relaxation gives no finite value. -/
def relaxedValue (box : Box α) (i : Nat) (point : List α) : α :=
  match point[i]? with
  | some x =>
      if Scalar.isFinite x then Scalar.clamp x (box.lowerAt i) (box.upperAt i) else box.midpoint i
  | none => box.midpoint i

/-- How far a variable moves on the lower and on the upper side of a split, seen from where it
stands now: for a discrete variable its distance to the whole numbers around its relaxed value,
otherwise half the width. -/
def moves (kind : VariableKind) (relaxed lower upper : α) : α × α :=
  if kind.isDiscrete then
    let fraction := relaxed - Scalar.floor relaxed
    (fraction, 1 - fraction)
  else
    let middle := Scalar.middle lower upper
    (upper - middle, middle - lower)

/-- The score of splitting a dimension; `none` if the dimension is too narrow to be split. -/
def dimensionScore? (b : Brancher α) (box : Box α) (point : List α) (i : Nat) (v : Variable α) :
    Option α :=
  let width := box.width i
  if width ≤ 0 then none
  else
    match b.rule with
    | .pseudocost =>
        let (below, above) :=
          moves v.kind (relaxedValue box i point) (box.lowerAt i) (box.upperAt i)
        let down := b.pseudocosts.downEstimate i * below
        let up := b.pseudocosts.upEstimate i * above
        some (v.priority * productScore up down)
    | .absoluteDiameter => some (v.priority * width)
    | .relativeDiameter =>
        if v.width ≤ 0 then none else some (v.priority * width / v.width)

/-- The distance of the relaxed value to the nearer bound, relative to the width. -/
def boundaryDistance (box : Box α) (i : Nat) (point : List α) : α :=
  let width := box.width i
  if width ≤ 0 then 0
  else
    let x := relaxedValue box i point
    Scalar.least (x - box.lowerAt i) (box.upperAt i - x) / width

/-- Whether a dimension with its score takes the place of the best one found before it. -/
def supersedes (rule : BranchingRule) (box : Box α) (point : List α) (best found : Nat × α) :
    Bool :=
  if rule ≠ .pseudocost ∧ nearlyEqual found.2 best.2 then
    boundaryDistance box best.1 point < boundaryDistance box found.1 point
  else best.2 < found.2

/-- The dimensions that can be split, with their scores, in ascending order. -/
def candidates (b : Brancher α) (box : Box α) (point : List α) : List (Nat × α) :=
  b.vars.zipIdx.filterMap fun (v, i) => (b.dimensionScore? box point i v).map (i, ·)

/-- The best of the dimensions found so far and one more. -/
def better (rule : BranchingRule) (box : Box α) (point : List α) (best : Option (Nat × α))
    (found : Nat × α) : Option (Nat × α) :=
  match best with
  | none => some found
  | some b => if supersedes rule box point b found then some found else some b

/-- The dimension to split; `none` if all are too narrow. -/
def choose (b : Brancher α) (box : Box α) (point : List α) : Option Nat :=
  ((b.candidates box point).foldl (better b.rule box point) none).map (·.1)

/-- Whether every width of a box, relative to the width of the domain, is at most `tolerance`. -/
def isBelowTolerance (b : Brancher α) (box : Box α) (tolerance : α) : Bool :=
  b.vars.zipIdx.all fun (v, i) =>
    let relative := if 0 < v.width then box.width i / v.width else 0
    relative ≤ tolerance

end BranchBound.Brancher
