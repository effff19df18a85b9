import BranchBound.Brancher.Choice

/-! # Learning from splits

When a node that came out of a split is confirmed, the improvement of its bound since it was handed
out becomes a sample for the variable and the side of the split: the improvement per unit of
movement, measured against the distance that was left to the threshold. -/

namespace BranchBound.Brancher

variable {α : Type} [Scalar α]

/-- How far the variable of a split moved on the side the node is on. -/
def realizedMove (v : Variable α) (side : Side) (h : History α) : α :=
  let (below, above) := moves v.kind h.relaxed h.lower h.upper
  match side with
  | .down => below
  | .up => above
  | .unsplit => 0

/-- The sample for an improvement of the bound from `handedOut` to `processed` after a movement of
`move`, under a threshold; `none` if the variable hardly moved or a bound is not finite. -/
def sample? (threshold move handedOut processed : α) : Option α :=
  let realized := Scalar.least processed threshold
  if move ≤ Scalar.ofDecimal (.tenths 1 12) ∨ !Scalar.isFinite handedOut
      ∨ !Scalar.isFinite realized
  then none
  else
    let improvement := Scalar.greatest (realized - handedOut) 0
    let left := threshold - handedOut
    let scale := if Scalar.isFinite left ∧ 0 < left then left else 1
    some (improvement / move / scale)

/-- The table of pseudocosts after a node of this history was processed with this score. -/
def learn (b : Brancher α) (v : Variable α) (i : Nat) (side : Side) (entry : HandedOut α)
    (processed : α) : Pseudocosts α :=
  let move := realizedMove v side entry.history
  match sample? b.frontier.threshold move entry.score processed with
  | some sample => (b.pseudocosts.record? i side sample).getD b.pseudocosts
  | none => b.pseudocosts

/-- Confirms a node that is out, given as it was processed, and learns from it. The node is no
longer waited for even if its history names a variable that does not exist. -/
def confirm (b : Brancher α) (id : Nat) (processed : Node α) :
    Except (Error α) Unit × Brancher α :=
  match b.waiting.lookup id with
  | none => (.error (.unknownNode id), b)
  | some entry =>
      let b := { b with waiting := b.waiting.erase id }
      match entry.history.split? with
      | none => (.ok (), b)
      | some (i, side) =>
          match b.vars[i]? with
          | none => (.error (.invalidProblem (.unknownVariable id i b.vars.length)), b)
          | some v => (.ok (), { b with pseudocosts := b.learn v i side entry processed.score })

end BranchBound.Brancher
