import BranchBound.Node.Basic

/-! # Pseudocosts

For every variable and each side of a split, the average improvement of the bound that splits on it
have brought so far. A side without samples borrows the average over the variables that have
some. -/

namespace BranchBound

/-- A running average. -/
structure Average (α : Type) where
  /-- The average of the samples; zero without samples. -/
  mean : α
  /-- The number of samples. -/
  trials : Nat
  deriving Repr

namespace Average

variable {α : Type} [Scalar α]

/-- No samples. -/
def empty : Average α := ⟨0, 0⟩

/-- One more sample. -/
def push (a : Average α) (sample : α) : Average α :=
  let k := Scalar.ofNat a.trials
  ⟨(k * a.mean + sample) / (k + 1), a.trials + 1⟩

/-- The mean of the means of those averages that have samples; zero if none has. -/
def meanOfTried (averages : List (Average α)) : α :=
  let tried := averages.filter (0 < ·.trials)
  if tried.isEmpty then 0
  else tried.foldl (fun sum a => sum + a.mean) 0 / Scalar.ofNat tried.length

/-- The average of one variable among all, or the borrowed one if it has no samples. -/
def estimate (averages : List (Average α)) (i : Nat) : α :=
  let a := averages.getD i empty
  if 0 < a.trials then a.mean else meanOfTried averages

end Average

/-- The averages of all variables. -/
structure Pseudocosts (α : Type) where
  /-- Improvements per unit on the upper side. -/
  up : List (Average α)
  /-- Improvements per unit on the lower side. -/
  down : List (Average α)
  deriving Repr

namespace Pseudocosts

variable {α : Type} [Scalar α]

/-- The table of `n` variables without samples. -/
def new (n : Nat) : Pseudocosts α := ⟨List.replicate n .empty, List.replicate n .empty⟩

/-- The table with one more sample on one side of a variable; a node that no split made leaves no
sample. -/
def record? (p : Pseudocosts α) (i : Nat) (side : Side) (sample : α) : Option (Pseudocosts α) :=
  match side with
  | .up => some { p with up := p.up.modify i (·.push sample) }
  | .down => some { p with down := p.down.modify i (·.push sample) }
  | .unsplit => none

/-- The improvement to expect on the upper side of a variable. -/
def upEstimate (p : Pseudocosts α) (i : Nat) : α := Average.estimate p.up i

/-- The improvement to expect on the lower side of a variable. -/
def downEstimate (p : Pseudocosts α) (i : Nat) : α := Average.estimate p.down i

end Pseudocosts

/-- The worth of a split that improves the bound by `up` on one side and by `down` on the other: a
product, so that both sides count, with an offset that keeps an untried side from being worth
nothing. -/
def productScore {α : Type} [Scalar α] (up down : α) : α :=
  let offset : α := Scalar.ofDecimal (.tenths 1 6)
  (Scalar.greatest up down + offset) * (Scalar.least up down + offset)

end BranchBound
