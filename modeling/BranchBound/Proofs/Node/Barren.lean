import BranchBound.Proofs.Brancher.Charges

/-! # Solvers that find no point

Solvers may bound a node or know that it is infeasible without ever finding a point. Processing a
node then comes to one of two things, unless the node is empty or dominated: it is infeasible, or it
has to be branched.

* **`Solvers.barren tighten bound`** — solvers that tighten a node once, bound it, and find no
  point.
* **`returns_barren_open`**, **`returns_barren_infeasible`** — what they bring on a node. -/

namespace BranchBound

variable {α : Type} [Scalar α]

/-- Solvers that tighten a node, and then bound it or know that it is infeasible. -/
def Solvers.barren (tighten : Node α → Node α) (bound : Node α → Option α) : Solvers Unit α where
  preprocess n _ := pure (false, tighten n)
  lower n _ := pure ((bound n).elim .ofInfeasible (.ofBound · []))
  upper _ _ _ := pure .notFound

variable {tighten : Node α → Node α} {bound : Node α → Option α} {n : Node α} {cutoff : Cutoff α}
  {r : Report α} {y : α}

/-- They shrink boxes if that is how they tighten nodes. -/
theorem shrunk_barren (h : ∀ n, (tighten n).Shrunk n) :
    (Solvers.barren tighten bound).Tighten Node.Shrunk where
  preprocess hreturns := by
    obtain ⟨-, rfl⟩ := Prod.mk.inj (Call.returns_pure hreturns)
    exact h _
  postprocess hreturns := by
    obtain ⟨-, rfl⟩ := Prod.mk.inj (Call.returns_pure hreturns)
    exact ⟨rfl, rfl, rfl, .refl _⟩

/-- The second tightening leaves a node as it is. -/
theorem finishNode_barren (answer : LowerAnswer α) (hfull : r.node.box.isEmpty = false) :
    finishNode (.barren tighten bound) r answer cutoff = pure (r.advance .postprocessed) := by
  show (if r.node.box.isEmpty then pure (r.fathom .tighteningInfeasible)
    else pure (r.advance .postprocessed) : Call Unit α (Report α)) = _
  rw [hfull]
  rfl

/-- A report on a node in which no point was found. -/
def Report.searched (r : Report α) : Report α :=
  ({ r with upperCalls := r.upperCalls + 1, candidate := none } : Report α).advance .upperBounded

/-- The search for a point finds none. -/
theorem searchNode_barren (answer : LowerAnswer α) (hfull : r.node.box.isEmpty = false)
    (hanswer : answer.converged = false) (hcutoff : cutoff.dominates r.node.score = false) :
    searchNode (.barren tighten bound) r answer cutoff
      = pure (r.searched.advance .postprocessed) := by
  rw [← finishNode_barren
    (r := r.searched) answer hfull]
  show (if answer.converged || false then pure (r.searched.fathom .converged)
    else if cutoff.dominates r.node.score then pure (r.searched.fathom .valueDominated)
    else finishNode (.barren tighten bound) r.searched answer cutoff : Call Unit α (Report α)) = _
  rw [hanswer, hcutoff]
  rfl

/-- A report on a node that was bounded. -/
def Report.bounded (r : Report α) (y : α) : Report α :=
  (({ r with lowerCalls := r.lowerCalls + 1 } : Report α).withLower (.ofBound y [])).advance
    .lowerBounded

/-- A node that they bound comes through. -/
theorem boundNode_barren_open (hfull : r.node.box.isEmpty = false) (hbound : bound r.node = some y)
    (hy : Scalar.isNaN y = false)
    (hcutoff : cutoff.dominates (Scalar.greatest r.node.score y) = false) :
    boundNode (.barren tighten bound) r cutoff
      = pure ((r.bounded y).searched.advance .postprocessed) := by
  rw [← searchNode_barren (r := r.bounded y) (.ofBound y []) hfull rfl hcutoff]
  have hlower : (Solvers.barren tighten bound).lower r.node cutoff.incumbent
      = pure (.ofBound y []) := by
    simp only [Solvers.barren, hbound, Option.elim]
  unfold boundNode
  rw [hlower]
  -- both tests on the bound fail, so the rest of the node is searched
  show (if Scalar.isNaN y then throw (.error (.solverFailed (.undefinedBound r.node.id)))
    else if !false && cutoff.dominates (Scalar.greatest r.node.score y)
      then pure ((r.bounded y).fathom .valueDominated)
    else searchNode (.barren tighten bound) (r.bounded y) (.ofBound y []) cutoff :
      Call Unit α (Report α)) = _
  rw [hy, hcutoff]
  rfl

/-- A node that they know to be infeasible is fathomed. -/
theorem boundNode_barren_infeasible (hbound : bound r.node = none) :
    boundNode (.barren tighten bound) r cutoff
      = pure (({ r with lowerCalls := r.lowerCalls + 1, lowerBound := Scalar.infinity } :
        Report α).fathom .infeasible) := by
  have hlower : (Solvers.barren tighten bound).lower r.node cutoff.incumbent
      = pure .ofInfeasible := by
    simp only [Solvers.barren, hbound, Option.elim]
  unfold boundNode
  rw [hlower]
  rfl

/-- Processing a node that is not empty once it was tightened is bounding it. -/
theorem returns_barren (hfull : (tighten n).box.isEmpty = false)
    (hbound : boundNode (.barren tighten bound)
      ((Report.start (tighten n)).advance .preprocessed) cutoff = pure r) :
    (processNode (.barren tighten bound) n cutoff).Returns () { r with busy := .zero } () := by
  have htighten : tightenNode (.barren tighten bound) n cutoff = pure r := by
    rw [← hbound]
    show (if false || (tighten n).box.isEmpty
      then pure ((Report.start (tighten n)).fathom .tighteningInfeasible)
      else boundNode (.barren tighten bound)
        ((Report.start (tighten n)).advance .preprocessed) cutoff : Call Unit α (Report α)) = _
    rw [hfull]
    rfl
  unfold processNode
  rw [htighten]
  rfl

/-- A node that they bound has to be branched unless it is empty or dominated. -/
theorem returns_barren_open (tighten : Node α → Node α) (bound : Node α → Option α)
    (hfull : (tighten n).box.isEmpty = false)
    (hbound : bound (tighten n) = some y) (hy : Scalar.isNaN y = false)
    (hcutoff : cutoff.dominates (Scalar.greatest (tighten n).score y) = false) :
    ∃ r : Report α, (processNode (.barren tighten bound) n cutoff).Returns () r ()
      ∧ r.stage = .postprocessed
      ∧ r.node = { tighten n with score := Scalar.greatest (tighten n).score y }
      ∧ r.point = [] ∧ r.lowerBound = y ∧ r.candidate = none :=
  ⟨_, returns_barren hfull (boundNode_barren_open hfull hbound hy hcutoff), rfl, rfl, rfl, rfl, rfl⟩

/-- A node that they know to be infeasible is fathomed unless it is empty. -/
theorem returns_barren_infeasible (tighten : Node α → Node α) (bound : Node α → Option α)
    (hfull : (tighten n).box.isEmpty = false)
    (hbound : bound (tighten n) = none) :
    ∃ r : Report α, (processNode (.barren tighten bound) n cutoff).Returns () r ()
      ∧ r.stage = .fathomed .infeasible ∧ r.node = { tighten n with score := Scalar.infinity }
      ∧ r.candidate = none :=
  ⟨_, returns_barren hfull (boundNode_barren_infeasible hbound), rfl, rfl, rfl⟩

end BranchBound
