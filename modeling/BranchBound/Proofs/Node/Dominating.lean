import BranchBound.Proofs.Node.Processing

/-! # Dominated nodes

Processing fathoms a node as dominated in two places, and in both it compares the score that it
reports with the cutoff that is in force there: the one it was given, tightened by the point that
was found in the node.

* **`processNode_dominated`** — the score of a node that is reported as dominated reaches that
  cutoff; there is one such theorem for each part of the processing. -/

namespace BranchBound

variable {σ α : Type} [Scalar α] {solvers : Solvers σ α} {n : Node α} {r s : Report α}
  {answer : LowerAnswer α} {cutoff : Cutoff α} {memory after : σ}

/-- The score of a report reaches the cutoff, tightened by the point that the report brings. -/
def Report.ReachesCutoff (r : Report α) (cutoff : Cutoff α) : Prop :=
  (Report.tightened cutoff r.candidate).threshold ≤ r.node.score

/-- The last part of processing finds no node dominated. -/
theorem finishNode_not_dominated
    (h : (finishNode solvers r answer cutoff).Returns memory s after) :
    s.stage ≠ .fathomed .valueDominated := by
  cases finishNode_exit h <;> exact nofun

/-- The middle part of processing compares the score with the cutoff after its search. -/
theorem searchNode_dominated (h : (searchNode solvers r answer cutoff).Returns memory s after)
    (hstage : s.stage = .fathomed .valueDominated) : s.ReachesCutoff cutoff := by
  cases searchNode_exit h with
  | solved => cases hstage
  | dominated _ _ hdominated =>
    unfold Report.ReachesCutoff
    exact of_decide_eq_true hdominated
  | passed _ _ _ hrest => exact absurd hstage (finishNode_not_dominated hrest)

/-- The second part of processing compares the score with the cutoff it was given, as long as no
point was found. -/
theorem boundNode_dominated (h : (boundNode solvers r cutoff).Returns memory s after)
    (hcandidate : r.candidate = none) (hstage : s.stage = .fathomed .valueDominated) :
    s.ReachesCutoff cutoff := by
  cases boundNode_exit h with
  | infeasible => cases hstage
  | dominated _ _ _ _ hdominated =>
    show (Report.tightened cutoff r.candidate).threshold ≤ _
    rw [hcandidate]
    exact of_decide_eq_true hdominated
  | passed _ _ _ _ hrest => exact searchNode_dominated hrest hstage

/-- The score of a node that is reported as dominated reaches the cutoff. -/
theorem processNode_dominated (h : (processNode solvers n cutoff).Returns memory s after)
    (hstage : s.stage = .fathomed .valueDominated) : s.ReachesCutoff cutoff := by
  obtain ⟨r, busy, htighten, rfl⟩ := processNode_exit h
  cases tightenNode_exit htighten with
  | emptied => cases hstage
  | passed _ _ hrest =>
    -- the time on the report does not matter
    have hreaches := boundNode_dominated hrest rfl hstage
    exact hreaches

end BranchBound
