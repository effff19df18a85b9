import BranchBound.Proofs.Node.Processing

/-! # The point of a report

A report brings the point that was found in its node, and only if it is a point at all: an answer
without coordinates is no candidate, whatever value it comes with.

* **`Report.Pointed`** — the point that a report brings is not empty.
* **`processNode_pointed`** — it never is; there is one such theorem for each part of the processing
  that looks for a point or comes before. -/

namespace BranchBound

variable {σ α : Type} [Scalar α] {solvers : Solvers σ α} {n : Node α} {r s : Report α}
  {answer : LowerAnswer α} {cutoff : Cutoff α} {memory after : σ}

omit [Scalar α] in
/-- A report brings no point, or one that is not empty. -/
def Report.Pointed (r : Report α) : Prop := ∀ c ∈ r.candidate, c.point ≠ []

/-- A candidate has a point. -/
theorem Report.point_ne_nil_of_candidate? {found : UpperAnswer α} {c : Candidate α}
    (h : candidate? cutoff found = some c) : c.point ≠ [] := by
  unfold candidate? at h
  split at h
  · next hcandidate =>
    cases h
    rw [Bool.and_eq_true, Bool.and_eq_true, Bool.not_eq_true', List.isEmpty_eq_false_iff]
      at hcandidate
    exact hcandidate.1.2
  · cases h

/-- The last part of processing looks for no point. -/
theorem finishNode_candidate (h : (finishNode solvers r answer cutoff).Returns memory s after) :
    s.candidate = r.candidate := by
  cases finishNode_exit h <;> rfl

/-- The middle part of processing looks for a point. -/
theorem searchNode_pointed (h : (searchNode solvers r answer cutoff).Returns memory s after) :
    s.Pointed := by
  -- what is found now is what the report brings, wherever the processing ends
  have hpointed : ∀ {t : Report α} {found : UpperAnswer α},
      t.candidate = Report.candidate? cutoff found → t.Pointed :=
    fun ht c hc => Report.point_ne_nil_of_candidate? (ht ▸ hc)
  cases searchNode_exit h with
  | solved => exact hpointed rfl
  | dominated => exact hpointed rfl
  | passed _ _ _ hrest => exact hpointed (finishNode_candidate hrest)

/-- The second part of processing ends before a point is looked for, or goes on to look for one. -/
theorem boundNode_pointed (h : (boundNode solvers r cutoff).Returns memory s after)
    (hr : r.Pointed) : s.Pointed := by
  cases boundNode_exit h with
  | infeasible => exact hr
  | dominated => exact hr
  | passed _ _ _ _ hrest => exact searchNode_pointed hrest

/-- The point that the report on a node brings is not empty. -/
theorem processNode_pointed (h : (processNode solvers n cutoff).Returns memory s after) :
    s.Pointed := by
  obtain ⟨r, busy, htighten, rfl⟩ := processNode_exit h
  cases tightenNode_exit htighten with
  | emptied => exact nofun
  | passed _ _ hrest =>
    have hpointed := boundNode_pointed hrest nofun
    exact hpointed

end BranchBound
