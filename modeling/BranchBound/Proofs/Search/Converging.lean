import BranchBound.Proofs.Search.Sparing
import BranchBound.Proofs.Search.Unresolved

/-! # Nodes whose bound is attained

If the call for a lower bound says that the bound is attained, the node is fathomed as solved once a
feasible point was looked for in it, whatever came of that. The search then keeps the point that was
found, but neither the bound nor where the relaxation attains it. So the bound is accounted for if
the point is as good, or if the search knew as much before; a node in which no point is found leaves
no trace.

* **`Solvers.Attains`** — the bound of a node is attained.
* **`processNode_attained`** — how processing ends then.
* **`Search.best_le_bound_iff`** — when the search accounts for the bound. -/

namespace BranchBound

variable {σ α : Type} [Scalar α] {solvers : Solvers σ α} {n tight : Node α} {r s : Report α}
  {answer : LowerAnswer α} {cutoff : Cutoff α} {memory left after : σ}

/-! ## Processing -/

/-- In the processing of a node the call for a lower bound, made after the first tightening, says
that the bound is attained. -/
structure Solvers.Attains (solvers : Solvers σ α) (n : Node α) (cutoff : Cutoff α) (memory : σ)
    (tight : Node α) (answer : LowerAnswer α) (left : σ) : Prop where
  /-- The tightening does not empty the box. -/
  nonempty : tight.box.isEmpty = false
  /-- The calls that are made. -/
  calls : ∃ mid, (solvers.preprocess n cutoff.incumbent).Returns memory (false, tight) mid
    ∧ (solvers.lower tight cutoff.incumbent).Returns mid answer left
  /-- The node is not infeasible. -/
  feasible : answer.infeasible = false
  /-- The bound is attained. -/
  converged : answer.converged = true

/-- A report that ends the processing of a node whose bound is attained: it has the bound, and the
point that was found, if it is better than the incumbent. -/
structure Report.Attained (r : Report α) (cutoff : Cutoff α) (answer : LowerAnswer α)
    (found : UpperAnswer α) : Prop where
  /-- The node is fathomed as solved. -/
  stage : r.stage = .fathomed .converged
  /-- The bound is reported. -/
  lowerBound : r.lowerBound = answer.bound
  /-- The point is the one that was found. -/
  candidate : r.candidate = Report.candidate? cutoff found

/-- The middle part of processing ends such a node once a point was looked for. -/
theorem searchNode_attained (hconverged : answer.converged = true)
    (h : (searchNode solvers r answer cutoff).Returns memory s after) :
    ∃ found, (solvers.upper r.node r.seed cutoff.incumbent).Returns memory found after
      ∧ s = (r.withFound cutoff found).fathom .converged := by
  cases searchNode_exit h with
  | solved hcall => exact ⟨_, hcall, rfl⟩
  | dominated _ hopen => cases hconverged.symm.trans hopen.1
  | passed _ hopen => cases hconverged.symm.trans hopen.1

/-- The second part of processing passes a defined bound that is attained on to the middle part. -/
theorem boundNode_attained {mid : σ}
    (hlower : (solvers.lower r.node cutoff.incumbent).Returns memory answer mid)
    (hfeasible : answer.infeasible = false) (hconverged : answer.converged = true)
    (h : (boundNode solvers r cutoff).Returns memory s after) :
    (searchNode solvers (r.withBound answer) answer cutoff).Returns mid s after := by
  cases boundNode_exit h with
  | infeasible hcall hinfeasible =>
    cases hlower.symm.trans hcall
    cases hfeasible.symm.trans hinfeasible
  | dominated hcall _ _ hopen =>
    cases hlower.symm.trans hcall
    cases hconverged.symm.trans hopen
  | passed hcall _ _ _ hrest =>
    cases hlower.symm.trans hcall
    exact hrest

/-- The processing of a node whose bound is attained ends with the answer to the search for a point:
nothing is made of the bound. -/
theorem processNode_attained (ha : solvers.Attains n cutoff memory tight answer left)
    (h : (processNode solvers n cutoff).Returns memory r after) :
    ∃ seed found, (solvers.upper r.node seed cutoff.incumbent).Returns left found after
      ∧ r.Attained cutoff answer found := by
  obtain ⟨first, hpreprocess, hlower⟩ := ha.calls
  obtain ⟨t, busy, htighten, rfl⟩ := processNode_exit h
  cases tightenNode_exit htighten with
  | emptied hcall hempty =>
    cases hpreprocess.symm.trans hcall
    rcases hempty with hruled | hempty
    · cases hruled
    · cases ha.nonempty.symm.trans hempty
  | passed hcall _ hrest =>
    cases hpreprocess.symm.trans hcall
    obtain ⟨found, hfound, rfl⟩ := searchNode_attained ha.converged
      (boundNode_attained hlower ha.feasible ha.converged hrest)
    exact ⟨_, found, hfound, rfl, rfl, rfl⟩

/-! ## Taking in the report -/

namespace Search

variable {s t : Search α} {stage : Stage}

/-- The report on a solved node ends it as solved. -/
theorem stage_of_converged (hstage : r.stage = .fathomed .converged)
    (happly : s.apply r = (.ok stage, t)) : stage = .fathomed .converged := by
  obtain ⟨-, hsettle⟩ := apply_ok happly
  rcases settlement hsettle with ⟨h⟩ | ⟨h⟩ | ⟨h⟩
  · rw [h] at hstage
    exact hstage
  all_goals
    rw [h] at hstage
    cases hstage

variable [Scalar.Congruent α]

/-- Once the report on a node whose bound is attained came in, the search accounts for this bound
just in case it did so before or the point that was found is as good. -/
theorem best_le_bound_iff (hs : Reachable s)
    (ha : solvers.Attains n s.cutoff memory tight answer left)
    (hprocess : (processNode solvers n s.cutoff).Returns memory r after)
    (happly : s.apply r = (.ok stage, t)) (outLowest : Option α) :
    Scalar.least (t.provenBound outLowest) t.incumbent.value ≤ answer.bound
      ↔ Scalar.least (s.provenBound outLowest) s.incumbent.value ≤ answer.bound
        ∨ ∃ c ∈ r.candidate, c.value ≤ answer.bound := by
  obtain ⟨seed, found, -, hattained⟩ := processNode_attained ha hprocess
  rw [best_apply_le_iff hs.consistent hs.abreast.defined happly,
    stage_of_converged hattained.stage happly]
  -- a solved node leaves no score
  simp [Report.left]

/-- So it does if the search for a point finds one that attains the bound, as long as there is no
such point yet. -/
theorem best_le_bound (hs : Reachable s)
    (ha : solvers.Attains n s.cutoff memory tight answer left)
    (hprocess : (processNode solvers n s.cutoff).Returns memory r after)
    (happly : s.apply r = (.ok stage, t))
    (hfinds : ∀ {seed found},
      (solvers.upper r.node seed s.incumbent.value).Returns left found after →
      s.incumbent.value ≤ answer.bound ∨ found.Finds answer.bound) (outLowest : Option α) :
    Scalar.least (t.provenBound outLowest) t.incumbent.value ≤ answer.bound := by
  obtain ⟨seed, found, hfound, hattained⟩ := processNode_attained ha hprocess
  rw [best_le_bound_iff hs ha hprocess happly]
  -- a point that attains a bound below the incumbent is reported, and becomes the incumbent
  by_cases hlt : answer.bound < s.incumbent.value
  · rcases hfinds hfound with hknown | hfinds
    · exact .inl (Scalar.least_le_of_right hknown)
    · have hbetter : answer.bound < s.cutoff.incumbent := hlt
      obtain ⟨c, hc, hle⟩ := Report.candidate?_of_finds hfinds hbetter
      exact .inr ⟨c, hattained.candidate.trans hc, hle⟩
  · refine .inl (Scalar.least_le_of_right ?_)
    rcases hfinds hfound with hknown | hfinds
    · exact hknown
    · exact Scalar.le_of_not_lt (Scalar.Ordered.isNaN_right_of_le hfinds.le) hs.abreast.defined hlt

end Search

/-- Solvers that solve the relaxation of every node to its bound of minus five and find no point. -/
def blindSolvers : Solvers Unit (Extended ℚ) where
  lower _ _ := pure (LowerAnswer.ofBound (-.point 5) [1]).markConverged
  upper _ _ _ := pure .notFound

/-- The point has to be found: nothing is left of the bound of the root here, and the search ends as
if the problem was infeasible. -/
theorem solve_blindSolvers :
    ∃ solution ∈ (Serial.solve blindSolvers Async.sampleVars Settings.standard ()).1.toOption,
      solution.status = .infeasible ∧ solution.lowerBound = Scalar.infinity ∧ solution.gap = 0 := by
  decide +kernel

end BranchBound
