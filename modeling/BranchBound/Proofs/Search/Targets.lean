import BranchBound.Proofs.Node.Finding
import BranchBound.Proofs.Search.Exhaustion
import BranchBound.Proofs.Search.Unresolved
import BranchBound.Proofs.Search.Verdicts

/-! # Targets

A search may stop before its tree is exhausted, because the incumbent or the open bound has reached
a target. The first verdict comes with a point that is as good as the target, unless the target is
infinite: the value of no incumbent is infinity too, and such a target is reached before anything is
known. The second verdict only looks at the open nodes, while the bound that is answered also
accounts for nodes that are gone. Of these only the dropped ones can be below the target.

* **`Incumbent.Found`** — the incumbent is the best of some points, none of which is empty.
* **`Serial.value_le_target`** — what a search answers that ends with its incumbent at the target.
* **`Serial.target_le_bound_or_dropped`** — what a search answers that ends with its open bound at
  the target. -/

namespace BranchBound

variable {σ α : Type} [Scalar α]

/-! ## Incumbents with a point -/

namespace Incumbent

variable {i : Incumbent α}

/-- The incumbent is the best of some points, none of which is empty. -/
def Found (i : Incumbent α) : Prop :=
  ∃ offered, i.IsBest offered ∧ ∀ c ∈ offered, c.point ≠ []

variable [Scalar.Ordered α]

/-- No incumbent is the best of no points. -/
theorem found_none : Found (.none : Incumbent α) :=
  ⟨[], isBest_none, fun _ hc => absurd hc List.not_mem_nil⟩

/-- Offering points that are not empty. -/
theorem Found.offerAll (h : i.Found) {more : List (Candidate α)}
    (hmore : ∀ c ∈ more, c.point ≠ []) : (i.offerAll more).Found := by
  obtain ⟨offered, hbest, hpoints⟩ := h
  refine ⟨offered ++ more, hbest.offerAll more, fun c hc => ?_⟩
  rcases List.mem_append.mp hc with hc | hc
  · exact hpoints c hc
  · exact hmore c hc

/-- An incumbent has a point just in case its value is below infinity. -/
theorem Found.point_ne_nil_iff (h : i.Found) :
    i.point.getD [] ≠ [] ↔ i.value < Scalar.infinity := by
  obtain ⟨offered, hbest, hpoints⟩ := h
  rcases hbest.attained with ⟨rfl, -⟩ | ⟨before, c, after, rfl, rfl, hlt, -⟩
  · have hnot : ¬ (Scalar.infinity : α) < Scalar.infinity := fun hlt =>
      Scalar.not_le_of_lt hlt (Scalar.Ordered.le_refl Scalar.Ordered.isNaN_infinity)
    exact ⟨fun hpoint => absurd rfl hpoint, fun hlt => absurd hlt hnot⟩
  · have hpoint : c.point ≠ [] :=
      hpoints c (List.mem_append_right _ List.mem_cons_self)
    exact ⟨fun _ => hlt, fun _ => hpoint⟩

end Incumbent

namespace Search

variable {s : Search α}

/-- An answer has a point just in case its value is below infinity. -/
theorem hasPoint_solution_iff [Scalar.Ordered α] (h : s.incumbent.Found) (status : Status)
    (termination : Termination) (error : Option String) :
    (s.solution status termination error).hasPoint = true
      ↔ (s.solution status termination error).value < Scalar.infinity := by
  rw [Solution.hasPoint, Bool.not_eq_true', List.isEmpty_eq_false_iff]
  exact h.point_ne_nil_iff

end Search

/-! ## Targets of the incumbent -/

/-- The operations of the serial search offer points that are not empty. -/
theorem Search.Grounded.point_ne_nil {s : Search α} {solvers : Solvers σ α} {op : Search.Op α}
    (h : s.Grounded solvers op) : ∀ c ∈ op.offers, c.point ≠ [] := by
  cases op with
  | record r =>
    obtain ⟨n, cutoff, memory, after, hreturns⟩ := h
    intro c hc
    exact processNode_pointed hreturns c (Option.mem_toList.mp hc)
  | offer | apply => exact h.elim
  | _ => exact fun c hc => absurd hc List.not_mem_nil

namespace Search

variable {vars : List (Variable α)} {settings : Settings α} {start : Search α}

/-- The root is open at the start of a search. -/
theorem size_new_ne_zero [Scalar.Congruent α] (hstart : new vars settings = .ok start) :
    start.brancher.frontier.size ≠ 0 := by
  have hagrees := Agrees.new hstart
  have hnone := (new_frame hstart).1
  obtain ⟨-, -, -, f, hf, -, -, hfrontier⟩ := new_ok hstart
  have hthreshold : start.cutoff.threshold = Scalar.infinity := by
    rw [Cutoff.threshold, cutoff, hnone, toleranceAdjusted]
    refine if_neg ?_
    rw [Incumbent.none, Scalar.Congruent.isFinite_infinity]
    exact Bool.false_ne_true
  generalize hroot : (⟨Node.root start.brancher.vars, 0, .unsplit⟩ : OpenNode α) = root
    at hfrontier
  have hscore : root.score = -Scalar.infinity := hroot ▸ rfl
  -- nothing is known yet that the root could be dominated by
  have hlive : f.dominates root.score = false := by
    rw [Frontier.dominates, decide_eq_false_iff_not, hscore,
      ← (f.sameLimits_insert root).adjustedThreshold, ← hfrontier]
    intro hle
    have hbelow := Scalar.Ordered.le_trans hagrees.same_threshold.2 hle
    rw [hthreshold] at hbelow
    exact Scalar.not_le_of_lt Scalar.Congruent.neg_infinity_lt hbelow
  rw [← hagrees.consistent.card_nodes, hfrontier, (hf.insert_of_not_dominates hlive).1,
    Multiset.card_cons]
  exact Nat.succ_ne_zero _

/-- A search whose target for the incumbent is infinite has reached it at its start, when nothing is
known. -/
theorem check_of_infinite_target [Scalar.Congruent α] (hstart : new vars settings = .ok start)
    (htarget : settings.targetUpper = some Scalar.infinity) (elapsed : Duration)
    (outLowest : Option α) :
    (start.atTime elapsed).check outLowest = some .targetUpperReached := by
  obtain ⟨hnone, -, hsettings⟩ := new_frame hstart
  have hopen : ¬ (start.brancher.frontier.size = 0 ∧ outLowest.isNone = true) :=
    fun hempty => size_new_ne_zero hstart hempty.1
  have hreached : start.settings.targetUpper.any (fun target => start.incumbent.value ≤ target)
      = true := by
    rw [hsettings, htarget, hnone]
    exact decide_eq_true (Scalar.Ordered.le_refl Scalar.Ordered.isNaN_infinity)
  exact (if_neg hopen).trans (if_pos hreached)

/-- It has no point to answer then. -/
theorem hasPoint_new (hstart : new vars settings = .ok start) (elapsed : Duration)
    (status : Status) (termination : Termination) (error : Option String) :
    ((start.atTime elapsed).solution status termination error).hasPoint = false := by
  show (!(start.incumbent.point.getD []).isEmpty) = false
  rw [(new_frame hstart).1]
  rfl

end Search

namespace Serial

variable {solvers : Solvers σ α} {run last : Run σ α} {vars : List (Variable α)}
  {settings : Settings α} {start : Search α} {memory left : σ} {solution : Solution α} {target : α}

/-- Rounds leave the best of the points that are found as the incumbent, and none is empty. -/
theorem found_rounds [Scalar.Ordered α] (hrounds : Rounds solvers run last)
    (hs : run.search.brancher.frontier.Consistent) (h : run.search.incumbent.Found) :
    last.search.incumbent.Found := by
  have hdef : Scalar.isNaN run.search.incumbent.value = false := by
    obtain ⟨offered, hbest, -⟩ := h
    exact hbest.defined
  refine grounded_rounds (I := fun s => s.incumbent.Found) (fun s op hfound hop => ?_) hrounds hs
    hdef h
  rw [Search.incumbent_perform]
  exact hfound.offerAll hop.point_ne_nil

/-- A search that ends because its incumbent reached its target answers a value that is at most the
target. It comes with a point just in case it is below infinity, so it does under a finite
target. -/
theorem value_le_target [Scalar.Ordered α]
    (hsolve : solve solvers vars settings memory = (.ok solution, left))
    (hstatus : solution.status = .targetUpperReached)
    (htarget : settings.targetUpper = some target) :
    solution.value ≤ target
      ∧ (solution.hasPoint = true ↔ solution.value < Scalar.infinity) := by
  cases hstart : Search.new vars settings with
  | error e =>
    rw [solve_eq, hstart] at hsolve
    cases hsolve
  | ok start =>
    obtain ⟨last, hrounds, hcheck, hsolution⟩ :=
      exists_rounds_of_solve hstart hsolve (by rw [hstatus]; decide)
    rw [hstatus] at hcheck
    obtain ⟨hnone, -, hsettings⟩ := Search.new_frame hstart
    -- whatever was offered in the rounds had coordinates
    have hfound : last.search.incumbent.Found := by
      refine found_rounds hrounds (Search.Reachable.new hstart).consistent ?_
      rw [hnone]
      exact Incumbent.found_none
    refine ⟨?_, ?_⟩
    · obtain ⟨reached, hreached, hle⟩ := Search.warrants_of_check hcheck
      have hkept : (now solvers last).settings = settings :=
        (settings_rounds hrounds).trans hsettings
      rw [hkept, htarget] at hreached
      cases hreached
      rw [hsolution]
      exact hle
    · rw [hsolution]
      exact Search.hasPoint_solution_iff (s := now solvers last) hfound _ _ _

/-- A search whose target for the incumbent is infinite ends at once, before a node is processed. It
says that its incumbent reached the target and answers no point. -/
theorem hasPoint_of_infinite_target [Scalar.Congruent α] (solvers : Solvers σ α) (memory : σ)
    (hstart : Search.new vars settings = .ok start)
    (htarget : settings.targetUpper = some Scalar.infinity) :
    ∃ solution, solve solvers vars settings memory = (.ok solution, memory)
      ∧ solution.status = .targetUpperReached ∧ solution.hasPoint = false
      ∧ solution.stats.processed = 0 := by
  have hcheck : (now solvers ⟨start, memory⟩).check none = some .targetUpperReached :=
    Search.check_of_infinite_target hstart htarget _ none
  refine ⟨(now solvers ⟨start, memory⟩).solution .targetUpperReached .complete none, ?_, rfl,
    Search.hasPoint_new hstart _ _ _ _, (Search.new_ok hstart).2.1⟩
  rw [solve_eq, hstart]
  dsimp only
  rw [outcome, search_eq, exec_round_over hcheck]

end Serial

/-! ## Targets of the open bound -/

namespace Search

variable {s : Search α} {limit : α} {Dropped : α → Prop}

/-- Every open node scores below the threshold, so the threshold is at least what the open bound is
at least. -/
theorem Agrees.le_threshold [Scalar.Congruent α] (h : s.Agrees)
    (hsize : s.brancher.frontier.size ≠ 0) (hopen : limit ≤ s.openBound none) :
    limit ≤ s.cutoff.threshold := by
  obtain ⟨m, hm⟩ := Multiset.card_pos_iff_exists_mem.mp
    (h.consistent.card_nodes ▸ Nat.pos_of_ne_zero hsize)
  have hbelow := Scalar.le_of_lt (h.below m hm)
  have hlowest : s.openBound none ≤ m.score :=
    Frontier.lowestScore_le_iff.mpr
      (.inl ⟨m, hm, Scalar.Ordered.le_refl (Scalar.Ordered.isNaN_left_of_le hbelow)⟩)
  have hscore := Scalar.Ordered.le_trans hopen hlowest
  exact Scalar.Ordered.le_trans (Scalar.Ordered.le_trans hscore hbelow) h.same_threshold.1

/-- If the open bound, the threshold and the incumbent are not below a limit, then neither is the
bound that is answered, unless it is the score of a dropped node. -/
theorem Limited.le_lowerBound (h : s.Limited limit Dropped) (hopen : limit ≤ s.openBound none)
    (hthreshold : limit ≤ s.cutoff.threshold) (hvalue : limit ≤ s.incumbent.value)
    (status : Status) (termination : Termination) (error : Option String) :
    limit ≤ (s.solution status termination error).lowerBound
      ∨ Dropped (s.solution status termination error).lowerBound := by
  have hrefused := h.refused hthreshold
  have hdiscarded := h.discarded hthreshold
  -- the bound is one of the four scores that it accounts for
  have hproven : limit ≤ s.provenBound none ∨ Dropped (s.provenBound none) := by
    unfold provenBound
    rcases Scalar.least_eq_or (Scalar.least (s.openBound none) s.discarded)
      s.brancher.frontier.lowestRefused with heq | heq <;> rw [heq]
    · rcases Scalar.least_eq_or (s.openBound none) s.discarded with heq | heq <;> rw [heq]
      · exact .inl hopen
      · exact hdiscarded
    · exact .inl hrefused
  show limit ≤ Scalar.least (s.provenBound none) s.incumbent.value
    ∨ Dropped (Scalar.least (s.provenBound none) s.incumbent.value)
  rcases Scalar.least_eq_or (s.provenBound none) s.incumbent.value with heq | heq <;> rw [heq]
  · exact hproven
  · exact .inl hvalue

end Search

namespace Extended

variable {K : Type} [Field K] [LinearOrder K] [FloorRing K] [IsStrictOrderedRing K]

/-- A threshold under tolerances that are not negative is at most the value it belongs to. -/
theorem toleranceAdjusted_le {v : Extended K} {rel abs : K} (hrel : 0 ≤ rel)
    (hv : Scalar.isNaN v = false) : toleranceAdjusted v (point rel) (point abs) ≤ v := by
  cases v with
  | point q =>
    rw [toleranceAdjusted_point, point_le_point]
    have hscaled : 0 ≤ max abs (rel * |q|) :=
      (mul_nonneg hrel (abs_nonneg q)).trans (le_max_right _ _)
    exact sub_le_self q hscaled
  | undefined => cases hv
  | _ =>
    rw [toleranceAdjusted_of_not_finite rfl]
    exact Scalar.Ordered.le_refl rfl

end Extended

namespace Serial

/-- A search that ends because its open bound reached its target answers a bound that is at least
the target, if the relative tolerance is at most one, or the bound is the score of a node that was
dropped in some round. It does not matter what the solvers answer as long as tightening a node
leaves a defined score defined. -/
theorem target_le_bound_or_dropped {K : Type} [Field K] [LinearOrder K] [FloorRing K]
    [IsStrictOrderedRing K] {solvers : Solvers σ (Extended K)} {vars : List (Variable (Extended K))}
    {settings : Settings (Extended K)} {memory left : σ} {solution : Solution (Extended K)}
    {target : Extended K} (hs : solvers.Tighten Node.KeepsDefined)
    (hsolve : solve solvers vars settings memory = (.ok solution, left))
    (hstatus : solution.status = .targetLowerReached) (hrel : settings.relTolerance ≤ 1)
    (htarget : settings.targetLower = some target) :
    target ≤ solution.lowerBound
      ∨ 0 < solution.stats.dropped
        ∧ ∃ start last, Search.new vars settings = .ok start
          ∧ DropsBetween solvers ⟨start, memory⟩ last solution.lowerBound := by
  cases hstart : Search.new vars settings with
  | error e =>
    rw [solve_eq, hstart] at hsolve
    cases hsolve
  | ok start =>
    have hvalid := Search.validate_of_new hstart
    have hagrees := Search.Agrees.new hstart
    obtain ⟨last, hrounds, hcheck, hsolution⟩ :=
      exists_rounds_of_solve hstart hsolve (by rw [hstatus]; decide)
    rw [hstatus] at hcheck hsolution
    have hkept : last.search.settings = settings :=
      (settings_rounds hrounds).trans (Search.new_frame hstart).2.2
    obtain ⟨hnonempty, reached, hreached, hopen⟩ := Search.warrants_of_check hcheck
    obtain rfl : reached = target := by
      rw [show (now solvers last).settings = settings from hkept, htarget] at hreached
      exact (Option.some.inj hreached).symm
    have hlimited := limited_rounds hs hrounds (fun _ hdrop => hdrop)
      (Search.Limited.new hstart (Extended.descendsPast_of_le_one hvalid hrel reached))
    -- the last threshold is between the target and the incumbent
    have hthreshold : reached ≤ last.search.cutoff.threshold :=
      hlimited.agrees.le_threshold (fun hsize => hnonempty ⟨hsize, rfl⟩) hopen
    have hvalue : reached ≤ last.search.incumbent.value := by
      obtain ⟨rel, abs, hr, ha, hnonneg⟩ := Extended.exists_tolerances hvalid
      refine Scalar.Ordered.le_trans hthreshold ?_
      rw [Cutoff.threshold, Search.cutoff, hkept, hr, ha]
      exact Extended.toleranceAdjusted_le hnonneg hlimited.agrees.defined
    have hbound := hlimited.le_lowerBound hopen hthreshold hvalue .targetLowerReached .complete none
    have hsame : solution.lowerBound
        = (last.search.solution .targetLowerReached .complete none).lowerBound :=
      congrArg Solution.lowerBound hsolution
    rw [hsame]
    refine hbound.imp_right fun hdrop => ⟨?_, start, last, rfl, hdrop⟩
    rw [show solution.stats = last.search.stats from congrArg Solution.stats hsolution]
    exact hdrop.dropped_pos hagrees.consistent hagrees.defined

/-- Solvers that find no point. Every node is bounded by minus five but the second child of the
root, which is bounded by zero. -/
def lopsidedSolvers : Solvers Unit (Extended ℚ) where
  lower n _ := pure (.ofBound (if n.id = 2 then 0 else .point (-5)) [])
  upper _ _ _ := pure .notFound

/-- The standard settings with the target minus one for the open bound, and a size tolerance that
the nodes of depth two are within. -/
def lopsidedSettings : Settings (Extended ℚ) :=
  { Settings.standard with targetLower := some (-1), sizeTolerance := .point (1 / 4) }

/-- The solvers answer every call. -/
theorem reliable_lopsidedSolvers : lopsidedSolvers.Reliable where
  preprocess n _ memory := ⟨(false, n), memory, rfl, rfl⟩
  lower _ _ memory := ⟨_, memory, rfl, trivial⟩
  upper _ _ _ memory := ⟨_, memory, rfl, trivial⟩
  postprocess n _ _ _ memory := ⟨(false, n), memory, rfl, rfl⟩

/-- Their bounds are defined. -/
theorem defined_lopsidedSolvers : lopsidedSolvers.Defined := by
  intro n v memory answer after h
  obtain rfl := Call.returns_pure h
  show Scalar.isNaN (if n.id = 2 then 0 else .point (-5) : Extended ℚ) = false
  split <;> rfl

/-- They leave nodes as they are. -/
theorem tighten_lopsidedSolvers : lopsidedSolvers.Tighten Node.KeepsDefined where
  preprocess h := by
    obtain ⟨rfl, rfl⟩ := Prod.mk.inj (Call.returns_pure h)
    exact Node.keepsDefined_of_score rfl
  postprocess h := by
    obtain ⟨rfl, rfl⟩ := Prod.mk.inj (Call.returns_pure h)
    exact Node.keepsDefined_of_score rfl

/-- The search drops two children of the first child of the root, and ends then. -/
theorem exists_lopsided :
    ∃ solution ∈ (solve lopsidedSolvers (halfVars .continuous) lopsidedSettings ()).1.toOption,
      solution.status = .targetLowerReached ∧ solution.error = none
        ∧ solution.lowerBound = .point (-5) ∧ solution.stats.processed = 5
        ∧ solution.stats.dropped = 2 := by
  decide +kernel

/-- The settings are valid. -/
theorem validate_lopsidedSettings : lopsidedSettings.validate = .ok () := by
  have hfault : lopsidedSettings.fault?.isNone = true := by decide +kernel
  rw [Settings.validate, Option.isNone_iff_eq_none.mp hfault]

/-- The target is reached although the bound is below it: the open nodes are above the target, but
the dropped ones are not. -/
theorem bound_lt_target_lopsided :
    lopsidedSettings.validate = .ok () ∧ lopsidedSettings.relTolerance ≤ 1
      ∧ lopsidedSettings.targetLower = some (-1) ∧ lopsidedSolvers.Reliable
      ∧ lopsidedSolvers.Defined ∧ lopsidedSolvers.Tighten Node.KeepsDefined
      ∧ ∃ solution, (solve lopsidedSolvers (halfVars .continuous) lopsidedSettings ()).1
          = .ok solution
        ∧ solution.status = .targetLowerReached ∧ solution.error = none
        ∧ solution.lowerBound < -1 := by
  obtain ⟨solution, hsolve, hstatus, herror, hbound, -⟩ := exists_eq_ok exists_lopsided
  refine ⟨validate_lopsidedSettings, by decide +kernel, rfl, reliable_lopsidedSolvers,
    defined_lopsidedSolvers, tighten_lopsidedSolvers, solution, hsolve, hstatus, herror, ?_⟩
  rw [hbound]
  decide +kernel

/-- So the bound is the score of a dropped node. -/
theorem target_le_bound_or_dropped_lopsided :
    ∃ solution start last,
      (solve lopsidedSolvers (halfVars .continuous) lopsidedSettings ()).1 = .ok solution
        ∧ solution.status = .targetLowerReached
        ∧ Search.new (halfVars .continuous) lopsidedSettings = .ok start
        ∧ DropsBetween lopsidedSolvers ⟨start, ()⟩ last solution.lowerBound := by
  obtain ⟨solution, hsolve, hstatus, -, hbound, -⟩ := exists_eq_ok exists_lopsided
  have hdrops := target_le_bound_or_dropped tighten_lopsidedSolvers (Prod.ext hsolve rfl) hstatus
    (by decide +kernel) (show lopsidedSettings.targetLower = some (-1) from rfl)
  have hbelow : ¬ (-1 : Extended ℚ) ≤ solution.lowerBound := by
    rw [hbound]
    decide +kernel
  obtain ⟨-, start, last, hstart, hdrop⟩ := hdrops.resolve_left hbelow
  exact ⟨solution, start, last, hsolve, hstatus, hstart, hdrop⟩

end Serial

end BranchBound
