import Mathlib.Data.Option.Basic
import BranchBound.Settings.Basic

/-! # Valid settings

What a check of settings has found when it finds no fault. -/

namespace BranchBound.Settings

variable {α : Type} [Scalar α] {s : Settings α}

/-- A tolerance without fault is finite and not negative. -/
theorem toleranceFault?_eq_none {field : String} {value : α} :
    toleranceFault? field value = none ↔ Scalar.isFinite value = true ∧ ¬ value < 0 := by
  unfold toleranceFault?
  split
  · next hbad =>
    refine ⟨nofun, fun ⟨hfinite, hnonneg⟩ => ?_⟩
    rw [hfinite, Bool.not_true, Bool.false_or, decide_eq_true_eq] at hbad
    exact absurd hbad hnonneg
  · next hgood =>
    rw [Bool.or_eq_true, not_or, Bool.not_eq_true', Bool.not_eq_false, decide_eq_true_eq] at hgood
    exact ⟨fun _ => hgood, fun _ => rfl⟩

/-- Settings have no fault if no part of the check finds one. -/
theorem fault?_eq_none : s.fault? = none ↔
    toleranceFault? "abs_pruning_tol" s.absTolerance = none
      ∧ toleranceFault? "rel_pruning_tol" s.relTolerance = none
      ∧ toleranceFault? "rel_node_size_tol" s.sizeTolerance = none
      ∧ ¬ 1 < s.sizeTolerance ∧ s.logFrequency ≠ 0
      ∧ targetFault? "target_lower_bound" s.targetLower = none
      ∧ targetFault? "target_upper_bound" s.targetUpper = none := by
  unfold fault?
  simp only [Option.orElse_eq_none, ite_eq_right_iff, reduceCtorEq, imp_false, ne_eq]

/-- A search can run under settings that have no fault. -/
theorem validate_eq_ok : s.validate = .ok () ↔ s.fault? = none := by
  unfold validate
  cases s.fault? with
  | none => exact ⟨fun _ => rfl, fun _ => rfl⟩
  | some fault => exact ⟨nofun, nofun⟩

end BranchBound.Settings
