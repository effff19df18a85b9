import BranchBound.Frontier.Basic
import BranchBound.Proofs.Scalar.Exact

/-! # Values that compare as equal

Two values that compare as equal may differ in the sign of a zero. The operations from which
thresholds are computed cannot tell them apart: they take values that compare as equal to values
that do. So a threshold does not depend on how a tolerance of zero is written.

* **`Scalar.Same`** — two values compare as equal.
* **`Scalar.Congruent`** — the laws. Exact arithmetic and binary floating-point numbers obey them.
* **`same_toleranceAdjusted`** — a threshold under tolerances that compare as equal. -/

namespace BranchBound

namespace Scalar

variable {α : Type} [Scalar α]

/-- Two values compare as equal; both are defined then. -/
def Same (x y : α) : Prop := x ≤ y ∧ y ≤ x

/-- Products and differences of values that compare as equal compare as equal, and the finite
numbers lie apart from the infinities. -/
class Congruent (α : Type) [Scalar α] : Prop extends Ordered α where
  /-- A finite number is defined. -/
  isNaN_of_isFinite {x : α} : isFinite x = true → isNaN x = false
  /-- Zero is finite. -/
  isFinite_zero : isFinite (0 : α) = true
  /-- Infinity is not finite. -/
  isFinite_infinity : isFinite (infinity : α) = false
  /-- The two infinities are apart. -/
  neg_infinity_lt : -infinity < (infinity : α)
  /-- The distance of a finite number from zero is finite. -/
  isFinite_abs {x : α} : isFinite x = true → isFinite (abs x) = true
  /-- Products with finite numbers. -/
  same_mul {x y z : α} :
    isFinite x = true → isFinite y = true → isFinite z = true → Same x y → Same (x * z) (y * z)
  /-- Differences from finite numbers. -/
  same_sub {x y z : α} : isFinite z = true → Same x y → Same (z - x) (z - y)

section Ordered

variable [Ordered α] {x y z a b : α}

/-- A value that is defined compares as equal to itself. -/
theorem Same.refl (h : isNaN x = false) : Same x x := ⟨Ordered.le_refl h, Ordered.le_refl h⟩

omit [Ordered α] in
/-- Comparing as equal is symmetric. -/
theorem Same.symm (h : Same x y) : Same y x := ⟨h.2, h.1⟩

/-- Values that compare as equal are defined. -/
theorem Same.isNaN (h : Same x y) : isNaN x = false := Ordered.isNaN_left_of_le h.1

/-- Values that compare as equal are at most the same values. -/
theorem Same.le_congr (h : Same x y) (k : Same a b) : x ≤ a ↔ y ≤ b :=
  ⟨fun hxa => Ordered.le_trans h.2 (Ordered.le_trans hxa k.1),
    fun hyb => Ordered.le_trans h.1 (Ordered.le_trans hyb k.2)⟩

/-- Values that compare as equal are smaller than the same values. -/
theorem Same.lt_congr (h : Same x y) (k : Same a b) : x < a ↔ y < b := by
  rw [Ordered.lt_iff_le_not_ge, Ordered.lt_iff_le_not_ge, h.le_congr k, k.le_congr h]

/-- What is smaller than a value is smaller than what that is at most. -/
theorem lt_of_lt_of_le (h : x < y) (k : y ≤ z) : x < z :=
  Ordered.lt_iff_le_not_ge.mpr
    ⟨Ordered.le_trans (le_of_lt h) k, fun hzx => not_le_of_lt h (Ordered.le_trans k hzx)⟩

/-- The greater of two values, up to values that compare as equal. -/
theorem Same.greatest (h : Same x y) (k : Same a b) :
    Same (Scalar.greatest x a) (Scalar.greatest y b) := by
  have hcond : (a < x ∨ Scalar.isNaN a = true) ↔ (b < y ∨ Scalar.isNaN b = true) := by
    rw [k.lt_congr h, k.isNaN, k.symm.isNaN]
  unfold Scalar.greatest
  by_cases hy : b < y ∨ Scalar.isNaN b = true
  · rw [if_pos (hcond.mpr hy), if_pos hy]
    exact h
  · rw [if_neg (fun hx => hy (hcond.mp hx)), if_neg hy]
    exact k

end Ordered

/-- A number that is not negative compares as equal to the greater of it and zero. -/
theorem same_greatest_zero [Congruent α] {x : α} (hfinite : isFinite x = true)
    (hx : ¬ x < 0) : Same (greatest x 0) x := by
  have hdef := Congruent.isNaN_of_isFinite hfinite
  have hzero : Scalar.isNaN (0 : α) = false :=
    Congruent.isNaN_of_isFinite Congruent.isFinite_zero
  unfold greatest
  split
  · exact .refl hdef
  · next hle =>
    rw [not_or] at hle
    exact ⟨le_of_not_lt hdef hzero hx, le_of_not_lt hzero hdef hle.1⟩

end Scalar

variable {α : Type} [Scalar α] [Scalar.Congruent α]

/-- Lowering a threshold by tolerances that compare as equal leads to thresholds that do. -/
theorem same_toleranceAdjusted {t rel rel' abs abs' : α} (ht : Scalar.isNaN t = false)
    (hrel : Scalar.isFinite rel = true) (hrel' : Scalar.isFinite rel' = true)
    (h : Scalar.Same rel rel') (k : Scalar.Same abs abs') :
    Scalar.Same (toleranceAdjusted t rel abs) (toleranceAdjusted t rel' abs') := by
  unfold toleranceAdjusted
  split
  · next hfinite =>
    have hproduct := Scalar.Congruent.same_mul hrel hrel' (Scalar.Congruent.isFinite_abs hfinite) h
    exact Scalar.Congruent.same_sub hfinite (k.greatest hproduct)
  · exact .refl ht

/-! ## Exact numbers -/

namespace Extended

variable {K : Type} [Field K] [LinearOrder K] [FloorRing K]

omit [Field K] [LinearOrder K] [FloorRing K] in
/-- Distinct values have distinct ranks. -/
theorem eq_of_rank_eq {x y : Extended K} (h : x.rank? = y.rank?) : x = y := by
  cases x <;> cases y <;>
    simp_all only [rank?, Option.some.injEq, ← WithBot.coe_top, WithBot.coe_inj, WithTop.coe_inj,
      WithBot.bot_ne_coe, WithBot.coe_ne_bot, WithTop.coe_ne_top, WithTop.top_ne_coe, reduceCtorEq]

/-- Exact numbers that compare as equal are equal. -/
theorem eq_of_same {x y : Extended K} (h : Scalar.Same x y) : x = y := by
  obtain ⟨r, q, hr, hq, hle⟩ := (isRank.le_iff x y).mp h.1
  obtain ⟨q', r', hq', hr', hge⟩ := (isRank.le_iff y x).mp h.2
  rw [hq] at hq'
  rw [hr] at hr'
  cases hq'
  cases hr'
  exact eq_of_rank_eq (by rw [hr, hq, le_antisymm hle hge])

instance : Scalar.Congruent (Extended K) where
  isNaN_of_isFinite h := by
    obtain ⟨q, rfl⟩ := isFinite_iff.mp h
    rfl
  isFinite_zero := rfl
  isFinite_infinity := rfl
  neg_infinity_lt := (isRank.lt_iff _ _).mpr
    ⟨⊥, ((⊤ : WithTop K) : WithBot (WithTop K)), rfl, rfl, WithBot.bot_lt_coe _⟩
  isFinite_abs h := by
    obtain ⟨q, rfl⟩ := isFinite_iff.mp h
    rfl
  same_mul hx _ hz h := by
    obtain ⟨p, rfl⟩ := isFinite_iff.mp hx
    obtain ⟨r, rfl⟩ := isFinite_iff.mp hz
    cases eq_of_same h
    exact .refl rfl
  same_sub {x y z} hz h := by
    obtain ⟨r, rfl⟩ := isFinite_iff.mp hz
    have hdef := h.isNaN
    cases eq_of_same h
    refine .refl ?_
    cases x with
    | undefined => cases hdef
    | _ => rfl

end Extended

end BranchBound
