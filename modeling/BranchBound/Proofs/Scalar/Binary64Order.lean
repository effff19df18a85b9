import BranchBound.Scalar.Binary64
import BranchBound.Proofs.Scalar.Order
import Mathlib.Data.Prod.Lex
import Mathlib.Data.Int.Order.Basic

/-! # The order of binary floating-point numbers

Binary floating-point numbers obey the laws of comparison. An unpacked number is given a rank: its
class from negative to positive infinity, then exponent and mantissa, both negated below zero. The
ranks are ordered lexicographically, the two zeros share one, and an undefined value has none;
comparing numbers is comparing ranks (`compare_eq_rank`).

* **`Binary64.rank?`** — the rank of a number.
* **`Binary64.isRank`** — numbers compare as their ranks do, from which the laws follow. -/

namespace BranchBound.Binary64

open Float.Model (UnpackedFloat)

/-- Ranks: class, exponent and mantissa, in lexicographic order. -/
abbrev Rank : Type := ℤ ×ₗ ℤ ×ₗ ℤ

/-- The rank of an unpacked number; an undefined one has none. -/
def unpackedRank? : UnpackedFloat → Option Rank
  | .notANumber => none
  | .infinity .negative => some (toLex (-2, toLex (0, 0)))
  | .finite .negative m e _ => some (toLex (-1, toLex (-e, -(m : ℤ))))
  | .zero _ => some (toLex (0, toLex (0, 0)))
  | .finite .positive m e _ => some (toLex (1, toLex (e, (m : ℤ))))
  | .infinity .positive => some (toLex (2, toLex (0, 0)))

/-- The rank of a number; an undefined one has none. -/
def rank? (x : Float) : Option Rank := unpackedRank? x.toModel.unpack

/-! ## Comparison by ranks -/

/-- Ranks of one class compare by exponent and then by mantissa. -/
theorem compare_rank (c e₁ e₂ m₁ m₂ : ℤ) :
    compare (toLex (c, toLex (e₁, m₁)) : Rank) (toLex (c, toLex (e₂, m₂)))
      = (compare e₁ e₂).then (compare m₁ m₂) := by
  simp only [Prod.Lex.compare_def, compareLex, compareOn, ofLex_toLex, Std.compare_self,
    Ordering.then]

/-- Negation turns the comparison of whole numbers around. -/
theorem compare_neg_neg (m n : ℤ) : compare (-m) (-n) = (compare m n).swap := by
  rcases lt_trichotomy m n with h | h | h
  · rw [compare_lt_iff_lt.mpr h, compare_gt_iff_gt.mpr (Int.neg_lt_neg h)]
    rfl
  · rw [h, Std.compare_self, Std.compare_self]
    rfl
  · rw [compare_gt_iff_gt.mpr h, compare_lt_iff_lt.mpr (Int.neg_lt_neg h)]
    rfl

/-- Natural numbers compare as whole numbers do. -/
theorem compare_natCast (m n : ℕ) : compare (m : ℤ) (n : ℤ) = compare m n := by
  simp only [compare, compareOfLessAndEq, Int.ofNat_lt, Int.ofNat_inj]

/-- Comparing numbers is comparing their ranks; an undefined number compares to nothing. -/
theorem compare_eq_rank (a b : UnpackedFloat) :
    a.compare b = (unpackedRank? a).bind fun r => (unpackedRank? b).map fun q => compare r q := by
  rcases a with (_ | _) | _ | (_ | _) | ⟨_ | _, m, e, h⟩ <;>
    rcases b with (_ | _) | _ | (_ | _) | ⟨_ | _, n, d, k⟩ <;>
    try rfl
  -- what is left are finite numbers of one sign
  case finite.negative.finite.negative =>
    show _ = some
      (compare (toLex (-1, toLex (-e, -(m : ℤ))) : Rank) (toLex (-1, toLex (-d, -(n : ℤ)))))
    rw [compare_rank, compare_neg_neg, compare_neg_neg, compare_natCast, ← Ordering.swap_then]
    rfl
  case finite.positive.finite.positive =>
    show _ = some (compare (toLex (1, toLex (e, (m : ℤ))) : Rank) (toLex (1, toLex (d, (n : ℤ)))))
    rw [compare_rank, compare_natCast]
    rfl

/-- The rank of infinity is the highest. -/
theorem rank_le_infinity {x : Float} {r : Rank} (h : rank? x = some r) :
    r ≤ toLex (2, toLex (0, 0)) := by
  unfold rank? at h
  generalize x.toModel.unpack = u at h
  rcases u with (_ | _) | _ | (_ | _) | ⟨_ | _, m, e, hm⟩ <;> cases h
  · decide
  · decide
  · decide
  · decide
  · exact Prod.Lex.toLex_le_toLex.mpr (.inl (show (-1 : ℤ) < 2 by decide))
  · exact Prod.Lex.toLex_le_toLex.mpr (.inl (show (1 : ℤ) < 2 by decide))

/-- The rank of negative infinity is the lowest. -/
theorem neg_infinity_le_rank {x : Float} {r : Rank} (h : rank? x = some r) :
    toLex (-2, toLex (0, 0)) ≤ r := by
  unfold rank? at h
  generalize x.toModel.unpack = u at h
  rcases u with (_ | _) | _ | (_ | _) | ⟨_ | _, m, e, hm⟩ <;> cases h
  · decide
  · decide
  · decide
  · decide
  · exact Prod.Lex.toLex_le_toLex.mpr (.inl (show (-2 : ℤ) < -1 by decide))
  · exact Prod.Lex.toLex_le_toLex.mpr (.inl (show (-2 : ℤ) < 1 by decide))

/-- Numbers compare as their ranks do. -/
theorem isRank : Scalar.IsRank rank? where
  lt_iff x y := by
    change decide ((UnpackedFloat.compare _ _ == some .lt) = true) = true ↔ _
    rw [compare_eq_rank, decide_eq_true_eq, beq_iff_eq]
    change ((rank? x).bind fun r => (rank? y).map fun q => compare r q) = some .lt ↔ _
    simp only [Option.bind_eq_some_iff, Option.map_eq_some_iff, compare_lt_iff_lt]
    constructor
    · rintro ⟨r, hr, q, hq, h⟩
      exact ⟨r, q, hr, hq, h⟩
    · rintro ⟨r, q, hr, hq, h⟩
      exact ⟨r, hr, q, hq, h⟩
  le_iff x y := by
    change decide ((UnpackedFloat.compare _ _).any (·.isLE) = true) = true ↔ _
    rw [compare_eq_rank, decide_eq_true_eq, Option.any_eq_true]
    change (∃ o, ((rank? x).bind fun r => (rank? y).map fun q => compare r q) = some o ∧ _) ↔ _
    simp only [Option.bind_eq_some_iff, Option.map_eq_some_iff, Ordering.isLE_iff_ne_gt]
    constructor
    · rintro ⟨_, ⟨r, hr, q, hq, rfl⟩, h⟩
      exact ⟨r, q, hr, hq, compare_le_iff_le.mp h⟩
    · rintro ⟨r, q, hr, hq, h⟩
      exact ⟨_, ⟨r, hr, q, hq, rfl⟩, compare_le_iff_le.mpr h⟩
  beq_iff x y := by
    change (UnpackedFloat.compare _ _ == some .eq) = true ↔ _
    rw [compare_eq_rank, beq_iff_eq]
    change ((rank? x).bind fun r => (rank? y).map fun q => compare r q) = some .eq ↔ _
    simp only [Option.bind_eq_some_iff, Option.map_eq_some_iff, compare_eq_iff_eq]
    constructor
    · rintro ⟨r, hr, q, hq, rfl⟩
      exact ⟨r, hr, hq⟩
    · rintro ⟨r, hr, hq⟩
      exact ⟨r, hr, r, hq, rfl⟩
  isNaN_iff x := by
    change UnpackedFloat.isNaN _ = true ↔ unpackedRank? _ = none
    -- of all the forms that a number has, only the undefined one has no rank
    rcases x.toModel.unpack with (_ | _) | _ | (_ | _) | ⟨_ | _, m, e, h⟩ <;>
      constructor <;> intro hx <;> cases hx <;> rfl
  infinity_rank := ⟨toLex (2, toLex (0, 0)), rfl, fun _ _ => rank_le_infinity⟩
  neg_infinity_rank := ⟨toLex (-2, toLex (0, 0)), rfl, fun _ _ => neg_infinity_le_rank⟩

instance : Scalar.Ordered Float :=
  isRank.ordered (inferInstanceAs (Std.TransCmp (compareOn orderKey)))

end BranchBound.Binary64
