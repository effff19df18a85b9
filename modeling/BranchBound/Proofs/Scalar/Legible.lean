import BranchBound.Proofs.Json.Numerals
import BranchBound.Proofs.Scalar.Binary64Laws
import BranchBound.Scalar.Scaling

/-! # Scalars that can be written and read

A scalar is written as the shortest decimal that identifies it, and read by scaling. The two steps
of reading round, so there are values that are read as a neighbour of theirs; what is written is a
number in any case.

* **`Scalar.ReadsBack`** — the values that are read as themselves.
* **`Scalar.Legible`** — the scalars whose decimals have the form of numbers; binary floating-point
  numbers are an instance. -/

namespace BranchBound

/-! ## Decimals without trailing zeros -/

/-- A coefficient keeps digits when its trailing zeros are taken off. -/
theorem Decimal.stripZeros_ne_zero {coefficient : Nat} (h : coefficient ≠ 0) (fuel : Nat)
    (exponent : Int) : (stripZeros fuel coefficient exponent).1 ≠ 0 := by
  induction fuel generalizing coefficient exponent with
  | zero => exact h
  | succ fuel ih =>
    rw [stripZeros]
    split
    · exact ih (by omega) _
    · exact h

/-- A zero without trailing zeros is not scaled. -/
theorem Decimal.exponent_normal {d : Decimal} (h : d.normal.coefficient = 0) :
    d.normal.exponent = 0 := by
  unfold normal at h ⊢
  split
  · rfl
  · next hne =>
    rw [if_neg hne] at h
    exact absurd h (stripZeros_ne_zero hne _ _)

namespace Scalar

/-- A finite value is read as the value it was written for. -/
def ReadsBack {α : Type} [Scalar α] (x : α) : Prop :=
  isFinite x = true → ofNumeral? (Layout.wire.numeral (toDecimal Layout.wire.tie x)) = some x

/-- Scalars whose decimals have the form of numbers: a zero is not scaled. Natural numbers that are
words can be read as such scalars. -/
class Legible (α : Type) [Scalar α] : Prop where
  /-- A zero is not scaled. -/
  exponent_eq_zero (tie : Tie) (x : α) :
    (toDecimal tie x).coefficient = 0 → (toDecimal tie x).exponent = 0
  /-- A word can be read. -/
  isSome_ofNat {n : Nat} : n < wordRange → (ofNumeral? (.ofNat n) : Option α).isSome = true

end Scalar

namespace Binary64

open Float.Model Float.Model.UnpackedFloat

/-- A product is rounded from the product of the mantissas. -/
theorem mul_finite (s s' : Sign) {m n : Nat} (e d : ℤ) (hm : 0 < m) (hn : 0 < n) :
    UnpackedFloat.mul format (.finite s m e hm) (.finite s' n d hn)
      = roundWithAccuracy format (s * s') (m * n) (e + d) .exact := rfl

/-- A natural number of more than fifty-three bits is rounded. -/
theorem rounds_ofNat {n : Nat} (hn : 2 ^ 53 ≤ n) : Rounds ((n : ℤ) : ℚ) (Float.ofNat n) := by
  have hlog : 53 ≤ (n * 2 ^ 53).log2 := (Nat.le_log2 (by omega)).mpr (by omega)
  have htarget : (-53 : ℤ) + 0 ≤ target (n * 2 ^ 53) (-53 + 0) := by
    rw [target_eq]
    omega
  have hrounding := isRounding_roundWithAccuracy (.positive * .positive)
    (show 0 < n * 2 ^ 53 by omega) htarget
  have hvalue : (((Sign.positive * Sign.positive).apply ((n * 2 ^ 53 : ℕ) : ℤ) : ℤ) : ℚ)
      * 2 ^ (-53 + 0 : ℤ) = ((n : ℤ) : ℚ) := by
    show (((n * 2 ^ 53 : ℕ) : ℤ) : ℚ) * 2 ^ (-53 : ℤ) = _
    rw [Nat.cast_mul, Int.cast_mul, mul_assoc, show (((2 ^ 53 : ℕ) : ℤ) : ℚ) * 2 ^ (-53 : ℤ) = 1 by
      norm_num, mul_one]
  rw [hvalue] at hrounding
  -- it is read as the product of a shifted mantissa and a power of ten
  have hread : UnpackedFloat.ofScientific format n 0
      = roundWithAccuracy format (.positive * .positive) (n * 2 ^ 53) (-53 + 0) .exact := by
    unfold UnpackedFloat.ofScientific
    rw [dif_neg (by omega), if_neg (by decide), if_neg (by simp), if_pos (by decide), mul_finite,
      Int.toNat_zero, pow_zero, mul_one, Nat.shiftLeft_eq,
      show format.mantissaBits = 53 from rfl, Nat.cast_ofNat]
  show Rounds _ (Float.ofScientific n false 0)
  unfold Float.ofScientific
  rw [dif_neg fun h => absurd h.1 (by omega)]
  refine ⟨_, rfl, ?_⟩
  show IsRounding _ (UnpackedFloat.ofScientific format n 0)
  rw [hread]
  exact hrounding

/-- A rounding of what is not too great is at most twice as great. -/
theorem Rounds.exists_value_le {q : ℚ} {x : Float} (h : Rounds q x) (hq : |q| ≤ 2 ^ 100) :
    ∃ p, value? x = some p ∧ |p| ≤ 2 * |q| := by
  have hzero : Representable 0 := representable_intCast (n := 0) (by norm_num)
  have hfar : |0 - q| = |q| := by rw [zero_sub, abs_neg]
  have hgreat : (2 : ℚ) ^ 100 + 2 ^ 100 < 2 ^ 1024 := by
    rw [← two_mul, ← pow_succ']
    exact pow_lt_pow_right₀ (by norm_num) (by norm_num)
  obtain ⟨p, hp, hnearest⟩ :=
    h.exists_value hzero (hfar ▸ (add_le_add hq hq).trans_lt hgreat)
  refine ⟨p, hp, ?_⟩
  calc |p| = |(p - q) + q| := by rw [sub_add_cancel]
    _ ≤ |p - q| + |q| := abs_add_le _ _
    _ ≤ |q| + |q| := add_le_add_left ((hnearest 0 hzero).trans_eq hfar) _
    _ = 2 * |q| := (two_mul _).symm

/-- The value of a word is at most twice as great as the word. -/
theorem exists_value_ofNat {n : Nat} (hn : n < 2 ^ 64) :
    ∃ p : ℚ, value? (Float.ofNat n) = some p ∧ |p| ≤ 2 ^ 65 := by
  have habs : |((n : ℤ) : ℚ)| ≤ 2 ^ 64 := by
    rw [Int.cast_natCast, Nat.abs_cast]
    exact_mod_cast hn.le
  rcases Nat.lt_or_ge n (2 ^ 53) with hsmall | hlarge
  · exact ⟨_, value?_ofNat hsmall, habs.trans (by norm_num)⟩
  · obtain ⟨p, hp, hle⟩ := (rounds_ofNat hlarge).exists_value_le (habs.trans (by norm_num))
    exact ⟨p, hp, by linarith⟩

instance (x : Float) : Decidable (Scalar.ReadsBack x) := inferInstanceAs (Decidable (_ → _))

instance : Scalar.Legible Float where
  exponent_eq_zero tie x h := by
    change (toDecimal tie x).coefficient = 0 at h
    change (toDecimal tie x).exponent = 0
    unfold toDecimal at h ⊢
    split at h
    · next hzero => rw [if_pos hzero]
    · next hne =>
      rw [if_neg hne]
      exact Decimal.exponent_normal h
  isSome_ofNat {n} h := by
    obtain ⟨p, hp, hle⟩ := exists_value_ofNat h
    -- reading scales by the power of ten with exponent zero, which is a rounding of the number
    -- itself
    have hunit : value? (Scalar.powerOfTen 0 : Float) = some 1 := by decide +kernel
    have hrounds := rounds_mul hp hunit
    rw [mul_one] at hrounds
    obtain ⟨q, hq, -⟩ := hrounds.exists_value_le (hle.trans (by norm_num))
    have hfinite : Scalar.isInfinite (Float.ofNat n * Scalar.powerOfTen 0) = false := by
      unfold Scalar.isInfinite
      rw [isFinite_iff.mpr ⟨q, hq⟩, Bool.not_true, Bool.and_false]
    unfold Scalar.ofNumeral?
    rw [Numeral.clipped_ofNat h]
    show (Scalar.enlarge? (Float.ofNat n) 0 |>.map _).isSome = true
    unfold Scalar.enlarge?
    rw [if_pos (Nat.zero_le _), Option.isSome_map]
    dsimp only
    rw [hfinite]
    rfl

end Binary64

end BranchBound
