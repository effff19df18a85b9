import BranchBound.Proofs.Scalar.Binary64Values

/-! # Rounding of binary floating-point numbers

Sums, differences and products are rounded to a nearest one of the values that a mantissa of
fifty-three bits can hold, as long as they do not overflow. So an operation is exact if its result
can be held, and its error is at most the distance from any value that can be.

* **`Binary64.Representable`**, **`Binary64.Nearest`** — the values that can be held, and those of
  them that are nearest.
* **`Binary64.Represents`** — what a mantissa with residual bits stands for, which shifting keeps.
* **`Binary64.IsRounding`**, **`Binary64.Rounds`** — a number is a rounding of a value, before and
  after it is packed.
* **`Binary64.rounds_add`**, **`Binary64.rounds_sub`**, **`Binary64.rounds_mul`** — the
  operations. -/

namespace BranchBound.Binary64

open Float.Model (UnpackedFloat)
open Float.Model.UnpackedFloat (Sign ExtendedMantissa Accuracy shiftToExponent
  shiftToTargetExponent roundWithAccuracy decreaseExponent)

/-! ## Nearest values -/

/-- A mantissa of fifty-three bits can hold a value; the exponent may be too great. -/
def Representable (q : ℚ) : Prop := ∃ n e : ℤ, |n| ≤ 2 ^ 53 ∧ -1074 ≤ e ∧ q = n * 2 ^ e

/-- No value that can be held is closer to `q` than `p`. -/
def Nearest (q p : ℚ) : Prop := ∀ y, Representable y → |p - q| ≤ |y - q|

variable {p q y : ℚ}

/-- Values can be held up to the sign. -/
theorem Representable.neg (h : Representable q) : Representable (-q) := by
  obtain ⟨n, e, hn, he, rfl⟩ := h
  exact ⟨-n, e, (abs_neg n).trans_le hn, he, by rw [Int.cast_neg, neg_mul]⟩

/-- Whole numbers of fifty-three bits can be held. -/
theorem representable_intCast {n : ℤ} (h : |n| ≤ 2 ^ 53) : Representable n :=
  ⟨n, 0, h, by decide, by rw [zpow_zero, mul_one]⟩

/-- What is nearest to a value that can be held is that value. -/
theorem Nearest.eq (h : Nearest q p) (hq : Representable q) : p = q := by
  have hdist := h q hq
  rw [sub_self, abs_zero] at hdist
  exact sub_eq_zero.mp (abs_nonpos_iff.mp hdist)

/-- Nearest values are turned around by the sign. -/
theorem Nearest.neg (h : Nearest q p) : Nearest (-q) (-p) := fun y hy => by
  have hdist := h (-y) hy.neg
  rw [← abs_neg (-p - -q), ← abs_neg (y - -q)]
  rwa [show -(-p - -q) = p - q by ring, show -(y - -q) = -y - q by ring]

/-- A whole number at most one half away is nearest among whole numbers. -/
theorem abs_sub_le_of_le_half {x : ℚ} {r k : ℤ} (h : |(r : ℚ) - x| ≤ 1 / 2) :
    |(r : ℚ) - x| ≤ |(k : ℚ) - x| := by
  rcases eq_or_ne k r with rfl | hne
  · exact le_refl _
  · have hone : (1 : ℚ) ≤ |(k : ℚ) - r| := by
      exact_mod_cast Int.one_le_abs (sub_ne_zero.mpr hne)
    have htri := abs_sub_le (k : ℚ) x r
    rw [abs_sub_comm x r] at htri
    linarith

/-- Rounding to a multiple of a power of two leads to a nearest value, if the value is not below the
least one that has all fifty-three bits with that power. -/
theorem nearest_of_le_half {r t : ℤ} (h : |(r : ℚ) - q / 2 ^ t| ≤ 1 / 2)
    (hlow : 2 ^ 52 * 2 ^ t ≤ q ∨ t = -1074) : Nearest q (r * 2 ^ t) := by
  have hpos : (0 : ℚ) < 2 ^ t := by positivity
  have hscale : ∀ k : ℤ, |(k : ℚ) * 2 ^ t - q| = |(k : ℚ) - q / 2 ^ t| * 2 ^ t := fun k => by
    rw [← abs_of_pos hpos, ← abs_mul, abs_of_pos hpos, sub_mul, div_mul_cancel₀ q hpos.ne']
  -- no multiple of the power is closer than the rounded one
  have hmultiple : ∀ k : ℤ, |(r : ℚ) * 2 ^ t - q| ≤ |(k : ℚ) * 2 ^ t - q| := fun k => by
    rw [hscale, hscale]
    exact mul_le_mul_of_nonneg_right (abs_sub_le_of_le_half h) (le_of_lt hpos)
  rintro y ⟨n, d, hn, hd, rfl⟩
  rcases le_or_gt t d with htd | hdt
  · -- the value is a multiple itself
    refine (hmultiple (n * 2 ^ (d - t).toNat)).trans_eq ?_
    rw [Int.cast_mul, Int.cast_pow, Int.cast_ofNat, mul_assoc, ← zpow_natCast,
      ← zpow_add₀ (by norm_num : (2 : ℚ) ≠ 0), Int.toNat_of_nonneg (by omega)]
    congr 4
    omega
  · -- the value lies below a multiple that is not above `q`
    have hle := hlow.resolve_right (by omega)
    have hy : (n : ℚ) * 2 ^ d ≤ 2 ^ 52 * 2 ^ t := by
      have hn' : (n : ℚ) ≤ 2 ^ 53 := by exact_mod_cast (le_abs_self n).trans hn
      calc (n : ℚ) * 2 ^ d ≤ 2 ^ 53 * 2 ^ d := mul_le_mul_of_nonneg_right hn' (by positivity)
        _ = 2 ^ 52 * 2 ^ (d + 1) := by
            rw [zpow_add_one₀ (by norm_num)]
            ring
        _ ≤ 2 ^ 52 * 2 ^ t := by
            refine mul_le_mul_of_nonneg_left ?_ (by positivity)
            exact zpow_le_zpow_right₀ (by norm_num) (by omega)
    refine (hmultiple (2 ^ 52)).trans ?_
    rw [Int.cast_pow, Int.cast_ofNat, abs_of_nonpos (by linarith), abs_of_nonpos (by linarith)]
    linarith

/-! ## Residual bits -/

/-- What a mantissa with residual bits stands for: the bits tell on which side of the middle between
the mantissa and the next one a value lies. -/
def Represents : ExtendedMantissa → ℚ → Prop
  | ⟨m, false, false⟩, x => x = m
  | ⟨m, false, true⟩, x => m < x ∧ x < m + 1 / 2
  | ⟨m, true, false⟩, x => x = m + 1 / 2
  | ⟨m, true, true⟩, x => m + 1 / 2 < x ∧ x < m + 1

/-- Shifting by one bit halves the value. -/
theorem Represents.shiftRightOne {a : ExtendedMantissa} {x : ℚ} (h : Represents a x) :
    Represents a.shiftRightOne (x / 2) := by
  obtain ⟨m, round, sticky⟩ := a
  obtain ⟨k, rfl | rfl⟩ := Nat.even_or_odd' m
  · -- no half is shifted out, so the value lies in the lower half
    have hhalf : 2 * k / 2 = k := by omega
    have hbit : (2 * k % 2 != 0) = false := by rw [Nat.mul_mod_right]; rfl
    unfold ExtendedMantissa.shiftRightOne
    simp only [hhalf, hbit]
    cases round <;> cases sticky <;> simp only [Represents] at h <;> push_cast at h <;>
      simp only [Represents, Bool.or_true, Bool.or_false]
    · linarith
    all_goals constructor <;> linarith
  · -- a half is shifted out, so the value lies in the upper half
    have hhalf : (2 * k + 1) / 2 = k := by omega
    have hbit : ((2 * k + 1) % 2 != 0) = true := by rw [Nat.mul_add_mod]; rfl
    unfold ExtendedMantissa.shiftRightOne
    simp only [hhalf, hbit]
    cases round <;> cases sticky <;> simp only [Represents] at h <;> push_cast at h <;>
      simp only [Represents, Bool.or_true, Bool.or_false]
    · linarith
    all_goals constructor <;> linarith

/-- Shifting divides the value by a power of two. -/
theorem Represents.shiftRight {a : ExtendedMantissa} {x : ℚ} (h : Represents a x) (n : Nat) :
    Represents (a >>> n) (x / 2 ^ n) := by
  show Represents (n.repeat ExtendedMantissa.shiftRightOne a) _
  induction n with
  | zero => rwa [pow_zero, div_one]
  | succ n ih =>
    rw [pow_succ, ← div_div]
    exact ih.shiftRightOne

/-- Rounding a mantissa moves its value by one half at most. -/
theorem Represents.abs_rounded_sub_le {a : ExtendedMantissa} {x : ℚ} (h : Represents a x) :
    |(a.roundedMantissa : ℚ) - x| ≤ 1 / 2 := by
  rw [abs_le]
  match a, h with
  | ⟨m, false, false⟩, h =>
    obtain rfl : x = m := h
    show _ ≤ (m : ℚ) - m ∧ (m : ℚ) - m ≤ _
    constructor <;> linarith
  | ⟨m, false, true⟩, ⟨hlow, hhigh⟩ =>
    show _ ≤ (m : ℚ) - x ∧ (m : ℚ) - x ≤ _
    constructor <;> linarith
  | ⟨m, true, false⟩, h =>
    -- a tie goes to the even one of the two mantissas
    obtain rfl : x = m + 1 / 2 := h
    show _ ≤ ((m + m % 2 : Nat) : ℚ) - _ ∧ ((m + m % 2 : Nat) : ℚ) - _ ≤ _
    rcases Nat.mod_two_eq_zero_or_one m with hm | hm
    · rw [hm, Nat.cast_add, Nat.cast_zero]
      constructor <;> linarith
    · rw [hm, Nat.cast_add, Nat.cast_one]
      constructor <;> linarith
  | ⟨m, true, true⟩, ⟨hlow, hhigh⟩ =>
    show _ ≤ ((m + 1 : Nat) : ℚ) - x ∧ ((m + 1 : Nat) : ℚ) - x ≤ _
    rw [Nat.cast_add, Nat.cast_one]
    constructor <;> linarith

/-! ## Rounding -/

/-- The exponent at which a number is rounded. -/
abbrev target (m : Nat) (e : ℤ) : ℤ := format.targetExponent (Float.Model.totalExponent m e)

/-- The leading bit becomes the fifty-third, unless the exponent is the least one. -/
theorem target_eq (m : Nat) (e : ℤ) : target m e = max (m.log2 + 1 + e - 53) (-1074) := rfl

/-- The value of a number within the bits that its logarithm tells. -/
theorem log2_bounds {m : Nat} (hm : 0 < m) (e : ℤ) :
    (2 : ℚ) ^ (m.log2 + e) ≤ m * 2 ^ e ∧ (m : ℚ) * 2 ^ e < 2 ^ (m.log2 + 1 + e) := by
  have hlow : (2 : ℚ) ^ m.log2 ≤ m := by exact_mod_cast Nat.log2_self_le hm.ne'
  have hhigh : (m : ℚ) < 2 ^ (m.log2 + 1) := by exact_mod_cast Nat.lt_log2_self
  have htwo : (2 : ℚ) ≠ 0 := by norm_num
  constructor
  · rw [zpow_add₀ htwo, zpow_natCast]
    exact mul_le_mul_of_nonneg_right hlow (by positivity)
  · rw [zpow_add₀ htwo, show ((m.log2 : ℤ) + 1) = ((m.log2 + 1 : ℕ) : ℤ) by push_cast; rfl,
      zpow_natCast]
    exact mul_lt_mul_of_pos_right hhigh (by positivity)

/-- Shifting up to an exponent keeps the value, in units of the new exponent. -/
theorem represents_shiftToExponent (m : Nat) {e t : ℤ} (h : e ≤ t) :
    (shiftToExponent m e .exact t).2 = t
      ∧ Represents (shiftToExponent m e .exact t).1 (m * 2 ^ e / 2 ^ t) := by
  have hamount : ((t - e).toNat : ℤ) = t - e := Int.toNat_of_nonneg (by omega)
  have hexact : Represents (.ofMantissaAndAccuracy m .exact) m := rfl
  refine ⟨show e + ((t - e).toNat : ℤ) = t by omega, ?_⟩
  have hvalue : (m : ℚ) * 2 ^ e / 2 ^ t = m / 2 ^ (t - e).toNat := by
    rw [← zpow_natCast, hamount, zpow_sub₀ (by norm_num)]
    field_simp
  rw [hvalue]
  exact hexact.shiftRight _

/-- A rounded mantissa may have been carried past fifty-three bits. Shifting it once more leads to
canonical form and keeps the value. -/
theorem shift_carry {r : Nat} {t : ℤ} (hr : r ≤ 2 ^ 53) (ht : -1074 ≤ t)
    (hleading : 2 ^ 52 ≤ r ∨ t = -1074) :
    Canonical (shiftToTargetExponent format r t .exact).1.mantissa
        (shiftToTargetExponent format r t .exact).2
      ∧ ((shiftToTargetExponent format r t .exact).1.mantissa : ℚ)
          * 2 ^ (shiftToTargetExponent format r t .exact).2 = r * 2 ^ t := by
  rcases hr.lt_or_eq with hlt | rfl
  · -- the mantissa has room, and nothing is shifted
    have hlog : r.log2 < 53 := by
      rcases Nat.eq_zero_or_pos r with rfl | hpos
      · decide
      · exact (Nat.log2_lt hpos.ne').mpr hlt
    have htarget := target_eq r t
    have hamount : (target r t - t).toNat = 0 := by omega
    have hshift : shiftToTargetExponent format r t .exact = (⟨r, false, false⟩, t + 0) := by
      unfold shiftToTargetExponent shiftToExponent
      simp only [hamount]
      rfl
    rw [hshift, add_zero]
    exact ⟨⟨hlt, ht, hleading⟩, rfl⟩
  · -- the mantissa is a power of two, and the bit that is shifted out is clear
    have htarget := target_eq (2 ^ 53) t
    rw [Nat.log2_two_pow] at htarget
    have hamount : (target (2 ^ 53) t - t).toNat = 1 := by omega
    have hshift : shiftToTargetExponent format (2 ^ 53) t .exact
        = (⟨2 ^ 52, false, false⟩, t + 1) := by
      unfold shiftToTargetExponent shiftToExponent
      simp only [hamount]
      rfl
    rw [hshift]
    refine ⟨⟨show 2 ^ 52 < 2 ^ 53 by decide, by omega, .inl (le_refl _)⟩, ?_⟩
    rw [zpow_add_one₀ (by norm_num)]
    push_cast
    ring

/-- Rounding the magnitude of a number leads to canonical form and to a nearest value. -/
theorem exists_rounded {m : Nat} {e : ℤ} (hm : 0 < m) (he : e ≤ target m e) :
    ∃ n d, Canonical n d ∧ Nearest (m * 2 ^ e) (n * 2 ^ d) ∧ ∀ s,
      roundWithAccuracy format s m e .exact
        = if h : n = 0 then .zero s else .finite s n d (Nat.pos_of_ne_zero h) := by
  obtain ⟨hexponent, hrepr⟩ := represents_shiftToExponent m he
  obtain ⟨hlow, hhigh⟩ := log2_bounds hm e
  have htarget := target_eq m e
  have hhalf := hrepr.abs_rounded_sub_le
  set a := shiftToExponent m e .exact (target m e) with ha
  set t := target m e with ht
  set r := a.1.roundedMantissa
  have hscale : (0 : ℚ) < 2 ^ t := by positivity
  have hhalf' := abs_le.mp hhalf
  -- the value has at most fifty-three bits in units of the target
  have hr : r ≤ 2 ^ 53 := by
    have hlt : (m : ℚ) * 2 ^ e / 2 ^ t < 2 ^ 53 := by
      rw [div_lt_iff₀ hscale, ← zpow_natCast, ← zpow_add₀ (by norm_num : (2 : ℚ) ≠ 0)]
      exact hhigh.trans_le (zpow_le_zpow_right₀ (by norm_num) (by push_cast; omega))
    have hr' : (r : ℚ) < 2 ^ 53 + 1 := by linarith [hhalf'.2]
    exact Nat.lt_succ_iff.mp (by exact_mod_cast hr')
  -- and no fewer, unless the target is the least one
  have hleast : 2 ^ 52 * (2 : ℚ) ^ t ≤ m * 2 ^ e ∨ t = -1074 := by
    rcases eq_or_ne t (-1074) with hleast | hne
    · exact .inr hleast
    · refine .inl (le_trans (le_of_eq ?_) hlow)
      rw [← zpow_natCast, ← zpow_add₀ (by norm_num : (2 : ℚ) ≠ 0)]
      congr 1
      push_cast
      omega
  -- rounding cannot lead below a whole number that the value is not below
  have hleading : 2 ^ 52 ≤ r ∨ t = -1074 := by
    refine hleast.imp_left fun hle => ?_
    rw [← le_div_iff₀ hscale] at hle
    have hr' : (2 : ℚ) ^ 52 < r + 1 := by linarith [hhalf'.1]
    exact Nat.lt_succ_iff.mp (by exact_mod_cast hr')
  obtain ⟨hcanonical, hvalue⟩ := shift_carry hr (show -1074 ≤ t by omega) hleading
  -- what may be left over is one carry, and that is shifted out without rounding
  refine ⟨_, _, hcanonical, ?_, fun s => ?_⟩
  · rw [hvalue]
    exact nearest_of_le_half (r := r) (by exact_mod_cast hhalf) hleast
  · unfold roundWithAccuracy
    rw [← hexponent]
    rfl

/-- The sign of a value. -/
theorem apply_mul (s : Sign) (m : Nat) (a : ℚ) :
    ((s.apply m : ℤ) : ℚ) * a = (s.apply 1 : ℤ) * (m * a) := by
  cases s with
  | positive =>
    show (((m : ℤ)) : ℚ) * a = ((1 : ℤ) : ℚ) * _
    rw [Int.cast_natCast, Int.cast_one, one_mul]
  | negative =>
    show ((-(m : ℤ) : ℤ) : ℚ) * a = ((-1 : ℤ) : ℚ) * _
    rw [Int.cast_neg, Int.cast_natCast, Int.cast_neg, Int.cast_one, neg_mul, neg_one_mul]

/-- A number in canonical form whose value is nearest to a given one. -/
def IsRounding (q : ℚ) (u : UnpackedFloat) : Prop :=
  IsCanonical u ∧ ∃ p, unpackedValue? u = some p ∧ Nearest q p

/-- A number in canonical form is a rounding of its value. -/
theorem isRounding_self {u : UnpackedFloat} (hu : IsCanonical u) (hp : unpackedValue? u = some p) :
    IsRounding p u :=
  ⟨hu, p, hp, fun y _ => by
    rw [sub_self, abs_zero]
    exact abs_nonneg _⟩

/-- Rounding a number with a sign. -/
theorem isRounding_roundWithAccuracy (s : Sign) {m : Nat} {e : ℤ} (hm : 0 < m)
    (he : e ≤ target m e) :
    IsRounding ((s.apply m : ℤ) * 2 ^ e) (roundWithAccuracy format s m e .exact) := by
  obtain ⟨n, d, hcanonical, hnearest, hround⟩ := exists_rounded hm he
  have hsigned : Nearest ((s.apply m : ℤ) * 2 ^ e) ((s.apply n : ℤ) * 2 ^ d) := by
    rw [apply_mul, apply_mul]
    cases s with
    | positive =>
      show Nearest (((1 : ℤ) : ℚ) * _) (((1 : ℤ) : ℚ) * _)
      rwa [Int.cast_one, one_mul, one_mul]
    | negative =>
      show Nearest (((-1 : ℤ) : ℚ) * _) (((-1 : ℤ) : ℚ) * _)
      rw [Int.cast_neg, Int.cast_one, neg_one_mul, neg_one_mul]
      exact hnearest.neg
  rw [hround]
  split
  · next hzero =>
    subst hzero
    refine ⟨trivial, 0, rfl, ?_⟩
    have happly : s.apply (0 : ℕ) = 0 := by cases s <;> rfl
    rwa [happly, Int.cast_zero, zero_mul] at hsigned
  · exact ⟨hcanonical, _, rfl, hsigned⟩

/-- Lowering the exponent keeps the value. -/
theorem decreaseExponent_value (m : Nat) (e t : ℤ) :
    ((decreaseExponent m e t).1 : ℚ) * 2 ^ (decreaseExponent m e t).2 = m * 2 ^ e := by
  show ((m <<< (e - t).toNat : ℕ) : ℚ) * 2 ^ (e - (e - t).toNat) = _
  rw [Nat.shiftLeft_eq, Nat.cast_mul, Nat.cast_pow, Nat.cast_ofNat, mul_assoc, ← zpow_natCast,
    ← zpow_add₀ (by norm_num : (2 : ℚ) ≠ 0), add_sub_cancel]

/-- Lowering the exponent keeps the value of a number with a sign. -/
theorem apply_decreaseExponent (s : Sign) (m : Nat) (e t : ℤ) :
    ((s.apply (decreaseExponent m e t).1 : ℤ) : ℚ) * 2 ^ (decreaseExponent m e t).2
      = (s.apply m : ℤ) * 2 ^ e := by
  rw [apply_mul, apply_mul, decreaseExponent_value]

/-- Lowering the exponent leads to the lower one. -/
theorem decreaseExponent_snd (m : Nat) {e t : ℤ} (h : t ≤ e) : (decreaseExponent m e t).2 = t := by
  show e - ((e - t).toNat : ℤ) = t
  omega

/-- Numbers are rounded at an exponent that their values tell. -/
theorem target_decreaseExponent {m : Nat} (hm : 0 < m) (e t : ℤ) :
    target (decreaseExponent m e t).1 (decreaseExponent m e t).2 = target m e := by
  -- what the exponent loses the logarithm of the mantissa gains
  have hlog : ∀ k : Nat, (m <<< k).log2 = m.log2 + k := fun k => by
    rw [Nat.shiftLeft_eq, Nat.log2_eq_iff (Nat.mul_pos hm (Nat.two_pow_pos k)).ne', pow_add,
      show m.log2 + k + 1 = m.log2 + 1 + k by omega, pow_add]
    exact ⟨Nat.mul_le_mul_right _ (Nat.log2_self_le hm.ne'),
      Nat.mul_lt_mul_of_pos_right Nat.lt_log2_self (Nat.two_pow_pos k)⟩
  rw [target_eq, target_eq]
  show max (((m <<< (e - t).toNat).log2 : ℤ) + 1 + (e - (e - t).toNat) - 53) _ = _
  rw [hlog]
  congr 1
  push_cast
  ring

/-- Rounding a number with any exponent. -/
theorem isRounding_round (s : Sign) {m : Nat} (hm : 0 < m) (e : ℤ) :
    IsRounding ((s.apply m : ℤ) * 2 ^ e) (UnpackedFloat.round format s m e) := by
  have htarget := target_decreaseExponent hm e (target m e)
  have hpos : 0 < (decreaseExponent m e (target m e)).1 := by
    show 0 < m <<< _
    rw [Nat.shiftLeft_eq]
    positivity
  have hle : (decreaseExponent m e (target m e)).2 ≤ target m e := by
    show e - ((e - target m e).toNat : ℤ) ≤ _
    omega
  have hrounding := isRounding_roundWithAccuracy s hpos (hle.trans_eq htarget.symm)
  rwa [apply_decreaseExponent] at hrounding

/-- Zero is a rounding of itself. -/
theorem isRounding_zero (s : Sign) : IsRounding 0 (.zero s) := isRounding_self trivial rfl

/-- Rounding a whole number of units. -/
theorem isRounding_normalize (n : ℤ) (e : ℤ) (s : Sign) :
    IsRounding (n * 2 ^ e) (UnpackedFloat.normalize format n e s) := by
  unfold UnpackedFloat.normalize
  rcases lt_trichotomy n 0 with hneg | rfl | hpos
  · rw [Int.compare_eq_lt.mpr hneg]
    have hrounding := isRounding_round .negative (show 0 < (-n).toNat by omega) e
    rwa [show Sign.negative.apply ((-n).toNat : ℤ) = n by simp only [Sign.apply]; omega]
      at hrounding
  · rw [Int.compare_eq_eq.mpr rfl, Int.cast_zero, zero_mul]
    exact isRounding_zero s
  · rw [Int.compare_eq_gt.mpr hpos]
    have hrounding := isRounding_round .positive (show 0 < n.toNat by omega) e
    rwa [show Sign.positive.apply (n.toNat : ℤ) = n by simp only [Sign.apply]; omega]
      at hrounding

/-! ## Operations -/

variable {u v : UnpackedFloat}

/-- Sums are rounded to a nearest value. -/
theorem isRounding_add (hu : IsCanonical u) (hv : IsCanonical v) (hp : unpackedValue? u = some p)
    (hq : unpackedValue? v = some q) : IsRounding (p + q) (UnpackedFloat.add format u v) := by
  cases u with
  | infinity | notANumber => cases hp
  | zero s =>
    cases hp
    cases v with
    | infinity | notANumber => cases hq
    | zero s' =>
      cases hq
      rw [add_zero]
      show IsRounding 0 (if _ then _ else _)
      -- two zeros of either sign add up to a zero
      split <;> exact isRounding_zero _
    | finite s' n d hn =>
      rw [zero_add]
      exact isRounding_self hv hq
  | finite s m e hm =>
    cases v with
    | infinity | notANumber => cases hq
    | zero s' =>
      cases hq
      rw [add_zero]
      exact isRounding_self hu hp
    | finite s' n d hn =>
      cases hp
      cases hq
      -- in units of the smaller exponent the sum is a whole number
      have hfirst := apply_decreaseExponent s m e (min e d)
      have hsecond := apply_decreaseExponent s' n d (min e d)
      rw [decreaseExponent_snd m (min_le_left e d)] at hfirst
      rw [decreaseExponent_snd n (min_le_right e d)] at hsecond
      rw [← hfirst, ← hsecond, ← add_mul, ← Int.cast_add]
      exact isRounding_normalize _ _ _

/-- A difference is a sum. -/
theorem sub_eq_add (u v : UnpackedFloat) :
    UnpackedFloat.sub format u v = UnpackedFloat.add format u v.neg := by
  have happly : ∀ (s : Sign) (n : ℤ), (-s).apply n = -s.apply n := fun s n => by
    cases s with
    | positive => rfl
    | negative => exact (neg_neg n).symm
  cases u <;> cases v <;> try rfl
  case finite.finite s m e hm s' n d hn =>
    unfold UnpackedFloat.sub UnpackedFloat.add UnpackedFloat.neg
    simp only [happly, Int.sub_eq_add_neg]

/-- The value of a negated number. -/
theorem unpackedValue?_neg (u : UnpackedFloat) :
    unpackedValue? u.neg = (unpackedValue? u).map Neg.neg := by
  cases u with
  | infinity | notANumber => rfl
  | zero => exact congrArg some neg_zero.symm
  | finite s m e hm =>
    refine congrArg some ?_
    cases s with
    | positive =>
      show ((-(m : ℤ) : ℤ) : ℚ) * _ = -(((m : ℤ) : ℚ) * _)
      rw [Int.cast_neg, neg_mul]
    | negative =>
      show ((m : ℤ) : ℚ) * _ = -(((-(m : ℤ) : ℤ) : ℚ) * _)
      rw [Int.cast_neg, neg_mul, neg_neg]

/-- Differences are rounded to a nearest value. -/
theorem isRounding_sub (hu : IsCanonical u) (hv : IsCanonical v) (hp : unpackedValue? u = some p)
    (hq : unpackedValue? v = some q) : IsRounding (p - q) (UnpackedFloat.sub format u v) := by
  have hneg : IsCanonical v.neg := by
    cases v with
    | finite => exact hv
    | _ => trivial
  rw [sub_eq_add, sub_eq_add_neg]
  exact isRounding_add hu hneg hp (by rw [unpackedValue?_neg, hq]; rfl)

/-- A product is rounded at an exponent that is high enough. -/
theorem Canonical.add_le_target {m n : Nat} {e d : ℤ} (hm : Canonical m e) (hn : Canonical n d)
    (hpos : 0 < m) (hpos' : 0 < n) : e + d ≤ target (m * n) (e + d) := by
  have htarget := target_eq (m * n) (e + d)
  have hlog : 2 ^ 52 ≤ m ∨ 2 ^ 52 ≤ n → 52 ≤ (m * n).log2 := fun h => by
    refine (Nat.le_log2 (Nat.mul_pos hpos hpos').ne').mpr ?_
    rcases h with h | h
    · exact h.trans (Nat.le_mul_of_pos_right m hpos')
    · exact h.trans (Nat.le_mul_of_pos_left n hpos)
  -- one mantissa with all its bits is enough, and without one both exponents are the least
  rcases hm.leading with h | he
  · have := hlog (.inl h)
    omega
  · rcases hn.leading with h | hd
    · have := hlog (.inr h)
      omega
    · omega

/-- Products are rounded to a nearest value. -/
theorem isRounding_mul (hu : IsCanonical u) (hv : IsCanonical v) (hp : unpackedValue? u = some p)
    (hq : unpackedValue? v = some q) : IsRounding (p * q) (UnpackedFloat.mul format u v) := by
  cases u with
  | infinity | notANumber => cases hp
  | zero s =>
    cases hp
    rw [zero_mul]
    cases v with
    | infinity | notANumber => cases hq
    | zero | finite => exact isRounding_zero _
  | finite s m e hm =>
    cases v with
    | infinity | notANumber => cases hq
    | zero s' =>
      cases hq
      rw [mul_zero]
      exact isRounding_zero _
    | finite s' n d hn =>
      cases hp
      cases hq
      -- signs multiply as the numbers do
      have hsign : (s * s').apply (m * n : ℕ) = s.apply m * s'.apply n := by
        rw [Nat.cast_mul]
        cases s with
        | positive =>
          cases s' with
          | positive => rfl
          | negative => exact (mul_neg _ _).symm
        | negative =>
          cases s' with
          | positive => exact (neg_mul _ _).symm
          | negative => exact (neg_mul_neg _ _).symm
      have hrounding := isRounding_roundWithAccuracy (s * s') (Nat.mul_pos hm hn)
        (Canonical.add_le_target hu hv hm hn)
      rwa [hsign, Int.cast_mul, zpow_add₀ (by norm_num), mul_mul_mul_comm] at hrounding

/-! ## Results that do not overflow -/

/-- The magnitude of a whole number with a sign. -/
theorem abs_apply (s : Sign) (m : Nat) : |s.apply m| = m := by
  cases s with
  | positive => exact abs_of_nonneg (Int.natCast_nonneg m)
  | negative => exact (abs_neg _).trans (abs_of_nonneg (Int.natCast_nonneg m))

/-- The magnitude of a number with a sign. -/
theorem abs_apply_mul (s : Sign) (m : Nat) (e : ℤ) :
    |((s.apply m : ℤ) : ℚ) * 2 ^ e| = m * 2 ^ e := by
  rw [abs_mul, abs_of_pos (zpow_pos (by norm_num : (0 : ℚ) < 2) e), ← Int.cast_abs, abs_apply,
    Int.cast_natCast]

/-- A number in canonical form can be held. -/
theorem representable_of_value (hu : IsCanonical u) (hp : unpackedValue? u = some p) :
    Representable p := by
  cases u with
  | infinity | notANumber => cases hp
  | zero =>
    cases hp
    exact_mod_cast representable_intCast (n := 0) (by decide)
  | finite s m e hm =>
    cases hp
    refine ⟨s.apply m, e, ?_, hu.le, rfl⟩
    rw [abs_apply]
    exact_mod_cast le_of_lt hu.lt

/-- A number that fits is not close to the power of two at which the format ends. -/
theorem abs_value_add_lt (hu : Fits u) (hp : unpackedValue? u = some p) :
    |p| + 2 < 2 ^ 1024 := by
  have hscale : (2 : ℚ) < 2 ^ 971 := lt_self_pow₀ (by norm_num) (by norm_num)
  -- the largest number is one unit of its last place below the end, and that unit is far above two
  have htop : (2 : ℚ) ^ 1024 = (2 ^ 53 - 1) * 2 ^ 971 + 2 ^ 971 := by
    rw [sub_mul, one_mul, sub_add_cancel]
    exact pow_add 2 53 971
  have hmantissa : (0 : ℚ) ≤ 2 ^ 53 - 1 := by norm_num
  cases u with
  | infinity | notANumber => cases hp
  | zero =>
    cases hp
    rw [abs_zero, htop]
    exact add_lt_add_of_le_of_lt (mul_nonneg hmantissa (by positivity)) hscale
  | finite s m e hm =>
    obtain ⟨hcanonical, hhigh⟩ := hu
    cases hp
    have hm' : (m : ℚ) ≤ 2 ^ 53 - 1 := by
      rw [le_sub_iff_add_le]
      exact_mod_cast hcanonical.lt
    have hpower : (2 : ℚ) ^ e ≤ 2 ^ 971 := by
      rw [← zpow_natCast]
      exact zpow_le_zpow_right₀ (by norm_num) hhigh
    rw [abs_apply_mul, htop]
    exact add_lt_add_of_le_of_lt (mul_le_mul hm' hpower (by positivity) hmantissa) hscale

/-- A number in canonical form fits if its value is not too great. -/
theorem fits_of_value_lt (hu : IsCanonical u) (hp : unpackedValue? u = some p)
    (h : |p| < 2 ^ 1024) : Fits u := by
  cases u with
  | finite s m e hm =>
    refine ⟨hu, ?_⟩
    -- with a greater exponent the mantissa has all its bits, and the number reaches the power
    by_contra hhigh
    cases hp
    have hleading : (2 : ℚ) ^ 52 ≤ m := by
      exact_mod_cast hu.leading.resolve_right (by omega)
    rw [abs_apply_mul] at h
    refine absurd h (not_lt_of_ge ?_)
    calc (2 : ℚ) ^ 1024 = (2 : ℚ) ^ 52 * (2 : ℚ) ^ 972 := (pow_add 2 52 972)
      _ = (2 : ℚ) ^ 52 * (2 : ℚ) ^ (972 : ℤ) := by rw [← zpow_natCast 2 972, Nat.cast_ofNat]
      _ ≤ (m : ℚ) * 2 ^ e := mul_le_mul hleading
          (zpow_le_zpow_right₀ (by norm_num) (by omega)) (by positivity) (by positivity)
  | _ => trivial

/-- A number is packed from a rounding of a value; it is infinite if the rounding is too great. -/
def Rounds (q : ℚ) (x : Float) : Prop := ∃ u, x = .ofModel (.pack u) ∧ IsRounding q u

variable {x z : Float}

/-- A rounding that cannot be too great has a value nearest to the one that was rounded. -/
theorem Rounds.exists_value (h : Rounds q x) (hy : Representable y)
    (hsmall : |y - q| + |q| < 2 ^ 1024) : ∃ p, value? x = some p ∧ Nearest q p := by
  obtain ⟨u, rfl, hcanonical, p, hp, hnearest⟩ := h
  refine ⟨p, ?_, hnearest⟩
  rw [value?_pack (fits_of_value_lt hcanonical hp ?_), hp]
  calc |p| = |(p - q) + q| := by rw [sub_add_cancel]
    _ ≤ |p - q| + |q| := abs_add_le _ _
    _ ≤ |y - q| + |q| := add_le_add_left (hnearest y hy) _
    _ < 2 ^ 1024 := hsmall

/-- A value that can be held and is not too great is kept. -/
theorem Rounds.value (h : Rounds q x) (hq : Representable q) (hsmall : |q| < 2 ^ 1024) :
    value? x = some q := by
  obtain ⟨p, hp, hnearest⟩ := h.exists_value hq (by rwa [sub_self, abs_zero, zero_add])
  rw [hp, hnearest.eq hq]

/-- A rounding is defined. -/
theorem Rounds.isNaN (h : Rounds q x) : Scalar.isNaN x = false := by
  obtain ⟨u, rfl, hcanonical, p, hp, -⟩ := h
  cases u with
  | infinity | notANumber => cases hp
  | zero s => exact isNaN_of_value (value?_pack (u := .zero s) trivial)
  | finite s m e hm =>
    rcases le_or_gt e 971 with hle | hgt
    · exact isNaN_of_value (value?_pack (u := .finite s m e hm) ⟨hcanonical, hle⟩)
    · -- the exponent is too great
      have hpack : UnpackedFloat.pack format (.finite s m e hm)
          = UnpackedFloat.pack format (.infinity s) := by
        unfold UnpackedFloat.pack
        exact if_pos (show 2 ^ 11 ≤ (e + 1023 + 52).toNat + 1 by omega)
      show (UnpackedFloat.unpack format (UnpackedFloat.pack format _)).isNaN = false
      rw [hpack, unpack_pack (u := .infinity s) trivial]
      rfl

/-- Sums are rounded. -/
theorem rounds_add (hx : value? x = some p) (hz : value? z = some q) : Rounds (p + q) (x + z) :=
  ⟨_, rfl, isRounding_add (fits x).isCanonical (fits z).isCanonical hx hz⟩

/-- Differences are rounded. -/
theorem rounds_sub (hx : value? x = some p) (hz : value? z = some q) : Rounds (p - q) (x - z) :=
  ⟨_, rfl, isRounding_sub (fits x).isCanonical (fits z).isCanonical hx hz⟩

/-- Products are rounded. -/
theorem rounds_mul (hx : value? x = some p) (hz : value? z = some q) : Rounds (p * q) (x * z) :=
  ⟨_, rfl, isRounding_mul (fits x).isCanonical (fits z).isCanonical hx hz⟩

end BranchBound.Binary64
