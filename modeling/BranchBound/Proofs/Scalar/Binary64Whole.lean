import BranchBound.Proofs.Scalar.Binary64Rounding
import BranchBound.Proofs.Scalar.Discrete

/-! # Whole binary floating-point numbers

Clearing the bits of a mantissa that count less than one takes the fraction off a number, and
from there the nearest whole number on either side is found exactly.

* **`Binary64.unpack_word`** — the parts of a number, read off its bits.
* **`Binary64.exists_value_truncate`** — clearing bits takes the fraction off.
* **`Binary64.value?_floor`**, **`Binary64.value?_ceil`** — the whole numbers on either side. -/

namespace BranchBound.Binary64

open Float.Model (UnpackedFloat)
open Float.Model.UnpackedFloat (Sign)

/-! ## Clearing bits -/

/-- Masking the high bits of a word clears the low ones. -/
theorem and_high_bits {n k : Nat} (hn : n < 2 ^ 64) (hk : k ≤ 64) :
    n &&& (2 ^ 64 - 2 ^ k) = n / 2 ^ k * 2 ^ k := by
  have hpos := Nat.two_pow_pos k
  have hle : 2 ^ k ≤ 2 ^ 64 := Nat.pow_le_pow_right (by decide) hk
  refine Nat.eq_of_testBit_eq fun i => ?_
  rw [Nat.testBit_and, show 2 ^ 64 - 2 ^ k = 2 ^ 64 - (2 ^ k - 1 + 1) by omega,
    Nat.testBit_two_pow_sub_succ (by omega), Nat.testBit_two_pow_sub_one, Nat.testBit_mul_two_pow,
    Nat.testBit_div_two_pow]
  -- the mask has the bits from `k` up to the length of the word
  rcases Nat.lt_or_ge i k with hlow | hhigh
  · simp [hlow]
  · rcases Nat.lt_or_ge i 64 with hin | hout
    · simp [hin, hhigh]
    · simp [Nat.testBit_lt_two_pow (hn.trans_le (Nat.pow_le_pow_right (by decide) hout)), hhigh]

/-- Clearing low bits keeps what stands above them. -/
theorem clear_div (n : Nat) {k j : Nat} (h : k ≤ j) : n / 2 ^ k * 2 ^ k / 2 ^ j = n / 2 ^ j := by
  obtain ⟨i, rfl⟩ := Nat.exists_eq_add_of_le h
  rw [pow_add, ← Nat.div_div_eq_div_mul, Nat.mul_div_cancel _ (Nat.two_pow_pos k),
    Nat.div_div_eq_div_mul]

/-- Clearing low bits of a part clears them in it. -/
theorem clear_mod (n : Nat) {k j : Nat} (h : k ≤ j) :
    n / 2 ^ k * 2 ^ k % 2 ^ j = n % 2 ^ j / 2 ^ k * 2 ^ k := by
  obtain ⟨i, rfl⟩ := Nat.exists_eq_add_of_le h
  rw [pow_add, Nat.mod_mul_right_div_self, Nat.mul_comm (2 ^ k) (2 ^ i), Nat.mul_mod_mul_right]

/-! ## The parts of a word -/

/-- The sign that a sign bit stands for. -/
def signOf (n : Nat) : Sign := if n = 0 then .positive else .negative

/-- The parts of a number, read off a word. -/
theorem unpack_word (w : UInt64) : UnpackedFloat.unpack format w.toBitVec
    = ofParts (signOf (w.toNat / 2 ^ 63)) (w.toNat / 2 ^ 52 % 2 ^ 11) (w.toNat % 2 ^ 52) := by
  have hsign : Sign.ofBitVec (@UnpackedFloat.unpackSign format w.toBitVec)
      = signOf (w.toNat / 2 ^ 63) := by
    have hbit : (@UnpackedFloat.unpackSign format w.toBitVec).toNat
        = w.toNat / 2 ^ 63 := by
      show w.toNat >>> 63 % 2 ^ 1 = _
      rw [Nat.shiftRight_eq_div_pow]
      have := w.toNat_lt
      omega
    unfold Sign.ofBitVec signOf
    rw [← hbit]
    congr 1
    rw [← BitVec.toNat_inj]
    rfl
  have hexponent : (@UnpackedFloat.unpackExponent format w.toBitVec).toNat
      = w.toNat / 2 ^ 52 % 2 ^ 11 := by
    show w.toNat >>> 52 % 2 ^ 11 = _
    rw [Nat.shiftRight_eq_div_pow]
  rw [unpack_eq_ofParts, hsign, hexponent]
  rfl

/-- Reading a word as a number keeps its parts. -/
theorem unpack_ofBits (w : UInt64) :
    (Float.ofBits w).toModel.unpack = UnpackedFloat.unpack format w.toBitVec :=
  unpack_pack (fits_unpack _)

/-- The mantissa that the stored part of one stands for. -/
def significand (e m : Nat) : Nat := if e = 0 then m else 2 ^ 52 + m

/-- The value of parts. -/
theorem unpackedValue?_ofParts (s : Sign) {e : Nat} (m : Nat) (he : e ≠ 2047) :
    unpackedValue? (ofParts s e m)
      = some (((s.apply (significand e m) : ℤ) : ℚ) * 2 ^ (((max e 1 : Nat) : ℤ) - 1075)) := by
  unfold ofParts significand
  rw [if_neg he]
  split
  · next hzero =>
    subst hzero
    split
    · next hm =>
      have happly : s.apply (m : ℕ) = 0 := by
        subst hm
        cases s <;> rfl
      rw [happly, Int.cast_zero, zero_mul]
      rfl
    · rfl
  · next hpos =>
    rw [max_eq_left (Nat.one_le_iff_ne_zero.mpr hpos)]
    rfl

/-- Infinities and undefined numbers have no value. -/
theorem unpackedValue?_ofParts_top (s : Sign) (m : Nat) :
    unpackedValue? (ofParts s 2047 m) = none := by
  unfold ofParts
  rw [if_pos rfl]
  split <;> rfl

/-- The biased exponent of a number. -/
theorem toNat_biasedExponent (x : Float) :
    (biasedExponent x).toNat = x.toBits.toNat / 2 ^ 52 % 2 ^ 11 := by
  unfold biasedExponent
  rw [UInt64.toNat_and, UInt64.toNat_shiftRight, Nat.shiftRight_eq_div_pow]
  exact Nat.and_two_pow_sub_one_eq_mod _ 11

/-- The stored part of the mantissa of a number. -/
theorem toNat_storedMantissa (x : Float) : (storedMantissa x).toNat = x.toBits.toNat % 2 ^ 52 := by
  unfold storedMantissa
  rw [UInt64.toNat_and]
  exact Nat.and_two_pow_sub_one_eq_mod _ 52

/-- The sign of a number. -/
def sign (x : Float) : Sign := signOf (x.toBits.toNat / 2 ^ 63)

variable {x : Float} {p : ℚ}

/-- The parts of a number. -/
theorem unpack_eq (x : Float) :
    x.toModel.unpack = ofParts (sign x) (biasedExponent x).toNat (storedMantissa x).toNat := by
  rw [toNat_biasedExponent, toNat_storedMantissa]
  exact unpack_word x.toBits

/-! ## Taking the fraction off -/

/-- A whole number is a value without its fraction. -/
structure Truncates (p : ℚ) (n : ℤ) : Prop where
  /-- It is one of the two whole numbers next to the value. -/
  between : (n ≤ p ∧ p < n + 1) ∨ (n - 1 < p ∧ p ≤ n)
  /-- It is not great unless the value is whole. -/
  small : (n : ℚ) = p ∨ |n| < 2 ^ 52

/-- Taking the fraction off a magnitude takes it off the number. -/
theorem truncates_apply (s : Sign) {m n : Nat} {a : ℚ} (hlow : n ≤ m * a) (hhigh : m * a < n + 1)
    (hsmall : n = m * a ∨ n < 2 ^ 52) : Truncates ((s.apply m : ℤ) * a) (s.apply n) := by
  have hcast := apply_mul s n 1
  rw [mul_one, mul_one] at hcast
  rw [apply_mul]
  constructor
  · rw [hcast]
    cases s with
    | positive =>
      refine .inl ?_
      rw [Sign.apply, Int.cast_one]
      constructor <;> linarith
    | negative =>
      refine .inr ?_
      rw [Sign.apply, Int.cast_neg, Int.cast_one]
      constructor <;> linarith
  · rcases hsmall with heq | hlt
    · exact .inl (by rw [hcast, heq])
    · exact .inr (by rw [abs_apply]; exact_mod_cast hlt)

/-- A magnitude below one is nothing but a fraction. -/
theorem truncates_zero (s : Sign) {m : Nat} {d : ℤ} (hm : m < 2 ^ 53) (hd : d ≤ -53) :
    Truncates ((s.apply m : ℤ) * 2 ^ d) 0 := by
  have hlt : (m : ℚ) * 2 ^ d < 1 := by
    calc (m : ℚ) * 2 ^ d ≤ m * 2 ^ (-53 : ℤ) := mul_le_mul_of_nonneg_left
          (zpow_le_zpow_right₀ (by norm_num) hd) (Nat.cast_nonneg m)
      _ < 2 ^ 53 * 2 ^ (-53 : ℤ) :=
          mul_lt_mul_of_pos_right (by exact_mod_cast hm) (by positivity)
      _ = 1 := by norm_num
  have hzero : s.apply (0 : ℕ) = 0 := by cases s <;> rfl
  rw [← hzero]
  refine truncates_apply s ?_ ?_ (.inr (by decide))
  · rw [Nat.cast_zero]
    positivity
  · rwa [Nat.cast_zero, zero_add]

/-- A number whose exponent is not negative is whole. -/
theorem exists_whole (n : ℤ) {d : ℤ} (hd : 0 ≤ d) : ∃ k : ℤ, (n : ℚ) * 2 ^ d = k := by
  obtain ⟨i, rfl⟩ := Int.eq_ofNat_of_zero_le hd
  exact ⟨n * 2 ^ i, by push_cast; rfl⟩

/-- Clearing the bits below a power of two takes the fraction off. -/
theorem truncates_div (s : Sign) {m k : Nat} (hm : m < 2 ^ 53) (hk : 1 ≤ k) :
    Truncates ((s.apply m : ℤ) * (2 ^ k)⁻¹) (s.apply (m / 2 ^ k : ℕ)) := by
  have hpos : (0 : ℚ) < 2 ^ k := by positivity
  refine truncates_apply s ?_ ?_ (.inr ?_)
  · rw [← div_eq_mul_inv, le_div_iff₀ hpos]
    exact_mod_cast Nat.div_mul_le_self m (2 ^ k)
  · rw [← div_eq_mul_inv, div_lt_iff₀ hpos]
    exact_mod_cast Nat.lt_mul_of_div_lt (Nat.lt_succ_self (m / 2 ^ k)) (Nat.two_pow_pos k)
  · refine Nat.div_lt_of_lt_mul (hm.trans_le ?_)
    rw [← pow_add]
    exact Nat.pow_le_pow_right (by decide) (by omega)

/-- Clearing the bits of a mantissa that count less than one takes the fraction off. -/
theorem exists_truncates_ofParts (s : Sign) {e m : Nat} (hm : m < 2 ^ 52) (hlow : 1023 ≤ e)
    (hhigh : e < 1075) : ∃ n : ℤ,
      unpackedValue? (ofParts s e (m / 2 ^ (1075 - e) * 2 ^ (1075 - e))) = some (n : ℚ)
        ∧ ∀ p, unpackedValue? (ofParts s e m) = some p → Truncates p n := by
  obtain ⟨k, hk⟩ : ∃ k, k = 1075 - e := ⟨_, rfl⟩
  -- the last bit of the mantissa counts `1 / 2 ^ k`
  have hscale : (2 : ℚ) ^ (((max e 1 : Nat) : ℤ) - 1075) = (2 ^ k)⁻¹ := by
    rw [← zpow_natCast, ← zpow_neg]
    congr 1
    omega
  -- the leading bit counts at least one, so it is not cleared
  have hclear : 2 ^ 52 + m / 2 ^ k * 2 ^ k = (2 ^ 52 + m) / 2 ^ k * 2 ^ k := by
    rw [show 2 ^ 52 = 2 ^ (52 - k) * 2 ^ k by rw [← pow_add]; congr 1; omega,
      Nat.add_comm (2 ^ (52 - k) * 2 ^ k) m, Nat.add_mul_div_right _ _ (Nat.two_pow_pos k),
      Nat.add_mul, Nat.add_comm]
  have hfinite : e ≠ 2047 := by omega
  have hpositive : e ≠ 0 := by omega
  refine ⟨s.apply ((2 ^ 52 + m) / 2 ^ k : ℕ), ?_, fun p hp => ?_⟩
  · rw [unpackedValue?_ofParts _ _ hfinite, significand, if_neg hpositive, hscale, ← hk, hclear,
      apply_mul, Nat.cast_mul, Nat.cast_pow, Nat.cast_ofNat, mul_assoc,
      mul_inv_cancel₀ (by positivity), ← apply_mul, mul_one]
  · rw [unpackedValue?_ofParts _ _ hfinite, significand, if_neg hpositive, hscale,
      Option.some.injEq] at hp
    rw [← hp]
    exact truncates_div s (by omega) (by omega)

/-- The mask of the bits that count at least one. -/
theorem toNat_mask {e : UInt64} (hlow : 1023 ≤ e.toNat) (hhigh : e.toNat < 1075) :
    (~~~((1 <<< (1075 - e)) - 1) : UInt64).toNat = 2 ^ 64 - 2 ^ (1075 - e.toNat) := by
  have hcount : (1075 - e).toNat = 1075 - e.toNat :=
    UInt64.toNat_sub_of_le _ _ (UInt64.le_iff_toNat_le.mpr (le_of_lt hhigh))
  have hlt : 2 ^ (1075 - e.toNat) < 2 ^ 64 := Nat.pow_lt_pow_right (by decide) (by omega)
  have hpower : (1 <<< (1075 - e) : UInt64).toNat = 2 ^ (1075 - e.toNat) := by
    rw [UInt64.toNat_shiftLeft, hcount, Nat.mod_eq_of_lt (show 1075 - e.toNat < 64 by omega)]
    show 1 <<< _ % _ = _
    rw [Nat.one_shiftLeft, Nat.mod_eq_of_lt hlt]
  have hpos := Nat.two_pow_pos (1075 - e.toNat)
  have hone : (1 : UInt64) ≤ 1 <<< (1075 - e) := by
    rw [UInt64.le_iff_toNat_le, hpower]
    exact hpos
  have hpred : ((1 <<< (1075 - e) : UInt64) - 1).toNat = 2 ^ (1075 - e.toNat) - 1 := by
    rw [UInt64.toNat_sub_of_le _ _ hone, hpower]
    rfl
  rw [UInt64.toNat_not, hpred]
  show 2 ^ 64 - 1 - _ = _
  omega

/-- Below one nothing is left without the fraction. -/
theorem value?_truncate_of_lt (hlow : biasedExponent x < 1023) : value? (truncate x) = some 0 := by
  have hword : (x.toBits &&& 0x8000000000000000).toNat = x.toBits.toNat / 2 ^ 63 * 2 ^ 63 := by
    rw [UInt64.toNat_and]
    exact and_high_bits x.toBits.toNat_lt (show 63 ≤ 64 by decide)
  have hexponent : x.toBits.toNat / 2 ^ 63 * 2 ^ 63 / 2 ^ 52 % 2 ^ 11 = 0 := by omega
  have hmantissa : x.toBits.toNat / 2 ^ 63 * 2 ^ 63 % 2 ^ 52 = 0 := by omega
  unfold truncate value?
  simp only [if_pos hlow]
  rw [unpack_ofBits, unpack_word, hword, hexponent, hmantissa]
  rfl

/-- At a middle exponent the low bits of the mantissa are cleared. -/
theorem value?_truncate_of_between (hlow : ¬ biasedExponent x < 1023)
    (hhigh : biasedExponent x < 1075) : value? (truncate x)
      = unpackedValue? (ofParts (sign x) (biasedExponent x).toNat
        ((storedMantissa x).toNat / 2 ^ (1075 - (biasedExponent x).toNat)
          * 2 ^ (1075 - (biasedExponent x).toNat))) := by
  have hge : 1023 ≤ (biasedExponent x).toNat :=
    Nat.le_of_not_lt fun h => hlow (UInt64.lt_iff_toNat_lt.mpr h)
  have hlt : (biasedExponent x).toNat < 1075 := UInt64.lt_iff_toNat_lt.mp hhigh
  have hword : (x.toBits &&& ~~~((1 <<< (1075 - biasedExponent x)) - 1)).toNat
      = x.toBits.toNat / 2 ^ (1075 - (biasedExponent x).toNat)
        * 2 ^ (1075 - (biasedExponent x).toNat) := by
    rw [UInt64.toNat_and, toNat_mask hge hlt]
    exact and_high_bits x.toBits.toNat_lt (by omega)
  unfold truncate value?
  simp only [if_neg hlow, if_pos hhigh]
  rw [unpack_ofBits, unpack_word, hword, clear_div _ (by omega), clear_div _ (by omega),
    clear_mod _ (by omega), ← toNat_biasedExponent, ← toNat_storedMantissa]
  rfl

/-- At a high exponent the number stays as it is. -/
theorem truncate_of_ge (hhigh : ¬ biasedExponent x < 1075) : truncate x = x := by
  have hlow : ¬ biasedExponent x < 1023 := fun h =>
    hhigh (UInt64.lt_trans h (by decide))
  unfold truncate
  simp only [if_neg hlow, if_neg hhigh]

/-- A finite number without its fraction is a whole number. -/
theorem exists_value_truncate (hx : value? x = some p) :
    ∃ n : ℤ, value? (truncate x) = some (n : ℚ) ∧ Truncates p n := by
  -- the number is taken apart into its exponent and its stored mantissa
  have hm : (storedMantissa x).toNat < 2 ^ 52 := by
    rw [toNat_storedMantissa]
    exact Nat.mod_lt _ (Nat.two_pow_pos 52)
  have hparts : unpackedValue? (ofParts (sign x) (biasedExponent x).toNat
      (storedMantissa x).toNat) = some p := by
    rw [← unpack_eq]
    exact hx
  have hfinite : (biasedExponent x).toNat ≠ 2047 := fun htop => by
    rw [htop, unpackedValue?_ofParts_top] at hparts
    cases hparts
  have hvalue := hparts
  rw [unpackedValue?_ofParts _ _ hfinite, Option.some.injEq] at hvalue
  by_cases hlow : biasedExponent x < 1023
  · -- the magnitude is below one
    have hlt : (biasedExponent x).toNat < 1023 := UInt64.lt_iff_toNat_lt.mp hlow
    refine ⟨0, by rw [value?_truncate_of_lt hlow, Int.cast_zero], ?_⟩
    rw [← hvalue]
    refine truncates_zero (sign x) ?_ (by omega)
    unfold significand
    split <;> omega
  · have hge : 1023 ≤ (biasedExponent x).toNat :=
      Nat.le_of_not_lt fun h => hlow (UInt64.lt_iff_toNat_lt.mpr h)
    by_cases hhigh : biasedExponent x < 1075
    · -- some bits count less than one
      have hlt : (biasedExponent x).toNat < 1075 := UInt64.lt_iff_toNat_lt.mp hhigh
      obtain ⟨n, hn, htruncates⟩ := exists_truncates_ofParts (sign x) hm hge hlt
      exact ⟨n, by rw [value?_truncate_of_between hlow hhigh, hn], htruncates p hparts⟩
    · -- the number is whole
      have hle : 1075 ≤ (biasedExponent x).toNat :=
        Nat.le_of_not_lt fun h => hhigh (UInt64.lt_iff_toNat_lt.mpr h)
      obtain ⟨n, hn⟩ := exists_whole
        ((sign x).apply (significand (biasedExponent x).toNat (storedMantissa x).toNat))
        (show (0 : ℤ) ≤ ((max (biasedExponent x).toNat 1 : Nat) : ℤ) - 1075 by omega)
      obtain rfl : p = n := hvalue.symm.trans hn
      exact ⟨n, by rw [truncate_of_ge hhigh, hx],
        ⟨.inl ⟨le_refl _, lt_add_one _⟩, .inl rfl⟩⟩

/-! ## The whole numbers next to a number -/

/-- The value of one. -/
theorem value?_one : value? 1 = some ((1 : ℤ) : ℚ) := by
  decide +kernel

/-- Rounding to a whole number of fifty-three bits leads to it. -/
theorem Rounds.value_intCast {n : ℤ} (h : Rounds n x) (hn : |n| ≤ 2 ^ 53) :
    value? x = some (n : ℚ) := by
  refine h.value (representable_intCast hn) ?_
  calc |(n : ℚ)| ≤ 2 ^ 53 := by exact_mod_cast hn
    _ < 2 ^ 1024 := pow_lt_pow_right₀ (by norm_num) (by norm_num)

/-- Sums of whole numbers are exact within fifty-three bits. -/
theorem value?_add_intCast {y : Float} {m n : ℤ} (hx : value? x = some (m : ℚ))
    (hy : value? y = some (n : ℚ)) (h : |m + n| ≤ 2 ^ 53) :
    value? (x + y) = some ((m + n : ℤ) : ℚ) := by
  refine Rounds.value_intCast ?_ h
  rw [Int.cast_add]
  exact rounds_add hx hy

/-- Differences of whole numbers are exact within fifty-three bits. -/
theorem value?_sub_intCast {y : Float} {m n : ℤ} (hx : value? x = some (m : ℚ))
    (hy : value? y = some (n : ℚ)) (h : |m - n| ≤ 2 ^ 53) :
    value? (x - y) = some ((m - n : ℤ) : ℚ) := by
  refine Rounds.value_intCast ?_ h
  rw [Int.cast_sub]
  exact rounds_sub hx hy

/-- Rounding down leads to the whole number below. -/
theorem value?_floor (hx : value? x = some p) : value? (floor x) = some (⌊p⌋ : ℚ) := by
  obtain ⟨n, hn, htruncates⟩ := exists_value_truncate hx
  show value? (if x < truncate x then truncate x - 1 else truncate x) = _
  by_cases hlt : x < truncate x
  · -- the value lies below the whole number, so the step down is exact
    have hpn : p < n := (lt_iff_value_lt hx hn).mp hlt
    have hbetween := htruncates.between.resolve_left fun h => absurd hpn (not_lt_of_ge h.1)
    have hsmall := abs_lt.mp (htruncates.small.resolve_left fun h => absurd h hpn.ne')
    have hfloor : ⌊p⌋ = n - 1 := by
      rw [Int.floor_eq_iff, Int.cast_sub, Int.cast_one]
      exact ⟨le_of_lt hbetween.1, by linarith⟩
    rw [if_pos hlt, hfloor]
    exact value?_sub_intCast hn value?_one (abs_le.mpr (by omega))
  · -- the whole number is not above the value, so it is the one that is sought
    have hnp : (n : ℚ) ≤ p := not_lt.mp fun h => hlt ((lt_iff_value_lt hx hn).mpr h)
    have hfloor : ⌊p⌋ = n := by
      rw [Int.floor_eq_iff]
      rcases htruncates.between with h | h
      · exact h
      · exact ⟨hnp, by linarith⟩
    rw [if_neg hlt, hn, hfloor]

/-- Rounding up leads to the whole number above. -/
theorem value?_ceil (hx : value? x = some p) : value? (ceil x) = some (⌈p⌉ : ℚ) := by
  obtain ⟨n, hn, htruncates⟩ := exists_value_truncate hx
  show value? (if truncate x < x then truncate x + 1 else truncate x) = _
  by_cases hlt : truncate x < x
  · have hnp : n < p := (lt_iff_value_lt hn hx).mp hlt
    have hbetween := htruncates.between.resolve_right fun h => absurd hnp (not_lt_of_ge h.2)
    have hsmall := abs_lt.mp (htruncates.small.resolve_left fun h => absurd h hnp.ne)
    have hceil : ⌈p⌉ = n + 1 := by
      rw [Int.ceil_eq_iff, Int.cast_add, Int.cast_one]
      exact ⟨by linarith, le_of_lt hbetween.2⟩
    rw [if_pos hlt, hceil]
    exact value?_add_intCast hn value?_one (abs_le.mpr (by omega))
  · have hpn : p ≤ n := not_lt.mp fun h => hlt ((lt_iff_value_lt hn hx).mpr h)
    have hceil : ⌈p⌉ = n := by
      rw [Int.ceil_eq_iff]
      rcases htruncates.between with h | h
      · exact ⟨by linarith, hpn⟩
      · exact h
    rw [if_neg hlt, hn, hceil]

/-! ## Constants -/

/-- The value of one half. -/
theorem value?_half : value? Scalar.half = some (1 / 2) := by
  decide +kernel

/-- The value of the slack. -/
theorem exists_value_slack : ∃ q : ℚ, value? Scalar.slack = some q ∧ 0 < q ∧ 2 * q < 1 := by
  refine ⟨_, rfl, ?_⟩
  decide +kernel

/-- Words are rounded. -/
theorem rounds_toFloat (n : UInt64) : Rounds ((n.toNat : ℤ) : ℚ) n.toFloat :=
  ⟨_, rfl, by
    have hrounding := isRounding_normalize n.toNat 0 .positive
    rwa [zpow_zero, mul_one] at hrounding⟩

/-- The value of a natural number of fifty-three bits. -/
theorem value?_ofNat {n : Nat} (hn : n < 2 ^ 53) :
    value? (Float.ofNat n) = some (((n : ℤ)) : ℚ) := by
  have hword : n.toUInt64.toNat = n := Nat.mod_eq_of_lt (show n < 2 ^ 64 by omega)
  have habs : |(n : ℤ)| ≤ 2 ^ 53 := by
    rw [abs_of_nonneg (Int.natCast_nonneg n)]
    omega
  -- a small number is read as a decimal with exponent zero: the word times the power
  have hfloat : Float.ofNat n = n.toUInt64.toFloat * Float.ofBits 0x3FF0000000000000 := by
    show Float.ofScientific n false 0 = _
    unfold Float.ofScientific
    rw [dif_pos ⟨hn, by decide⟩]
    rfl
  have hvalue : value? n.toUInt64.toFloat = some ((n : ℤ) : ℚ) := by
    have hrounds := rounds_toFloat n.toUInt64
    rw [hword] at hrounds
    exact hrounds.value_intCast habs
  have hunit : value? (Float.ofBits 0x3FF0000000000000) = some 1 := by
    decide +kernel
  rw [hfloat]
  have hrounds := rounds_mul hvalue hunit
  rw [mul_one] at hrounds
  exact hrounds.value_intCast habs

/-- Negating a number turns its sign around. -/
theorem unpack_neg (x : Float) : (-x).toModel.unpack = x.toModel.unpack.neg := by
  have hfits : Fits x.toModel.unpack.neg := by
    have hx := fits x
    cases hu : x.toModel.unpack with
    | finite =>
      rw [hu] at hx
      exact hx
    | _ => trivial
  exact unpack_pack hfits

/-- The value of a negated number. -/
theorem value?_neg (hx : value? x = some p) : value? (-x) = some (-p) := by
  unfold value?
  rw [unpack_neg, unpackedValue?_neg, show unpackedValue? x.toModel.unpack = some p from hx]
  rfl

/-- The value of a whole number in range. -/
theorem value?_ofInt {n : ℤ} (hn : Scalar.InRange n) :
    value? (Scalar.ofInt n) = some (n : ℚ) := by
  have hrange : n.natAbs ≤ 2 ^ 52 := hn
  cases n with
  | ofNat n =>
    have hle : n ≤ 2 ^ 52 := hrange
    exact value?_ofNat (show n < 2 ^ 53 by omega)
  | negSucc n =>
    have hneg := value?_neg (value?_ofNat (show n + 1 < 2 ^ 53 by omega))
    rw [← Int.cast_neg] at hneg
    exact hneg

end BranchBound.Binary64
