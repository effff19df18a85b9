import BranchBound.Proofs.Scalar.Binary64Whole
import BranchBound.Proofs.Scalar.Rounding

/-! # The laws of binary floating-point numbers

Binary floating-point numbers obey the laws that the results about the search rest on: numbers that
compare as equal cannot be told apart by the operations (`Scalar.Congruent`), rounding to whole
numbers with a slack does not pass a whole number (`Scalar.Rounding`), and within range they behave
like the whole numbers (`Scalar.Discrete`). -/

namespace BranchBound.Binary64

open Float.Model (UnpackedFloat)
open Float.Model.UnpackedFloat (Sign)

variable {x y z : Float} {p q r : ℚ} {s t : Sign}

/-! ## Finite and infinite numbers -/

/-- Finite numbers are those that have a value. -/
theorem isFinite_iff : Scalar.isFinite x = true ↔ ∃ p, value? x = some p := by
  show x.toModel.unpack.isFinite = true ↔ ∃ p, unpackedValue? x.toModel.unpack = some p
  cases x.toModel.unpack with
  | infinity | notANumber => exact ⟨nofun, fun ⟨_, h⟩ => nomatch h⟩
  | zero | finite => exact ⟨fun _ => ⟨_, rfl⟩, fun _ => rfl⟩

/-- A number that is defined is finite or infinite. -/
theorem value_or_infinite (hx : Scalar.isNaN x = false) :
    (∃ p, value? x = some p) ∨ ∃ s, x.toModel.unpack = .infinity s := by
  have hdef : x.toModel.unpack.isNaN = false := hx
  unfold value?
  cases hu : x.toModel.unpack with
  | infinity s => exact .inr ⟨s, rfl⟩
  | notANumber =>
    rw [hu] at hdef
    cases hdef
  | zero | finite => exact .inl ⟨_, rfl⟩

/-- An infinite number is defined. -/
theorem isNaN_of_infinite (hx : x.toModel.unpack = .infinity s) : Scalar.isNaN x = false := by
  show x.toModel.unpack.isNaN = false
  rw [hx]
  rfl

/-- Numbers that unpack alike compare as equal. -/
theorem le_of_unpack_eq (hx : Scalar.isNaN x = false) (h : x.toModel.unpack = y.toModel.unpack) :
    x ≤ y := by
  obtain ⟨r, hr⟩ := isRank.exists_rank hx
  refine (isRank.le_iff x y).mpr ⟨r, r, hr, ?_, le_refl r⟩
  rw [← hr]
  exact congrArg unpackedRank? h.symm

/-- What is defined is at most a positive infinite number. -/
theorem le_of_infinite (hx : Scalar.isNaN x = false) (hy : y.toModel.unpack = .infinity .positive) :
    x ≤ y := by
  obtain ⟨r, hr⟩ := isRank.exists_rank hx
  refine (isRank.le_iff x y).mpr ⟨r, _, hr, ?_, rank_le_infinity hr⟩
  exact congrArg unpackedRank? hy

/-- A negative infinite number is at most what is defined. -/
theorem infinite_le (hx : x.toModel.unpack = .infinity .negative) (hy : Scalar.isNaN y = false) :
    x ≤ y := by
  obtain ⟨r, hr⟩ := isRank.exists_rank hy
  refine (isRank.le_iff x y).mpr ⟨_, r, ?_, hr, neg_infinity_le_rank hr⟩
  exact congrArg unpackedRank? hx

/-- An infinite number has no value. -/
theorem value?_of_infinite (hx : x.toModel.unpack = .infinity s) : value? x = none := by
  unfold value?
  rw [hx]
  rfl

/-- An infinite number that is at least a finite one is positive. -/
theorem positive_of_le (hx : value? x = some p) (hy : y.toModel.unpack = .infinity s)
    (h : x ≤ y) : s = .positive := by
  cases s with
  | positive => rfl
  | negative =>
    obtain ⟨r, hr, -⟩ := exists_value h (infinite_le hy (isNaN_of_value hx)) hx hx
    rw [value?_of_infinite hy] at hr
    cases hr

/-- An infinite number that is at most a finite one is negative. -/
theorem negative_of_le (hx : value? x = some p) (hy : y.toModel.unpack = .infinity s)
    (h : y ≤ x) : s = .negative := by
  cases s with
  | negative => rfl
  | positive =>
    obtain ⟨r, hr, -⟩ := exists_value (le_of_infinite (isNaN_of_value hx) hy) h hx hx
    rw [value?_of_infinite hy] at hr
    cases hr

/-- Adding a finite number leaves an infinite one infinite. -/
theorem unpack_add_of_infinite (hx : x.toModel.unpack = .infinity s) (hz : value? z = some p) :
    (x + z).toModel.unpack = .infinity s := by
  show UnpackedFloat.unpack format (UnpackedFloat.pack format
    (UnpackedFloat.add format x.toModel.unpack z.toModel.unpack)) = _
  unfold value? at hz
  rw [hx]
  cases hu : z.toModel.unpack with
  | infinity | notANumber =>
    rw [hu] at hz
    cases hz
  | zero | finite => exact unpack_pack (u := .infinity s) trivial

/-- So does taking one off. -/
theorem unpack_sub_of_infinite (hx : x.toModel.unpack = .infinity s) (hz : value? z = some p) :
    (x - z).toModel.unpack = .infinity s := by
  show UnpackedFloat.unpack format (UnpackedFloat.pack format
    (UnpackedFloat.sub format x.toModel.unpack z.toModel.unpack)) = _
  unfold value? at hz
  rw [hx]
  cases hu : z.toModel.unpack with
  | infinity | notANumber =>
    rw [hu] at hz
    cases hz
  | zero | finite => exact unpack_pack (u := .infinity s) trivial

/-- Taking an infinite number off a finite one leads to the other infinity. -/
theorem unpack_sub_infinite (hx : value? x = some p) (hz : z.toModel.unpack = .infinity s) :
    (x - z).toModel.unpack = .infinity (-s) := by
  show UnpackedFloat.unpack format (UnpackedFloat.pack format
    (UnpackedFloat.sub format x.toModel.unpack z.toModel.unpack)) = _
  unfold value? at hx
  rw [hz]
  cases hu : x.toModel.unpack with
  | infinity | notANumber =>
    rw [hu] at hx
    cases hx
  | zero | finite => exact unpack_pack (u := .infinity (-s)) trivial

/-- A number without a value is not rounded. -/
theorem truncate_of_value?_eq_none (hx : value? x = none) : truncate x = x := by
  refine truncate_of_ge fun hlt => ?_
  have hfinite : (biasedExponent x).toNat ≠ 2047 := fun htop =>
    absurd (UInt64.lt_iff_toNat_lt.mp hlt) (by rw [htop]; decide)
  unfold value? at hx
  rw [unpack_eq, unpackedValue?_ofParts _ _ hfinite] at hx
  cases hx

/-- A number without a value is not rounded down. -/
theorem floor_of_value?_eq_none (hx : value? x = none) : floor x = x := by
  show (if x < truncate x then truncate x - 1 else truncate x) = x
  rw [truncate_of_value?_eq_none hx, if_neg fun h => Scalar.not_le_of_lt h (Scalar.le_of_lt h)]

/-- A number without a value is not rounded up. -/
theorem ceil_of_value?_eq_none (hx : value? x = none) : ceil x = x := by
  show (if truncate x < x then truncate x + 1 else truncate x) = x
  rw [truncate_of_value?_eq_none hx, if_neg fun h => Scalar.not_le_of_lt h (Scalar.le_of_lt h)]

/-! ## Values that compare as equal -/

/-- Numbers that compare as equal are equal, unless they are zeros. -/
theorem eq_or_zero_of_same (h : Scalar.Same x y) :
    x = y ∨ value? x = some 0 ∧ value? y = some 0 := by
  have hzero : value? 0 = some 0 := by decide +kernel
  have hnegative : value? (-0) = some 0 := by decide +kernel
  obtain ⟨-, -, heq | ⟨rfl, rfl⟩ | ⟨rfl, rfl⟩⟩ :=
    Float.beq_iff_ne_nan_and_eq.mp (Scalar.Ordered.beq_iff_le_ge.mpr h)
  · exact .inl heq
  · exact .inr ⟨hzero, hnegative⟩
  · exact .inr ⟨hnegative, hzero⟩

/-- A finite number is the one value that its rounding can have. -/
theorem Rounds.value_of_value (h : Rounds p x) (hy : value? y = some p) : value? x = some p :=
  h.value (representable_of_value (fits y).isCanonical hy)
    (lt_of_le_of_lt (le_add_of_nonneg_right (by norm_num)) (abs_value_add_lt (fits y) hy))

instance : Scalar.Congruent Float where
  isNaN_of_isFinite h := by
    obtain ⟨p, hp⟩ := isFinite_iff.mp h
    exact isNaN_of_value hp
  isFinite_zero := by decide +kernel
  isFinite_infinity := by decide +kernel
  neg_infinity_lt := by decide +kernel
  isFinite_abs {x} h := by
    have hfits : Fits x.toModel.unpack.abs := by
      have hx := fits x
      cases hu : x.toModel.unpack with
      | finite =>
        rw [hu] at hx
        exact hx
      | _ => trivial
    show (UnpackedFloat.unpack format (UnpackedFloat.pack format x.toModel.unpack.abs)).isFinite
      = true
    have hx : x.toModel.unpack.isFinite = true := h
    rw [unpack_pack hfits]
    cases hu : x.toModel.unpack with
    | infinity | notANumber =>
      rw [hu] at hx
      cases hx
    | zero | finite => rfl
  same_mul {x y z} hx hy hz h := by
    obtain ⟨p, hp⟩ := isFinite_iff.mp hx
    obtain ⟨r, hr⟩ := isFinite_iff.mp hz
    -- products with zeros are zeros, whatever sign the zeros have
    rcases eq_or_zero_of_same h with rfl | ⟨hx0, hy0⟩
    · exact .refl (rounds_mul hp hr).isNaN
    · have hzero := rounds_mul hx0 hr
      have hzero' := rounds_mul hy0 hr
      rw [zero_mul] at hzero hzero'
      exact same_of_value (hzero.value_of_value hx0) (hzero'.value_of_value hx0)
  same_sub {x y z} hz h := by
    obtain ⟨r, hr⟩ := isFinite_iff.mp hz
    -- taking a zero off leaves the number as it is, whatever sign the zero has
    rcases eq_or_zero_of_same h with rfl | ⟨hx0, hy0⟩
    · refine .refl ?_
      rcases value_or_infinite h.isNaN with ⟨p, hp⟩ | ⟨s, hs⟩
      · exact (rounds_sub hr hp).isNaN
      · exact isNaN_of_infinite (unpack_sub_infinite hr hs)
    · have hrounds := rounds_sub hr hx0
      have hrounds' := rounds_sub hr hy0
      rw [sub_zero] at hrounds hrounds'
      exact same_of_value (hrounds.value_of_value hr) (hrounds'.value_of_value hr)

/-! ## Rounding with a slack -/

/-- A whole number keeps its value when it is rounded down. -/
theorem floor_eq_of_isWhole (h : Scalar.IsWhole x) (hx : value? x = some p) : (⌊p⌋ : ℚ) = p := by
  obtain ⟨hle, hge⟩ := Scalar.Ordered.beq_iff_le_ge.mp h
  have hfloor := value?_floor hx
  exact le_antisymm ((le_iff_value_le hfloor hx).mp hle) ((le_iff_value_le hx hfloor).mp hge)

/-- Taking the slack off does not lead above a number, nor below it by one. -/
theorem exists_value_sub_slack (hx : value? x = some p) :
    ∃ q, value? (x - Scalar.slack) = some q ∧ p - 1 < q ∧ q ≤ p := by
  obtain ⟨k, hk, hpos, hlt⟩ := exists_value_slack
  have hheld := representable_of_value (fits x).isCanonical hx
  have hdist : |p - (p - k)| = k := by rw [sub_sub_cancel, abs_of_pos hpos]
  have hsmall : |p - (p - k)| + |p - k| < 2 ^ 1024 := by
    have htri := abs_sub p k
    rw [abs_of_pos hpos] at htri
    rw [hdist]
    refine lt_of_le_of_lt ?_ (abs_value_add_lt (fits x) hx)
    linarith
  -- the number itself can be held, so the error is at most the slack
  obtain ⟨q, hq, hnearest⟩ := (rounds_sub hx hk).exists_value hheld hsmall
  have hclose := hnearest p hheld
  rw [hdist, abs_le] at hclose
  exact ⟨q, hq, by linarith, by linarith⟩

/-- Adding the slack does not lead below a number, nor above it by one. -/
theorem exists_value_add_slack (hx : value? x = some p) :
    ∃ q, value? (x + Scalar.slack) = some q ∧ p ≤ q ∧ q < p + 1 := by
  obtain ⟨k, hk, hpos, hlt⟩ := exists_value_slack
  have hheld := representable_of_value (fits x).isCanonical hx
  have hdist : |p - (p + k)| = k := by rw [sub_add_cancel_left, abs_neg, abs_of_pos hpos]
  have hsmall : |p - (p + k)| + |p + k| < 2 ^ 1024 := by
    have htri := abs_add_le p k
    rw [abs_of_pos hpos] at htri
    rw [hdist]
    refine lt_of_le_of_lt ?_ (abs_value_add_lt (fits x) hx)
    linarith
  obtain ⟨q, hq, hnearest⟩ := (rounds_add hx hk).exists_value hheld hsmall
  have hclose := hnearest p hheld
  rw [hdist, abs_le] at hclose
  exact ⟨q, hq, by linarith, by linarith⟩

/-- The product of one half with an infinite number is infinite. -/
theorem unpack_half_mul (hx : x.toModel.unpack = .infinity s) :
    ∃ t, (Scalar.half * x).toModel.unpack = .infinity t := by
  show ∃ t, UnpackedFloat.unpack format (UnpackedFloat.pack format
    (UnpackedFloat.mul format (Scalar.half : Float).toModel.unpack x.toModel.unpack)) = .infinity t
  have hhalf := value?_half
  unfold value? at hhalf
  rw [hx]
  cases hu : (Scalar.half : Float).toModel.unpack with
  | infinity | notANumber =>
    rw [hu] at hhalf
    cases hhalf
  | zero =>
    rw [hu] at hhalf
    have hzero : (0 : ℚ) = 1 / 2 := Option.some.inj hhalf
    norm_num at hzero
  | finite s' => exact ⟨s' * s, unpack_pack (u := .infinity (s' * s)) trivial⟩

/-- One more than a whole number is not above the next one. -/
theorem floor_add_one_le_of_lt (hx : value? x = some p) (hz : value? z = some q)
    (hzwhole : (⌊q⌋ : ℚ) = q) (h : ⌊p⌋ < ⌊q⌋) : floor x + 1 ≤ z := by
  have hfloor := value?_floor hx
  have hheld := representable_of_value (fits _).isCanonical hfloor
  have hdist : |(⌊p⌋ : ℚ) - (⌊p⌋ + (1 : ℤ))| = 1 := by
    rw [sub_add_cancel_left, abs_neg, Int.cast_one, abs_one]
  have hsmall : |(⌊p⌋ : ℚ) - (⌊p⌋ + (1 : ℤ))| + |(⌊p⌋ : ℚ) + (1 : ℤ)| < 2 ^ 1024 := by
    have htri := abs_add_le (⌊p⌋ : ℚ) (1 : ℤ)
    rw [Int.cast_one, abs_one] at htri
    rw [hdist, Int.cast_one]
    refine lt_of_le_of_lt ?_ (abs_value_add_lt (fits _) hfloor)
    linarith
  -- both the whole number and the next one can be held, so rounding stays between them
  obtain ⟨r, hr, hnearest⟩ := (rounds_add hfloor value?_one).exists_value hheld hsmall
  have hclose := hnearest q (representable_of_value (fits z).isCanonical hz)
  have hle : (⌊p⌋ : ℚ) + (1 : ℤ) ≤ q := by
    rw [← hzwhole]
    exact_mod_cast h
  rw [abs_of_nonneg (sub_nonneg.mpr hle)] at hclose
  exact (le_iff_value_le hr hz).mpr (by linarith [(abs_le.mp hclose).2])

instance : Scalar.Rounding Float where
  ceil_sub_slack_le {x y} hy h := by
    rcases value_or_infinite (Scalar.Ordered.isNaN_left_of_le h) with ⟨p, hp⟩ | ⟨s, hs⟩
    · -- the slack moves a value by less than one, so the next whole number stays where it is
      obtain ⟨r, hr, -, hrp⟩ := exists_value_sub_slack hp
      have hceil := value?_ceil hr
      rcases value_or_infinite (Scalar.Ordered.isNaN_right_of_le h) with ⟨q, hq⟩ | ⟨t, ht⟩
      · have hpq := (le_iff_value_le hp hq).mp h
        refine (le_iff_value_le hceil hq).mpr ?_
        rw [← floor_eq_of_isWhole hy hq, Int.cast_le, Int.ceil_le, floor_eq_of_isWhole hy hq]
        exact hrp.trans hpq
      · -- nothing is above an infinite end
        rw [positive_of_le hp ht h] at ht
        exact le_of_infinite (isNaN_of_value hceil) ht
    · -- an infinite number swallows the slack
      obtain ⟨k, hk, -⟩ := exists_value_slack
      have hinfinite := unpack_sub_of_infinite hs hk
      show ceil (x - Scalar.slack) ≤ y
      rw [ceil_of_value?_eq_none (value?_of_infinite hinfinite)]
      exact Scalar.Ordered.le_trans
        (le_of_unpack_eq (isNaN_of_infinite hinfinite) (hinfinite.trans hs.symm)) h
  le_floor_add_slack {x y} hx h := by
    rcases value_or_infinite (Scalar.Ordered.isNaN_right_of_le h) with ⟨q, hq⟩ | ⟨s, hs⟩
    · obtain ⟨r, hr, hqr, -⟩ := exists_value_add_slack hq
      have hfloor := value?_floor hr
      rcases value_or_infinite (Scalar.Ordered.isNaN_left_of_le h) with ⟨p, hp⟩ | ⟨t, ht⟩
      · have hpq := (le_iff_value_le hp hq).mp h
        refine (le_iff_value_le hp hfloor).mpr ?_
        rw [← floor_eq_of_isWhole hx hp, Int.cast_le, Int.le_floor, floor_eq_of_isWhole hx hp]
        exact hpq.trans hqr
      · rw [negative_of_le hq ht h] at ht
        exact infinite_le ht (isNaN_of_value hfloor)
    · obtain ⟨k, hk, -⟩ := exists_value_slack
      have hinfinite := unpack_add_of_infinite hs hk
      show x ≤ floor (y + Scalar.slack)
      rw [floor_of_value?_eq_none (value?_of_infinite hinfinite)]
      exact Scalar.Ordered.le_trans h
        (le_of_unpack_eq (isNaN_of_infinite hs) (hs.trans hinfinite.symm))
  isFinite_ceil_sub_slack h := by
    obtain ⟨p, hp⟩ := isFinite_iff.mp h
    obtain ⟨r, hr, -⟩ := exists_value_sub_slack hp
    exact isFinite_iff.mpr ⟨_, value?_ceil hr⟩
  isFinite_floor_add_slack h := by
    obtain ⟨p, hp⟩ := isFinite_iff.mp h
    obtain ⟨r, hr, -⟩ := exists_value_add_slack hp
    exact isFinite_iff.mpr ⟨_, value?_floor hr⟩
  isNaN_middle {x y} hx hy := by
    obtain ⟨p, hp⟩ := isFinite_iff.mp hx
    -- half of the sum is taken last, so a sum of two ends may be infinite before it is halved
    obtain ⟨q, hq⟩ := isFinite_iff.mp hy
    show Scalar.isNaN (Scalar.half * (x + y)) = false
    rcases value_or_infinite (rounds_add hp hq).isNaN with ⟨r, hr⟩ | ⟨s, hs⟩
    · exact (rounds_mul value?_half hr).isNaN
    · -- the sum overflows
      obtain ⟨t, ht⟩ := unpack_half_mul hs
      exact isNaN_of_infinite ht
  isNaN_floor {x} h := by
    rcases value_or_infinite h with ⟨p, hp⟩ | ⟨s, hs⟩
    · exact isNaN_of_value (value?_floor hp)
    · show Scalar.isNaN (floor x) = false
      rwa [floor_of_value?_eq_none (value?_of_infinite hs)]
  floor_add_one_le {x y} hy h := by
    have hle := Scalar.le_of_lt h
    cases hx : value? x with
    | some p =>
      have hfloor := value?_floor hx
      rcases value_or_infinite (Scalar.Ordered.isNaN_right_of_le hle) with ⟨q, hq⟩ | ⟨t, ht⟩
      · have hwhole := floor_eq_of_isWhole hy hq
        refine floor_add_one_le_of_lt hx hq hwhole ?_
        have hlt := (lt_iff_value_lt hfloor hq).mp h
        rw [← hwhole] at hlt
        exact_mod_cast hlt
      · rw [positive_of_le hfloor ht hle] at ht
        exact le_of_infinite (rounds_add hfloor value?_one).isNaN ht
    | none =>
      -- an infinite number is not rounded, and one more than it compares as equal
      have heq : Scalar.floor x = x := floor_of_value?_eq_none hx
      rw [heq] at hle ⊢
      rcases value_or_infinite (Scalar.Ordered.isNaN_left_of_le hle) with ⟨p, hp⟩ | ⟨s, hs⟩
      · rw [hx] at hp
        cases hp
      · have hinfinite := unpack_add_of_infinite hs value?_one
        exact Scalar.Ordered.le_trans
          (le_of_unpack_eq (isNaN_of_infinite hinfinite) (hinfinite.trans hs.symm)) hle

/-! ## Whole numbers within range -/

/-- A number that stands for a whole number has its value. -/
theorem value?_of_stands {n : ℤ} (h : Scalar.Stands x n) : value? x = some (n : ℚ) := by
  have hn := value?_ofInt h.inRange
  obtain ⟨r, hr, hle, hge⟩ := exists_value h.same.2 h.same.1 hn hn
  rw [hr, le_antisymm hge hle]

/-- A result that is a whole number between two others, for every value between them. -/
theorem exists_between {m n : ℤ} (hm : Scalar.InRange m) (hn : Scalar.InRange n)
    (hlow : Scalar.ofInt m ≤ x) (hhigh : x ≤ Scalar.ofInt n)
    (h : ∀ p, value? x = some p → m ≤ p → p ≤ n →
      ∃ k : ℤ, m ≤ k ∧ k ≤ n ∧ value? y = some (k : ℚ)) :
    ∃ k, m ≤ k ∧ k ≤ n ∧ Scalar.Same y (Scalar.ofInt k) := by
  obtain ⟨p, hp, hmp, hpn⟩ := exists_value hlow hhigh (value?_ofInt hm) (value?_ofInt hn)
  obtain ⟨k, hmk, hkn, hk⟩ := h p hp hmp hpn
  exact ⟨k, hmk, hkn, same_of_value hk (value?_ofInt (hm.between hn hmk hkn))⟩

/-- Whole numbers in range are small. -/
theorem abs_le_of_inRange {n : ℤ} (h : Scalar.InRange n) : |n| ≤ 2 ^ 52 := by
  have hrange : n.natAbs ≤ 2 ^ 52 := h
  rw [Int.abs_eq_natAbs]
  exact_mod_cast hrange

/-- The middle between whole numbers in range is exact. -/
theorem value?_middle {m n : ℤ} (hx : Scalar.Stands x m) (hy : Scalar.Stands y n) :
    value? (Scalar.middle x y) = some (((m : ℚ) + n) / 2) := by
  have hm := abs_le.mp (abs_le_of_inRange hx.inRange)
  have hn := abs_le.mp (abs_le_of_inRange hy.inRange)
  have hsum : |m + n| ≤ 2 ^ 53 := abs_le.mpr (by omega)
  have hproduct := rounds_mul value?_half
    (value?_add_intCast (value?_of_stands hx) (value?_of_stands hy) hsum)
  have hhalf : (1 / 2 : ℚ) * ((m + n : ℤ) : ℚ) = ((m : ℚ) + n) / 2 := by
    rw [Int.cast_add, one_div_mul_eq_div]
  rw [hhalf] at hproduct
  refine hproduct.value ⟨m + n, -1, hsum, by decide, ?_⟩ ?_
  · rw [Int.cast_add, zpow_neg_one, div_eq_mul_inv]
  · calc |((m : ℚ) + n) / 2| ≤ 2 ^ 53 := by
          have hsum' : |(m : ℚ) + n| ≤ 2 ^ 53 := by exact_mod_cast hsum
          rw [abs_div, abs_of_pos (by norm_num : (0 : ℚ) < 2), div_le_iff₀ (by norm_num)]
          linarith
      _ < 2 ^ 1024 := pow_lt_pow_right₀ (by norm_num) (by norm_num)

instance : Scalar.Discrete Float where
  ofInt_le_iff hm hn := (le_iff_value_le (value?_ofInt hm) (value?_ofInt hn)).trans Int.cast_le
  same_zero := same_of_value (p := 0) (by decide +kernel)
    (by rw [value?_ofInt (by decide), Int.cast_zero])
  same_one := same_of_value value?_one (value?_ofInt (by decide))
  ceil_between hm hn hlow hhigh := exists_between hm hn hlow hhigh fun p hp hmp hpn =>
    ⟨⌈p⌉, Int.cast_le.mp (hmp.trans (Int.le_ceil p)), Int.ceil_le.mpr hpn, value?_ceil hp⟩
  floor_between hm hn hlow hhigh := exists_between hm hn hlow hhigh fun p hp hmp hpn =>
    ⟨⌊p⌋, Int.le_floor.mpr hmp, Int.cast_le.mp ((Int.floor_le p).trans hpn), value?_floor hp⟩
  ceil_sub_slack_between hm hn hlow hhigh := exists_between hm hn hlow hhigh fun p hp hmp hpn => by
    obtain ⟨q, hq, hpq, hqp⟩ := exists_value_sub_slack hp
    refine ⟨⌈q⌉, ?_, Int.ceil_le.mpr (hqp.trans hpn), value?_ceil hq⟩
    rw [← Int.sub_one_lt_iff, Int.lt_ceil, Int.cast_sub, Int.cast_one]
    linarith
  floor_add_slack_between hm hn hlow hhigh := exists_between hm hn hlow hhigh fun p hp hmp hpn => by
    obtain ⟨q, hq, hpq, hqp⟩ := exists_value_add_slack hp
    refine ⟨⌊q⌋, Int.le_floor.mpr (hmp.trans hpq), ?_, value?_floor hq⟩
    rw [← Int.lt_add_one_iff, Int.floor_lt, Int.cast_add, Int.cast_one]
    linarith
  sub_nonpos_iff {x y m n} hx hy := by
    -- the range leaves a bit for the difference
    have hm := abs_le.mp (abs_le_of_inRange hx.inRange)
    have hn := abs_le.mp (abs_le_of_inRange hy.inRange)
    have hdifference := value?_sub_intCast (value?_of_stands hy) (value?_of_stands hx)
      (abs_le.mpr (by omega))
    have hzero : value? 0 = some ((0 : ℤ) : ℚ) := by decide +kernel
    refine (le_iff_value_le hdifference hzero).trans ?_
    rw [Int.cast_le, sub_nonpos]
  middle_between {x y m n} hx hy hmn := by
    have hmiddle := value?_middle hx hy
    have hfloor := value?_floor hmiddle
    have hlt : (m : ℚ) < n := Int.cast_lt.mpr hmn
    have hlow : m ≤ ⌊((m : ℚ) + n) / 2⌋ := Int.le_floor.mpr (by linarith)
    have hhigh : ⌊((m : ℚ) + n) / 2⌋ < n := Int.floor_lt.mpr (by linarith)
    refine ⟨_, hlow, hhigh, same_of_value hfloor (value?_ofInt ?_),
      same_of_value (value?_add_intCast hfloor value?_one ?_) (value?_ofInt ?_)⟩
    · exact hx.inRange.between hy.inRange hlow (le_of_lt hhigh)
    · have hm := abs_le.mp (abs_le_of_inRange hx.inRange)
      have hn := abs_le.mp (abs_le_of_inRange hy.inRange)
      exact abs_le.mpr (by omega)
    · exact hx.inRange.between hy.inRange (hlow.trans (Int.le_add_one (le_refl _))) hhigh

end BranchBound.Binary64
