import BranchBound.Proofs.Scalar.Binary64Order
import BranchBound.Proofs.Scalar.Congruence
import Mathlib

/-! # The values of binary floating-point numbers

A finite number has a value, its mantissa times a power of two, and finite numbers compare as their
values do. The numbers that bit patterns stand for fit the format: their mantissas and exponents lie
within bounds. A number that fits is what it was after it was packed into a bit pattern.

* **`Binary64.Canonical`**, **`Binary64.Fits`** — the bounds of the format.
* **`Binary64.fits_unpack`**, **`Binary64.unpack_pack`** — from bit patterns and back.
* **`Binary64.value?`** — the value of a number, if it is finite.
* **`Binary64.le_iff_value_le`** — comparing finite numbers is comparing their values. -/

namespace BranchBound.Binary64

open Float.Model (UnpackedFloat)
open Float.Model.UnpackedFloat (Sign)

/-- The format of the numbers. -/
abbrev format : Float.Model.Format := .binary64

/-! ## Bit patterns -/

/-- The number of a sign, a biased exponent and the stored part of a mantissa. -/
def ofParts (s : Sign) (e m : Nat) : UnpackedFloat :=
  if e = 2047 then if m = 0 then .infinity s else .notANumber
  else if e = 0 then if h : m = 0 then .zero s else .finite s m (-1074) (Nat.pos_of_ne_zero h)
  else .finite s (2 ^ 52 + m) (e - 1075) (Nat.add_pos_left (Nat.two_pow_pos 52) m)

/-- The leading bit of a mantissa is not stored. -/
theorem toNat_append (m : BitVec 52) : (1#1 ++ m).toNat = 2 ^ 52 + m.toNat := by
  rw [BitVec.toNat_append, ← Nat.shiftLeft_add_eq_or_of_lt m.isLt]
  simp

/-- Unpacking a bit pattern is reading its parts. -/
theorem unpack_eq_ofParts (b : BitVec 64) :
    UnpackedFloat.unpack format b = ofParts (.ofBitVec (@UnpackedFloat.unpackSign format b))
      (@UnpackedFloat.unpackExponent format b).toNat
      (@UnpackedFloat.unpackMantissa format b).toNat := by
  have hones : ∀ e : BitVec 11, e = -1#11 ↔ e.toNat = 2047 := fun e => BitVec.toNat_inj.symm
  have hzero : ∀ {k} (e : BitVec k), e = 0#k ↔ e.toNat = 0 := fun e =>
    BitVec.toNat_inj.symm.trans (by rw [BitVec.toNat_ofNat, Nat.zero_mod])
  unfold UnpackedFloat.unpack ofParts
  simp only [hones, hzero]
  split
  · rfl
  · split
    · next hleast =>
      split
      · rfl
      · simp only [hleast]
        rfl
    · simp only [toNat_append]
      rfl

/-- A mantissa has fifty-three bits, and no leading zeros unless the exponent is the least one. -/
structure Canonical (m : Nat) (e : ℤ) : Prop where
  /-- The mantissa has fifty-three bits. -/
  lt : m < 2 ^ 53
  /-- The exponent is not below the least one. -/
  le : -1074 ≤ e
  /-- The first bit of the mantissa is set. -/
  leading : 2 ^ 52 ≤ m ∨ e = -1074

/-- A number is in canonical form; its exponent may be too great. -/
def IsCanonical : UnpackedFloat → Prop
  | .finite _ m e _ => Canonical m e
  | _ => True

/-- A number is in canonical form, and its exponent is not too great. -/
def Fits : UnpackedFloat → Prop
  | .finite _ m e _ => Canonical m e ∧ e ≤ 971
  | _ => True

/-- A number that fits is in canonical form. -/
theorem Fits.isCanonical {u : UnpackedFloat} (h : Fits u) : IsCanonical u := by
  cases u with
  | finite => exact h.1
  | _ => trivial

/-- Reading parts leads to a number that fits. -/
theorem fits_ofParts (s : Sign) {e m : Nat} (he : e < 2 ^ 11) (hm : m < 2 ^ 52) :
    Fits (ofParts s e m) := by
  unfold ofParts
  split
  · split <;> trivial
  · split
    · split
      · trivial
      · exact ⟨⟨by omega, le_refl _, .inr rfl⟩, by decide⟩
    · exact ⟨⟨by omega, by omega, .inl (by omega)⟩, by omega⟩

/-- Unpacking a bit pattern leads to a number that fits. -/
theorem fits_unpack (b : BitVec 64) : Fits (UnpackedFloat.unpack format b) := by
  rw [unpack_eq_ofParts]
  exact fits_ofParts _ (BitVec.isLt _) (BitVec.isLt _)

/-- Unpacking packed components is reading them. -/
theorem unpack_packComponents (s : Sign) (e : BitVec 11) (m : BitVec 52) :
    UnpackedFloat.unpack format (UnpackedFloat.packComponents format s e m)
      = ofParts s e.toNat m.toNat := by
  rw [unpack_eq_ofParts, UnpackedFloat.unpackSign_packComponents, Sign.ofBitVec_toBitVec,
    UnpackedFloat.unpackExponent_packComponents, UnpackedFloat.unpackMantissa_packComponents]

/-- A number that fits is what it was after it was packed into a bit pattern. -/
theorem unpack_pack {u : UnpackedFloat} (h : Fits u) :
    UnpackedFloat.unpack format (UnpackedFloat.pack format u) = u := by
  cases u with
  | infinity s => exact unpack_packComponents s _ _
  | notANumber => exact unpack_packComponents .positive _ _
  | zero s => exact unpack_packComponents s _ _
  | finite s m e hpos =>
    obtain ⟨⟨hm, hlow, hleading⟩, hhigh⟩ := h
    have hfits : ¬ 2 ^ 11 ≤ (e + 1023 + 52).toNat + 1 := by omega
    unfold UnpackedFloat.pack
    show UnpackedFloat.unpack format (if 2 ^ 11 ≤ (e + 1023 + 52).toNat + 1 then _
      else if m.log2 + 1 = 53 then UnpackedFloat.packComponents format s
        (BitVec.ofNat 11 (e + 1023 + 52).toNat) (BitVec.ofNat 52 m)
      else UnpackedFloat.packComponents format s 0#11 (BitVec.ofNat 52 m)) = _
    rw [if_neg hfits]
    by_cases hn : 2 ^ 52 ≤ m
    · -- the leading bit is not stored, and reading adds it again
      have hlog : m.log2 + 1 = 53 := by
        have hge := (Nat.le_log2 hpos.ne').mpr hn
        have hlt := (Nat.log2_lt hpos.ne').mpr hm
        omega
      rw [if_pos hlog, unpack_packComponents, BitVec.toNat_ofNat, BitVec.toNat_ofNat,
        Nat.mod_eq_of_lt (show (e + 1023 + 52).toNat < 2 ^ 11 by omega), ofParts,
        if_neg (show (e + 1023 + 52).toNat ≠ 2047 by omega),
        if_neg (show (e + 1023 + 52).toNat ≠ 0 by omega)]
      congr 1 <;> omega
    · -- a number with leading zeros has the least exponent
      obtain rfl := hleading.resolve_left hn
      have hlog : m.log2 + 1 ≠ 53 := by
        have hlt := (Nat.log2_lt hpos.ne').mpr (Nat.lt_of_not_le hn)
        omega
      rw [if_neg hlog, unpack_packComponents, BitVec.toNat_ofNat, BitVec.toNat_ofNat,
        Nat.mod_eq_of_lt (Nat.lt_of_not_le hn), ofParts, if_neg (by decide), if_pos (by decide),
        dif_neg hpos.ne']

/-! ## Values -/

/-- The value of a finite unpacked number. -/
def unpackedValue? : UnpackedFloat → Option ℚ
  | .zero _ => some 0
  | .finite s m e _ => some ((s.apply m : ℤ) * 2 ^ e)
  | _ => none

/-- The value of a finite number. -/
def value? (x : Float) : Option ℚ := unpackedValue? x.toModel.unpack

/-- A number that fits has the value that it had before it was packed. -/
theorem value?_pack {u : UnpackedFloat} (h : Fits u) :
    value? (.ofModel (.pack u)) = unpackedValue? u :=
  congrArg unpackedValue? (unpack_pack h)

/-- Magnitudes with a lower exponent are smaller. -/
theorem Canonical.magnitude_lt {m n : Nat} {e d : ℤ} (hm : Canonical m e) (hn : Canonical n d)
    (h : e < d) : (m : ℚ) * 2 ^ e < n * 2 ^ d := by
  have hlow := hm.le
  have hleading : (2 : ℚ) ^ 52 ≤ n := by
    exact_mod_cast hn.leading.resolve_right (by omega)
  calc (m : ℚ) * 2 ^ e < 2 ^ 53 * 2 ^ e := by
        refine mul_lt_mul_of_pos_right ?_ (by positivity)
        exact_mod_cast hm.lt
    _ = 2 ^ 52 * 2 ^ (e + 1) := by
        rw [zpow_add_one₀ (by norm_num)]
        ring
    _ ≤ 2 ^ 52 * 2 ^ d := by
        refine mul_le_mul_of_nonneg_left ?_ (by positivity)
        exact zpow_le_zpow_right₀ (by norm_num) (by omega)
    _ ≤ n * 2 ^ d := mul_le_mul_of_nonneg_right hleading (by positivity)

/-- The magnitude of a finite number is positive. -/
theorem magnitude_pos {m : Nat} (e : ℤ) (hm : 0 < m) : (0 : ℚ) < m * 2 ^ e :=
  mul_pos (Nat.cast_pos.mpr hm) (by positivity)

/-- Magnitudes compare lexicographically. -/
theorem Canonical.magnitude_lt_of_rank_lt {m n : Nat} {e d : ℤ} (hm : Canonical m e)
    (hn : Canonical n d) (h : (toLex (e, (m : ℤ)) : ℤ ×ₗ ℤ) < toLex (d, (n : ℤ))) :
    (m : ℚ) * 2 ^ e < n * 2 ^ d := by
  rcases Prod.Lex.toLex_lt_toLex.mp h with hlt | ⟨heq, hlt⟩
  · exact hm.magnitude_lt hn hlt
  · obtain rfl : e = d := heq
    have hmn : (m : ℤ) < n := hlt
    refine mul_lt_mul_of_pos_right ?_ (by positivity)
    exact_mod_cast hmn

/-- The values and the ranks of finite numbers in canonical form. -/
inductive Ranks : ℚ → Rank → Prop
  /-- A positive number. -/
  | positive {m : Nat} {e : ℤ} (hpos : 0 < m) (h : Canonical m e) :
      Ranks (m * 2 ^ e) (toLex (1, toLex (e, (m : ℤ))))
  /-- Zero. -/
  | zero : Ranks 0 (toLex (0, toLex (0, 0)))
  /-- A negative number. -/
  | negative {m : Nat} {e : ℤ} (hpos : 0 < m) (h : Canonical m e) :
      Ranks (-(m * 2 ^ e)) (toLex (-1, toLex (-e, -(m : ℤ))))

/-- The value and the rank of a finite number. -/
theorem ranks_of_value {u : UnpackedFloat} (hu : IsCanonical u) {p : ℚ}
    (hp : unpackedValue? u = some p) : ∃ r, unpackedRank? u = some r ∧ Ranks p r := by
  cases u with
  | infinity | notANumber => cases hp
  | zero s =>
    cases hp
    exact ⟨_, rfl, .zero⟩
  | finite s m e hpos =>
    cases hp
    cases s with
    | positive =>
      rw [Sign.apply, Int.cast_natCast]
      exact ⟨_, rfl, .positive hpos hu⟩
    | negative =>
      rw [Sign.apply, Int.cast_neg, Int.cast_natCast, neg_mul]
      exact ⟨_, rfl, .negative hpos hu⟩

/-- Lower ranks have no higher class. -/
theorem class_le_of_lt {c d : ℤ} {x y : ℤ ×ₗ ℤ} (h : (toLex (c, x) : Rank) < toLex (d, y)) :
    c ≤ d := by
  rcases Prod.Lex.toLex_lt_toLex.mp h with hlt | ⟨heq, -⟩
  · exact le_of_lt hlt
  · exact le_of_eq heq

/-- Ranks of one class compare by what follows. -/
theorem lt_of_class_eq {c : ℤ} {x y : ℤ ×ₗ ℤ} (h : (toLex (c, x) : Rank) < toLex (c, y)) : x < y :=
  ((Prod.Lex.toLex_lt_toLex.mp h).resolve_left (lt_irrefl c)).2

/-- Values rise with the ranks. -/
theorem Ranks.lt {p q : ℚ} {r k : Rank} (hr : Ranks p r) (hk : Ranks q k) (h : r < k) : p < q := by
  cases hr with
  | positive hpos hm =>
    cases hk with
    | positive _ hn => exact hm.magnitude_lt_of_rank_lt hn (lt_of_class_eq h)
    | zero | negative => exact absurd (class_le_of_lt h) (by decide)
  | zero =>
    cases hk with
    | positive hpos => exact magnitude_pos _ hpos
    | zero => exact absurd h (lt_irrefl _)
    | negative => exact absurd (class_le_of_lt h) (by decide)
  | @negative m e hpos hm =>
    have hneg := neg_neg_of_pos (magnitude_pos e hpos)
    cases hk with
    | positive hpos' => exact hneg.trans (magnitude_pos _ hpos')
    | zero => exact hneg
    | negative _ hn =>
      -- below zero a lower rank has the greater magnitude
      refine neg_lt_neg (hn.magnitude_lt_of_rank_lt hm ?_)
      rcases Prod.Lex.toLex_lt_toLex.mp (lt_of_class_eq h) with hlt | ⟨heq, hlt⟩
      · exact Prod.Lex.toLex_lt_toLex.mpr (.inl (neg_lt_neg_iff.mp hlt))
      · exact Prod.Lex.toLex_lt_toLex.mpr (.inr ⟨(neg_inj.mp heq).symm, neg_lt_neg_iff.mp hlt⟩)

/-- Values are told by the ranks. -/
theorem Ranks.eq {p : ℚ} {r : Rank} (hr : Ranks p r) :
    p = ((ofLex (ofLex r).2).2 : ℚ) * 2 ^ ((ofLex r).1 * (ofLex (ofLex r).2).1) := by
  cases hr with
  | positive =>
    show _ = (((_ : ℕ) : ℤ) : ℚ) * 2 ^ (1 * _)
    rw [Int.cast_natCast, one_mul]
    rfl
  | zero => exact (zero_mul _).symm
  | negative =>
    show _ = ((-((_ : ℕ) : ℤ) : ℤ) : ℚ) * 2 ^ (-1 * -_)
    rw [Int.cast_neg, Int.cast_natCast, neg_mul_neg, one_mul, neg_mul]

/-- Values compare as the ranks do. -/
theorem Ranks.le_iff {p q : ℚ} {r k : Rank} (hr : Ranks p r) (hk : Ranks q k) :
    p ≤ q ↔ r ≤ k := by
  constructor
  · intro hpq
    by_contra hrk
    exact absurd hpq (not_le_of_gt (hk.lt hr (not_le.mp hrk)))
  · intro hrk
    rcases lt_or_eq_of_le hrk with hlt | rfl
    · exact le_of_lt (hr.lt hk hlt)
    · exact le_of_eq (hr.eq.trans hk.eq.symm)

variable {x y a b : Float} {p q : ℚ}

/-- Every number fits the format. -/
theorem fits (x : Float) : Fits x.toModel.unpack := fits_unpack _

/-- Finite numbers compare as their values do. -/
theorem le_iff_value_le (hx : value? x = some p) (hy : value? y = some q) : x ≤ y ↔ p ≤ q := by
  obtain ⟨r, hr, hpr⟩ := ranks_of_value (fits x).isCanonical hx
  obtain ⟨k, hk, hqk⟩ := ranks_of_value (fits y).isCanonical hy
  rw [hpr.le_iff hqk]
  refine (isRank.le_iff x y).trans ⟨?_, fun hle => ⟨r, k, hr, hk, hle⟩⟩
  rintro ⟨r', k', hr', hk', hle⟩
  cases hr.symm.trans hr'
  cases hk.symm.trans hk'
  exact hle

/-- So does the strict order. -/
theorem lt_iff_value_lt (hx : value? x = some p) (hy : value? y = some q) : x < y ↔ p < q := by
  rw [Scalar.Ordered.lt_iff_le_not_ge (α := Float), le_iff_value_le hx hy, le_iff_value_le hy hx,
    lt_iff_le_not_ge]

/-- A finite number is defined. -/
theorem isNaN_of_value (hx : value? x = some p) : Scalar.isNaN x = false := by
  obtain ⟨r, hr, -⟩ := ranks_of_value (fits x).isCanonical hx
  exact isRank.isNaN_eq_false hr

/-- Ranks of finite numbers lie strictly between those of the infinities. -/
theorem Ranks.class_lt {r : Rank} (hr : Ranks p r) : -2 < (ofLex r).1 ∧ (ofLex r).1 < 2 := by
  cases hr with
  | positive => exact ⟨show (-2 : ℤ) < 1 by decide, show (1 : ℤ) < 2 by decide⟩
  | zero => exact ⟨show (-2 : ℤ) < 0 by decide, show (0 : ℤ) < 2 by decide⟩
  | negative => exact ⟨show (-2 : ℤ) < -1 by decide, show (-1 : ℤ) < 2 by decide⟩

/-- A number between finite ones is finite. -/
theorem exists_value (hlow : a ≤ x) (hhigh : x ≤ b) (ha : value? a = some p)
    (hb : value? b = some q) : ∃ r, value? x = some r ∧ p ≤ r ∧ r ≤ q := by
  -- the undefined number has no rank, and an infinite one has a rank beyond those of the two ends
  have hfinite : ∃ r, value? x = some r := by
    obtain ⟨i, hi, hpi⟩ := ranks_of_value (fits a).isCanonical ha
    obtain ⟨j, hj, hqj⟩ := ranks_of_value (fits b).isCanonical hb
    obtain ⟨i', k, hi', hk, hik⟩ := (isRank.le_iff a x).mp hlow
    obtain ⟨k', j', hk', hj', hkj⟩ := (isRank.le_iff x b).mp hhigh
    cases hi.symm.trans hi'
    cases hj.symm.trans hj'
    cases hk.symm.trans hk'
    -- so the class of the rank lies strictly between those of the infinities
    have hclass : -2 < (ofLex k).1 ∧ (ofLex k).1 < 2 :=
      ⟨hpi.class_lt.1.trans_le (Prod.Lex.monotone_fst _ _ hik),
        (Prod.Lex.monotone_fst _ _ hkj).trans_lt hqj.class_lt.2⟩
    unfold rank? at hk
    unfold value?
    generalize x.toModel.unpack = u at hk
    cases u with
    | notANumber => cases hk
    | infinity s =>
      cases s with
      | negative =>
        cases hk
        exact absurd hclass.1 (lt_irrefl _)
      | positive =>
        cases hk
        exact absurd hclass.2 (lt_irrefl _)
    | zero | finite => exact ⟨_, rfl⟩
  obtain ⟨r, hr⟩ := hfinite
  exact ⟨r, hr, (le_iff_value_le ha hr).mp hlow, (le_iff_value_le hr hb).mp hhigh⟩

/-- Numbers of one value compare as equal. -/
theorem same_of_value (hx : value? x = some p) (hy : value? y = some p) : Scalar.Same x y :=
  ⟨(le_iff_value_le hx hy).mpr (le_refl p), (le_iff_value_le hy hx).mpr (le_refl p)⟩

end BranchBound.Binary64
