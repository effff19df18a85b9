import BranchBound.Proofs.Scalar.Binary64Whole
import BranchBound.Proofs.Scalar.Exact
import Mathlib.Algebra.Order.Group.Synonym
import Mathlib.Algebra.Order.Monoid.Prod

/-! # Negation and the total order

Low bounds come first because their negations are ranked by the total order, which looks at the
bits of a number. That is sound only if the total order agrees with the comparison of values, and
if negation turns that comparison around.

* **`Scalar.Reversing`** — these laws; `le_of_order_neg` is what they come to.
* **`Binary64.rank_le_of_orderKey_le`** — the total order of binary numbers agrees with their
  ranks, up to the two zeros.
* **`Binary64.rank?_neg`** — negation turns the ranks around. -/

namespace BranchBound

namespace Scalar

/-- The total order agrees with the comparison of values, which negation turns around. -/
class Reversing (α : Type) [Scalar α] : Prop extends Ordered α where
  /-- A value that is not above another one in the total order is at most that one. -/
  le_of_order {x y : α} : isNaN x = false → isNaN y = false → order x y ≠ .gt → x ≤ y
  /-- The negation of a value that is defined is defined. -/
  isNaN_neg {x : α} : isNaN x = false → isNaN (-x) = false
  /-- Negation turns comparison around. -/
  le_of_neg_le {x y : α} : -x ≤ -y → y ≤ x

/-- A value is at least every value whose negation is not ranked below its own. -/
theorem le_of_order_neg {α : Type} [Scalar α] [Reversing α] {x y : α} (hx : isNaN x = false)
    (hy : isNaN y = false) (h : order (-x) (-y) ≠ .gt) : y ≤ x :=
  Reversing.le_of_neg_le
    (Reversing.le_of_order (Reversing.isNaN_neg hx) (Reversing.isNaN_neg hy) h)

end Scalar

/-! ## Exact numbers -/

namespace Extended

variable {K : Type} [Field K] [LinearOrder K] [IsStrictOrderedRing K] [FloorRing K]

instance : Scalar.Reversing (Extended K) where
  le_of_order {x y} hx hy h := by
    obtain ⟨r, hr⟩ := isRank.exists_rank hx
    obtain ⟨q, hq⟩ := isRank.exists_rank hy
    have hkey : x.orderKey ≤ y.orderKey := compare_le_iff_le.mp h
    unfold orderKey at hkey
    rw [hr, hq] at hkey
    exact (isRank.le_iff x y).mpr ⟨r, q, hr, hq, WithBot.coe_le_coe.mp hkey⟩
  isNaN_neg {x} hx := by
    cases x <;> first | rfl | exact hx
  le_of_neg_le {x y} h := by
    obtain ⟨r, q, hr, hq, hle⟩ := (isRank.le_iff (-x) (-y)).mp h
    cases x <;> cases y <;> cases hr <;> cases hq
    case point.point => exact point_le_point.mpr (neg_le_neg_iff.mp (point_le_point.mp h))
    all_goals
      refine (isRank.le_iff _ _).mpr ⟨_, _, rfl, rfl, ?_⟩
      simp_all

end Extended

/-! ## Binary floating-point numbers -/

namespace Binary64

open Float.Model (UnpackedFloat)
open Float.Model.UnpackedFloat (Sign)

/-- The lexicographic order of ranks. -/
theorem toLex_le_toLex {c d e f m n : ℤ} :
    (toLex (c, toLex (e, m)) : Rank) ≤ toLex (d, toLex (f, n))
      ↔ c < d ∨ c = d ∧ (e < f ∨ e = f ∧ m ≤ n) := by
  rw [Prod.Lex.toLex_le_toLex, Prod.Lex.toLex_le_toLex]

/-- Negating an unpacked number turns its rank around. -/
theorem unpackedRank?_neg (u : UnpackedFloat) :
    unpackedRank? u.neg = (unpackedRank? u).map Neg.neg := by
  rcases u with (_ | _) | _ | (_ | _) | ⟨_ | _, m, e, h⟩ <;> try rfl
  -- a negative number has its exponent and mantissa negated twice
  show some (toLex (1, toLex (e, (m : ℤ))) : Rank) = some (toLex (- -1, toLex (- -e, - -(m : ℤ))))
  simp only [neg_neg]

/-- The rank of positive parts. -/
def partsRank (e m : Nat) : Rank :=
  if e = 2047 then toLex (2, toLex (0, 0))
  else if e = 0 ∧ m = 0 then toLex (0, toLex (0, 0))
  else toLex (1, toLex (((max e 1 : Nat) : ℤ) - 1075, (significand e m : ℤ)))

/-- The rank of a positive number, read off its parts. -/
theorem eq_partsRank {e m : Nat} {r : Rank}
    (h : unpackedRank? (ofParts .positive e m) = some r) : r = partsRank e m := by
  unfold ofParts at h
  unfold partsRank significand
  split at h
  · rw [if_pos ‹_›]
    split at h
    · exact (Option.some.inj h).symm
    · cases h
  · rw [if_neg ‹_›]
    split at h
    · next he =>
      subst he
      split at h
      · rw [if_pos ⟨rfl, ‹_›⟩]
        exact (Option.some.inj h).symm
      · rw [if_neg fun hzero => ‹¬ m = 0› hzero.2]
        exact (Option.some.inj h).symm
    · next he =>
      rw [if_neg fun hzero => he hzero.1, if_neg he, max_eq_left (Nat.one_le_iff_ne_zero.mpr he)]
      exact (Option.some.inj h).symm

/-- The ranks of positive parts rise with the number that their bits make up. -/
theorem partsRank_le {e m f n : Nat} (hf : f < 2 ^ 11) (hm : m < 2 ^ 52) (hn : n < 2 ^ 52)
    (h : e * 2 ^ 52 + m ≤ f * 2 ^ 52 + n) : partsRank e m ≤ partsRank f n := by
  unfold partsRank significand
  split_ifs <;> rw [toLex_le_toLex] <;> omega

/-- No rank of positive parts is below that of zero. -/
theorem zero_le_partsRank {e m : Nat} (he : e < 2 ^ 11) (hm : m < 2 ^ 52) : 0 ≤ partsRank e m :=
  partsRank_le (e := 0) (m := 0) he (by decide) hm (Nat.zero_le _)

/-- The rank that a number would have without its sign. -/
def magnitudeRank (x : Float) : Rank :=
  partsRank (biasedExponent x).toNat (storedMantissa x).toNat

variable {x y : Float} {r q : Rank}

/-- Exponent and mantissa are within their bits. -/
theorem parts_lt (x : Float) :
    (biasedExponent x).toNat < 2 ^ 11 ∧ (storedMantissa x).toNat < 2 ^ 52 := by
  rw [toNat_biasedExponent, toNat_storedMantissa]
  exact ⟨Nat.mod_lt _ (by decide), Nat.mod_lt _ (by decide)⟩

/-- Without their signs, numbers rank as their bits. -/
theorem magnitudeRank_le (h : x.toBits.toNat % 2 ^ 63 ≤ y.toBits.toNat % 2 ^ 63) :
    magnitudeRank x ≤ magnitudeRank y := by
  refine partsRank_le (parts_lt y).1 (parts_lt x).2 (parts_lt y).2 ?_
  rw [toNat_biasedExponent, toNat_biasedExponent, toNat_storedMantissa, toNat_storedMantissa]
  omega

/-- The sign bit makes a number negative. -/
theorem isNegative_eq (x : Float) : isNegative x = decide (2 ^ 63 ≤ x.toBits.toNat) := by
  unfold isNegative
  refine decide_eq_decide.mpr ?_
  rw [← UInt64.toNat_inj, UInt64.toNat_shiftRight, Nat.shiftRight_eq_div_pow]
  have hlt := x.toBits.toNat_lt
  show x.toBits.toNat / 2 ^ 63 = 1 ↔ _
  omega

/-- The sign of a number is that of its sign bit. -/
theorem sign_eq (x : Float) : sign x = if isNegative x then .negative else .positive := by
  rw [isNegative_eq, sign, signOf]
  have hlt := x.toBits.toNat_lt
  by_cases h : 2 ^ 63 ≤ x.toBits.toNat
  · rw [if_neg (by omega), if_pos (decide_eq_true h)]
  · rw [if_pos (by omega), if_neg (by rw [decide_eq_false h]; decide)]

/-- Negative parts are positive ones negated. -/
theorem ofParts_negative (e m : Nat) : ofParts .negative e m = (ofParts .positive e m).neg := by
  unfold ofParts
  split
  · split <;> rfl
  · split
    · split <;> rfl
    · rfl

/-- The sign of a number turns its rank around. -/
theorem eq_magnitudeRank (h : rank? x = some r) :
    r = if isNegative x then -magnitudeRank x else magnitudeRank x := by
  unfold rank? at h
  rw [unpack_eq, sign_eq] at h
  cases hx : isNegative x with
  | false =>
    rw [hx] at h
    exact eq_partsRank h
  | true =>
    rw [hx] at h
    change unpackedRank? (ofParts .negative _ _) = _ at h
    rw [ofParts_negative, unpackedRank?_neg, Option.map_eq_some_iff] at h
    obtain ⟨q, hq, rfl⟩ := h
    rw [eq_partsRank hq]
    rfl

/-- The keys of the total order, as natural numbers. -/
theorem toNat_orderKey (x : Float) : (orderKey x).toNat
    = if isNegative x then 2 ^ 64 - 1 - x.toBits.toNat else 2 ^ 63 + x.toBits.toNat := by
  unfold orderKey
  cases hx : isNegative x with
  | true => exact UInt64.toNat_not _
  | false =>
    rw [isNegative_eq, decide_eq_false_iff_not, Nat.not_le] at hx
    show (x.toBits ||| 0x8000000000000000).toNat = 2 ^ 63 + x.toBits.toNat
    rw [UInt64.toNat_or, Nat.lor_comm]
    exact (Nat.two_pow_add_eq_or_of_lt hx 1).symm

/-- Ranks rise with the keys of the total order. -/
theorem rank_le_of_orderKey_le (hr : rank? x = some r) (hq : rank? y = some q)
    (h : orderKey x ≤ orderKey y) : r ≤ q := by
  have hmagnitude (z : Float) : 0 ≤ magnitudeRank z :=
    zero_le_partsRank (parts_lt z).1 (parts_lt z).2
  have hxlt := x.toBits.toNat_lt
  have hylt := y.toBits.toNat_lt
  rw [eq_magnitudeRank hr, eq_magnitudeRank hq]
  rw [UInt64.le_iff_toNat_le, toNat_orderKey, toNat_orderKey] at h
  cases hx : isNegative x <;> cases hy : isNegative y <;>
    rw [hx, hy] at h <;> rw [isNegative_eq] at hx hy <;>
    simp only [Bool.false_eq_true, if_true, if_false, decide_eq_true_eq,
      decide_eq_false_iff_not] at h hx hy ⊢
  · exact magnitudeRank_le (by omega)
  · omega
  · exact (neg_nonpos.mpr (hmagnitude x)).trans (hmagnitude y)
  · exact neg_le_neg (magnitudeRank_le (by omega))

/-- Negating a number turns its rank around. -/
theorem rank?_neg (x : Float) : rank? (-x) = (rank? x).map Neg.neg := by
  unfold rank?
  rw [unpack_neg]
  exact unpackedRank?_neg _

instance : Scalar.Reversing Float where
  le_of_order {x y} hx hy h := by
    obtain ⟨r, hr⟩ := isRank.exists_rank hx
    obtain ⟨q, hq⟩ := isRank.exists_rank hy
    have hkey : orderKey x ≤ orderKey y :=
      Std.isLE_compare.mp (Ordering.isLE_iff_ne_gt.mpr h)
    have hle : r ≤ q := rank_le_of_orderKey_le hr hq hkey
    exact (isRank.le_iff x y).mpr ⟨r, q, hr, hq, hle⟩
  isNaN_neg {x} hx := by
    obtain ⟨r, hr⟩ := isRank.exists_rank hx
    exact isRank.isNaN_eq_false (rank?_neg x ▸ congrArg (Option.map Neg.neg) hr)
  le_of_neg_le {x y} h := by
    obtain ⟨r, q, hr, hq, hle⟩ := (isRank.le_iff (-x) (-y)).mp h
    rw [rank?_neg, Option.map_eq_some_iff] at hr hq
    obtain ⟨i, hi, rfl⟩ := hr
    obtain ⟨j, hj, rfl⟩ := hq
    exact (isRank.le_iff y x).mpr ⟨j, i, hj, hi, neg_le_neg_iff.mp hle⟩

end Binary64

end BranchBound
