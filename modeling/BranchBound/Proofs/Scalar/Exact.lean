import BranchBound.Proofs.Scalar.Rounding
import BranchBound.Word
import Mathlib.Algebra.Order.Field.Basic
import Mathlib.Algebra.Order.Floor.Ring
import Mathlib.Order.WithBot
import Mathlib.Tactic.NormNum

/-! # Exact numbers

The laws of exact arithmetic: finite numbers are closed under the operations, and rounding to whole
numbers is exact. The points of any ordered field with a floor, together with two infinities and an
undefined value, obey them.

* **`Scalar.Exact`** — the laws. Exact arithmetic obeys the laws of rounding, on which the splitting
  of boxes relies.
* **`Extended K`** — the number line over a field, as scalars. -/

namespace BranchBound

namespace Scalar

/-- The laws of exact arithmetic. -/
class Exact (α : Type) [Scalar α] : Prop extends Ordered α where
  /-- A finite number is defined. -/
  isNaN_of_isFinite {x : α} : isFinite x = true → isNaN x = false
  /-- What lies between two finite numbers is finite. -/
  isFinite_of_between {x y z : α} :
    isFinite x = true → isFinite z = true → x ≤ y → y ≤ z → isFinite y = true
  /-- Zero is finite. -/
  isFinite_zero : isFinite (0 : α) = true
  /-- One is finite. -/
  isFinite_one : isFinite (1 : α) = true
  /-- Sums of finite numbers are finite. -/
  isFinite_add {x y : α} : isFinite x = true → isFinite y = true → isFinite (x + y) = true
  /-- Differences of finite numbers are finite. -/
  isFinite_sub {x y : α} : isFinite x = true → isFinite y = true → isFinite (x - y) = true
  /-- Products of finite numbers are finite. -/
  isFinite_mul {x y : α} : isFinite x = true → isFinite y = true → isFinite (x * y) = true
  /-- Rounding down keeps finite numbers finite. -/
  isFinite_floor {x : α} : isFinite x = true → isFinite (floor x) = true
  /-- A number that is defined can be rounded down. -/
  isNaN_floor {x : α} : isNaN x = false → isNaN (floor x) = false
  /-- Rounding up keeps finite numbers finite. -/
  isFinite_ceil {x : α} : isFinite x = true → isFinite (ceil x) = true
  /-- Decimals are finite. -/
  isFinite_ofDecimal (d : Decimal) : isFinite (ofDecimal d : α) = true
  /-- Decimals without a minus sign are not negative. -/
  ofDecimal_nonneg {d : Decimal} : d.negative = false → 0 ≤ (ofDecimal d : α)
  /-- Taking something off makes no number greater. -/
  sub_le {x y d : α} : isFinite d = true → 0 ≤ d → x ≤ y → x - d ≤ y
  /-- Adding something makes no number smaller. -/
  le_add {x y d : α} : isFinite d = true → 0 ≤ d → x ≤ y → x ≤ y + d
  /-- Rounding up does not pass a whole number. -/
  ceil_le {x y : α} : IsWhole y → x ≤ y → ceil x ≤ y
  /-- Rounding down does not pass a whole number. -/
  le_floor {x y : α} : IsWhole y → y ≤ x → y ≤ floor x
  /-- A whole number above another one is above it by one at least. -/
  floor_add_one_le {x y : α} : IsWhole y → floor x < y → floor x + 1 ≤ y

variable {α : Type} [Scalar α] [Exact α] {x y : α}

/-- The middle between finite numbers is finite. -/
theorem isFinite_middle (hx : isFinite x = true) (hy : isFinite y = true) :
    isFinite (middle x y) = true :=
  Exact.isFinite_mul (Exact.isFinite_ofDecimal _) (Exact.isFinite_add hx hy)

/-- Exact arithmetic obeys the laws of rounding. -/
instance : Rounding α where
  ceil_sub_slack_le hy hxy :=
    Exact.ceil_le hy (Exact.sub_le (Exact.isFinite_ofDecimal _) (Exact.ofDecimal_nonneg rfl) hxy)
  le_floor_add_slack hx hxy :=
    Exact.le_floor hx (Exact.le_add (Exact.isFinite_ofDecimal _) (Exact.ofDecimal_nonneg rfl) hxy)
  isFinite_ceil_sub_slack hx :=
    Exact.isFinite_ceil (Exact.isFinite_sub hx (Exact.isFinite_ofDecimal _))
  isFinite_floor_add_slack hx :=
    Exact.isFinite_floor (Exact.isFinite_add hx (Exact.isFinite_ofDecimal _))
  isNaN_middle hx hy := Exact.isNaN_of_isFinite (isFinite_middle hx hy)
  isNaN_floor hx := Exact.isNaN_floor hx
  floor_add_one_le := Exact.floor_add_one_le

end Scalar

/-! ## The number line -/

/-- The points of a field, two infinities and an undefined value. -/
inductive Extended (K : Type)
  /-- The undefined value. -/
  | undefined
  /-- Negative infinity. -/
  | bottom
  /-- A point of the field. -/
  | point (q : K)
  /-- Infinity. -/
  | top
  deriving DecidableEq

namespace Extended

variable {K : Type}

/-- The place of a value in the order; an undefined one has none. -/
def rank? : Extended K → Option (WithBot (WithTop K))
  | undefined => none
  | bottom => some ⊥
  | point q => some ((q : WithTop K) : WithBot (WithTop K))
  | top => some ⊤

/-- The place of a value in the order of all values. -/
def orderKey (x : Extended K) : WithBot (WithBot (WithTop K)) := x.rank?

/-- Whether two values compare in a way. -/
def compares (rel : WithBot (WithTop K) → WithBot (WithTop K) → Bool) (x y : Extended K) : Bool :=
  match x.rank?, y.rank? with
  | some r, some q => rel r q
  | _, _ => false

variable [Field K] [LinearOrder K] [FloorRing K]

/-- An infinity on the side that `x` is on. -/
def endOf (x : K) : Extended K := if 0 < x then top else if x < 0 then bottom else undefined

/-- The opposite value. -/
def neg : Extended K → Extended K
  | undefined => undefined
  | bottom => top
  | point q => point (-q)
  | top => bottom

/-- Sums; that of opposite infinities is undefined. -/
def add : Extended K → Extended K → Extended K
  | point p, point q => point (p + q)
  | undefined, _ | _, undefined | top, bottom | bottom, top => undefined
  | top, _ | _, top => top
  | bottom, _ | _, bottom => bottom

/-- The sign of a value that is defined, as a point. -/
def sign : Extended K → K
  | undefined => 0
  | bottom => -1
  | point q => if 0 < q then 1 else if q < 0 then -1 else 0
  | top => 1

/-- Products; that of zero and an infinity is undefined. -/
def mul : Extended K → Extended K → Extended K
  | point p, point q => point (p * q)
  | undefined, _ | _, undefined => undefined
  | x, y => endOf (x.sign * y.sign)

/-- Quotients; those of two zeros and of two infinities are undefined. -/
def div : Extended K → Extended K → Extended K
  | point p, point q => if q = 0 then endOf p else point (p / q)
  | undefined, _ | _, undefined | top, top | top, bottom | bottom, top | bottom, bottom => undefined
  | point _, top | point _, bottom => point 0
  | top, point q => if q < 0 then bottom else top
  | bottom, point q => if q < 0 then top else bottom

/-- Applies a function to a point of the field. -/
def map (f : K → K) : Extended K → Extended K
  | point q => point (f q)
  | x => x

/-- The point that a decimal denotes. -/
def ofDecimal (d : Decimal) : K :=
  let size : K := d.coefficient * (10 : K) ^ d.exponent
  if d.negative then -size else size

/-- Exact numbers are scalars. Not all points have a decimal: the whole part stands in for it. -/
instance : Scalar (Extended K) where
  zero := point 0
  one := point 1
  add := add
  sub x y := x.add y.neg
  mul := mul
  div := div
  neg := neg
  lt x y := x.compares (fun r q => decide (r < q)) y = true
  le x y := x.compares (fun r q => decide (r ≤ q)) y = true
  beq x y := x.compares (fun r q => decide (r = q)) y
  decLt _ _ := inferInstanceAs (Decidable (_ = true))
  decLe _ _ := inferInstanceAs (Decidable (_ = true))
  infinity := top
  isNaN x := x.rank?.isNone
  isFinite
    | point _ => true
    | _ => false
  abs
    | point q => point |q|
    | bottom => top
    | x => x
  floor := map fun q => ⌊q⌋
  ceil := map fun q => ⌈q⌉
  order := compareOn orderKey
  ofNat n := point n
  ofDecimal d := point (ofDecimal d)
  toDecimal _
    | point q => ⟨q < 0, ⌊|q|⌋₊, 0⟩
    | _ => default
  toWord
    | point q => min ⌊q⌋₊ (wordRange - 1)
    | top => wordRange - 1
    | _ => 0

/-! ## The laws -/

variable {p q : K} {x y : Extended K}

omit [Field K] [LinearOrder K] [FloorRing K] in
/-- Comparison by rank. -/
theorem compares_eq_true {rel : WithBot (WithTop K) → WithBot (WithTop K) → Bool} :
    x.compares rel y = true ↔ ∃ r q, x.rank? = some r ∧ y.rank? = some q ∧ rel r q = true := by
  unfold compares
  cases x.rank? <;> cases y.rank? <;> simp

/-- Values compare as their ranks do. -/
theorem isRank : Scalar.IsRank (rank? : Extended K → Option (WithBot (WithTop K))) where
  lt_iff x y := by
    change x.compares _ y = true ↔ _
    simp only [compares_eq_true, decide_eq_true_eq]
  le_iff x y := by
    change x.compares _ y = true ↔ _
    simp only [compares_eq_true, decide_eq_true_eq]
  beq_iff x y := by
    change x.compares _ y = true ↔ _
    simp only [compares_eq_true, decide_eq_true_eq]
    constructor
    · rintro ⟨r, q, hr, hq, rfl⟩
      exact ⟨r, hr, hq⟩
    · rintro ⟨r, hr, hq⟩
      exact ⟨r, r, hr, hq, rfl⟩
  isNaN_iff x := Option.isNone_iff_eq_none
  infinity_rank := by
    refine ⟨((⊤ : WithTop K) : WithBot (WithTop K)), rfl, fun x r hr => ?_⟩
    cases x <;> cases hr <;> simp
  neg_infinity_rank := ⟨⊥, rfl, fun x r _ => bot_le⟩

instance : Scalar.Ordered (Extended K) :=
  isRank.ordered (inferInstanceAs (Std.TransCmp (compareOn orderKey)))

/-- Points compare as in the field. -/
theorem point_le_point : point p ≤ point q ↔ p ≤ q := by
  rw [isRank.le_iff]
  simp [rank?]

/-- Points compare as in the field. -/
theorem point_lt_point : point p < point q ↔ p < q := by
  rw [isRank.lt_iff]
  simp [rank?]

/-- A value is finite if it is a point. -/
theorem isFinite_iff : Scalar.isFinite x = true ↔ ∃ q, x = point q := by
  cases x <;> simp [Scalar.isFinite]

/-- What lies between two points is a point. -/
theorem exists_point_of_between (hpx : point p ≤ x) (hxq : x ≤ point q) : ∃ r, x = point r := by
  rw [isRank.le_iff] at hpx hxq
  cases x <;> simp_all [rank?]

/-- A whole point is its own floor. -/
theorem floor_eq_of_isWhole (h : Scalar.IsWhole (point q)) : (⌊q⌋ : K) = q := by
  obtain ⟨hle, hge⟩ := Scalar.Ordered.beq_iff_le_ge.mp h
  exact le_antisymm (point_le_point.mp hle) (point_le_point.mp hge)

/-- Taking off a point concerns points only. -/
theorem sub_point (x : Extended K) (d : K) : x - point d = x.map (· - d) := by
  cases x with
  | point p => exact congrArg point (sub_eq_add_neg p d).symm
  | _ => rfl

/-- Adding a point concerns points only. -/
theorem add_point (x : Extended K) (d : K) : x + point d = x.map (· + d) := by
  cases x <;> rfl

/-- A function that makes no point too great makes no value too great. -/
theorem map_le {f : K → K} (hf : ∀ p q, x = point p → y = point q → p ≤ q → f p ≤ q)
    (h : x ≤ y) : x.map f ≤ y := by
  cases x with
  | point p =>
    cases y with
    | point q => exact point_le_point.mpr (hf p q rfl rfl (point_le_point.mp h))
    | top => exact Scalar.Ordered.le_infinity rfl
    | _ => simp [isRank.le_iff, rank?] at h
  | _ => exact h

/-- A function that makes no point too small makes no value too small. -/
theorem le_map {f : K → K} (hf : ∀ p q, x = point p → y = point q → p ≤ q → p ≤ f q)
    (h : x ≤ y) : x ≤ y.map f := by
  cases y with
  | point q =>
    cases x with
    | point p => exact point_le_point.mpr (hf p q rfl rfl (point_le_point.mp h))
    | bottom => exact Scalar.Ordered.neg_infinity_le rfl
    | _ => simp [isRank.le_iff, rank?] at h
  | _ => exact h

instance [IsStrictOrderedRing K] : Scalar.Exact (Extended K) where
  isNaN_of_isFinite h := by
    obtain ⟨q, rfl⟩ := isFinite_iff.mp h
    rfl
  isFinite_of_between hx hz hxy hyz := by
    obtain ⟨p, rfl⟩ := isFinite_iff.mp hx
    obtain ⟨q, rfl⟩ := isFinite_iff.mp hz
    exact isFinite_iff.mpr (exists_point_of_between hxy hyz)
  isFinite_zero := rfl
  isFinite_one := rfl
  isFinite_add hx hy := by
    obtain ⟨p, rfl⟩ := isFinite_iff.mp hx
    obtain ⟨q, rfl⟩ := isFinite_iff.mp hy
    rfl
  isFinite_sub hx hy := by
    obtain ⟨p, rfl⟩ := isFinite_iff.mp hx
    obtain ⟨q, rfl⟩ := isFinite_iff.mp hy
    rfl
  isFinite_mul hx hy := by
    obtain ⟨p, rfl⟩ := isFinite_iff.mp hx
    obtain ⟨q, rfl⟩ := isFinite_iff.mp hy
    rfl
  isFinite_floor hx := by
    obtain ⟨p, rfl⟩ := isFinite_iff.mp hx
    rfl
  isFinite_ceil hx := by
    obtain ⟨p, rfl⟩ := isFinite_iff.mp hx
    rfl
  isFinite_ofDecimal d := rfl
  ofDecimal_nonneg {d} hd := by
    refine point_le_point.mpr ?_
    show (0 : K) ≤ if d.negative then _ else _
    rw [hd, if_neg Bool.false_ne_true]
    exact mul_nonneg (Nat.cast_nonneg _) (zpow_nonneg (Nat.ofNat_nonneg 10) _)
  sub_le {x y d} hd hnonneg hxy := by
    obtain ⟨d, rfl⟩ := isFinite_iff.mp hd
    have h : 0 ≤ d := point_le_point.mp hnonneg
    rw [sub_point]
    exact map_le (fun p q _ _ hpq => (sub_le_self p h).trans hpq) hxy
  le_add {x y d} hd hnonneg hxy := by
    obtain ⟨d, rfl⟩ := isFinite_iff.mp hd
    have h : 0 ≤ d := point_le_point.mp hnonneg
    rw [add_point]
    exact le_map (fun p q _ _ hpq => hpq.trans (le_add_of_nonneg_right h)) hxy
  ceil_le {x y} hy hxy := by
    refine map_le (fun p q _ hq hpq => ?_) hxy
    subst hq
    -- a whole number is its own floor, so the comparison is one of integers
    have hfloor := floor_eq_of_isWhole hy
    rw [← hfloor] at hpq ⊢
    exact_mod_cast Int.ceil_le.mpr hpq
  le_floor {x y} hy hyx := by
    refine le_map (fun q p hq _ hqp => ?_) hyx
    subst hq
    have hfloor := floor_eq_of_isWhole hy
    rw [← hfloor] at hqp ⊢
    exact_mod_cast Int.le_floor.mpr hqp
  isNaN_floor {x} hx := by
    cases x with
    | undefined => exact hx
    | _ => rfl
  floor_add_one_le {x y} hy hxy := by
    cases x with
    | point p =>
      cases y with
      | point q =>
        -- both sides are whole, so less than means less by one
        have hlt : (⌊p⌋ : K) < q := point_lt_point.mp hxy
        refine point_le_point.mpr (show (⌊p⌋ : K) + 1 ≤ q from ?_)
        rw [← floor_eq_of_isWhole hy] at hlt ⊢
        exact_mod_cast Int.add_one_le_iff.mpr (Int.cast_lt.mp hlt)
      | top => exact Scalar.Ordered.le_infinity rfl
      | _ =>
        have h := (isRank.lt_iff _ _).mp hxy
        simp [Scalar.floor, map, rank?] at h
    | _ => exact Scalar.le_of_lt hxy

end Extended

end BranchBound
