import BranchBound.Proofs.Scalar.Congruence
import Mathlib.Tactic.Linarith

/-! # Whole numbers within range

Pure-integer searches compute with whole numbers that are not far from zero, and within that range
a number type behaves like the whole numbers: rounding does not leave the whole numbers between
which a value lies, not even if a slack was taken off or added before, and the middle between two
whole numbers separates them.

* **`Scalar.wholeRange`**, **`Scalar.ofInt`**, **`Scalar.Stands`** — the range, its whole numbers,
  and the values that stand for them.
* **`Scalar.Discrete`** — the laws. Exact arithmetic and binary floating-point numbers obey them. -/

namespace BranchBound

namespace Scalar

/-- Whole numbers up to this distance from zero are in range. -/
def wholeRange : Nat := 0x10000000000000

/-- A whole number is in range. -/
def InRange (n : ℤ) : Prop := n.natAbs ≤ wholeRange

instance (n : ℤ) : Decidable (InRange n) := inferInstanceAs (Decidable (_ ≤ _))

variable {α : Type} [Scalar α]

/-- The value closest to a whole number. -/
def ofInt : ℤ → α
  | .ofNat n => ofNat n
  | .negSucc n => -ofNat (n + 1)

/-- A value stands for a whole number in range. -/
structure Stands (x : α) (n : ℤ) : Prop where
  /-- The whole number is in range. -/
  inRange : InRange n
  /-- The value compares as equal to it. -/
  same : Same x (ofInt n)

/-- The laws of arithmetic on whole numbers in range. -/
class Discrete (α : Type) [Scalar α] : Prop extends Ordered α where
  /-- Whole numbers compare as they do elsewhere. -/
  ofInt_le_iff {m n : ℤ} : InRange m → InRange n → ((ofInt m : α) ≤ ofInt n ↔ m ≤ n)
  /-- Zero is a whole number. -/
  same_zero : Same (0 : α) (ofInt 0)
  /-- One is a whole number. -/
  same_one : Same (1 : α) (ofInt 1)
  /-- Rounding up stays between whole numbers. -/
  ceil_between {x : α} {m n : ℤ} : InRange m → InRange n → ofInt m ≤ x → x ≤ ofInt n →
    ∃ k, m ≤ k ∧ k ≤ n ∧ Same (ceil x) (ofInt k)
  /-- Rounding down stays between whole numbers. -/
  floor_between {x : α} {m n : ℤ} : InRange m → InRange n → ofInt m ≤ x → x ≤ ofInt n →
    ∃ k, m ≤ k ∧ k ≤ n ∧ Same (floor x) (ofInt k)
  /-- So does rounding up with a slack. -/
  ceil_sub_slack_between {x : α} {m n : ℤ} : InRange m → InRange n → ofInt m ≤ x → x ≤ ofInt n →
    ∃ k, m ≤ k ∧ k ≤ n ∧ Same (ceil (x - slack)) (ofInt k)
  /-- So does rounding down with a slack. -/
  floor_add_slack_between {x : α} {m n : ℤ} : InRange m → InRange n → ofInt m ≤ x → x ≤ ofInt n →
    ∃ k, m ≤ k ∧ k ≤ n ∧ Same (floor (x + slack)) (ofInt k)
  /-- A difference has the sign that it should have. -/
  sub_nonpos_iff {x y : α} {m n : ℤ} : Stands x m → Stands y n → (y - x ≤ 0 ↔ n ≤ m)
  /-- The middle between two whole numbers separates them. -/
  middle_between {x y : α} {m n : ℤ} : Stands x m → Stands y n → m < n →
    ∃ k, m ≤ k ∧ k < n ∧ Same (floor (middle x y)) (ofInt k)
      ∧ Same (floor (middle x y) + 1) (ofInt (k + 1))

variable [Discrete α] {x y : α} {k m n : ℤ}

/-- What lies between whole numbers in range is in range. -/
theorem InRange.between (hm : InRange m) (hn : InRange n) (hmk : m ≤ k) (hkn : k ≤ n) :
    InRange k := by
  unfold InRange at *
  omega

/-- A whole number in range stands for itself. -/
theorem stands_ofInt (h : InRange n) : Stands (ofInt n : α) n :=
  ⟨h, (Discrete.ofInt_le_iff h h).mpr (le_refl n), (Discrete.ofInt_le_iff h h).mpr (le_refl n)⟩

/-- Values compare as the whole numbers they stand for. -/
theorem Stands.le_iff (hx : Stands x m) (hy : Stands y n) : x ≤ y ↔ m ≤ n :=
  (hx.same.le_congr hy.same).trans (Discrete.ofInt_le_iff hx.inRange hy.inRange)

/-- A value is not far from zero. -/
def Near (x : α) : Prop := ofInt (-wholeRange) ≤ x ∧ x ≤ ofInt wholeRange

/-- The ends of the range are in range. -/
theorem inRange_ends : InRange (-(wholeRange : ℤ)) ∧ InRange (wholeRange : ℤ) := by
  decide

/-- What stands for a whole number in range is not far from zero. -/
theorem Stands.near (hx : Stands x n) : Near x := by
  have hrange : n.natAbs ≤ wholeRange := hx.inRange
  constructor
  · exact ((stands_ofInt inRange_ends.1).le_iff hx).mpr (by omega)
  · exact (hx.le_iff (stands_ofInt inRange_ends.2)).mpr (by omega)

/-- What is not far from zero is rounded up to a whole number in range. -/
theorem Near.ceil (h : Near x) : ∃ k, Stands (Scalar.ceil x) k := by
  obtain ⟨k, hlow, hhigh, hsame⟩ :=
    Discrete.ceil_between inRange_ends.1 inRange_ends.2 h.1 h.2
  exact ⟨k, inRange_ends.1.between inRange_ends.2 hlow hhigh, hsame⟩

/-- What is not far from zero is rounded down to a whole number in range. -/
theorem Near.floor (h : Near x) : ∃ k, Stands (Scalar.floor x) k := by
  obtain ⟨k, hlow, hhigh, hsame⟩ :=
    Discrete.floor_between inRange_ends.1 inRange_ends.2 h.1 h.2
  exact ⟨k, inRange_ends.1.between inRange_ends.2 hlow hhigh, hsame⟩

end Scalar

/-! ## Exact numbers -/

namespace Extended

variable {K : Type} [Field K] [LinearOrder K] [FloorRing K]

/-- Whole numbers are points. -/
theorem ofInt_eq (n : ℤ) : (Scalar.ofInt n : Extended K) = point (n : K) := by
  cases n with
  | ofNat n => exact congrArg point (Int.cast_natCast n).symm
  | negSucc n =>
    show point (-((n + 1 : ℕ) : K)) = point _
    rw [Int.cast_negSucc]

/-- The slack is a point. -/
theorem slack_eq : (Scalar.slack : Extended K) = point (10 ^ (-9 : ℤ)) := by
  show point (((1 : ℕ) : K) * 10 ^ (-9 : ℤ)) = _
  rw [Nat.cast_one, one_mul]

/-- The middle between two points. -/
theorem middle_point [IsStrictOrderedRing K] (p q : K) :
    Scalar.middle (point p) (point q) = point ((p + q) / 2) := by
  show point (((5 : ℕ) : K) * 10 ^ (-1 : ℤ) * (p + q)) = _
  congr 1
  rw [zpow_neg_one]
  norm_num
  exact one_div_mul_eq_div 2 _

variable {x : Extended K} {m n : ℤ}

omit [Field K] [LinearOrder K] [FloorRing K] in
/-- One function after the other. -/
theorem map_map (f g : K → K) (x : Extended K) : (x.map f).map g = x.map fun q => g (f q) := by
  cases x <;> rfl

/-- A function from points to whole numbers that stays between two of them. -/
theorem map_between {f : K → ℤ} (hm : (Scalar.ofInt m : Extended K) ≤ x)
    (hn : x ≤ Scalar.ofInt n) (hf : ∀ q : K, m ≤ q → q ≤ n → m ≤ f q ∧ f q ≤ n) :
    ∃ k, m ≤ k ∧ k ≤ n ∧ Scalar.Same (x.map fun q => (f q : K)) (Scalar.ofInt k) := by
  rw [ofInt_eq] at hm hn
  obtain ⟨q, rfl⟩ := exists_point_of_between hm hn
  obtain ⟨hlow, hhigh⟩ := hf q (point_le_point.mp hm) (point_le_point.mp hn)
  refine ⟨f q, hlow, hhigh, ?_⟩
  rw [ofInt_eq]
  exact .refl rfl

/-- A value that stands for a whole number is that point. -/
theorem eq_of_stands (h : Scalar.Stands x n) : x = point (n : K) := by
  rw [← ofInt_eq]
  exact eq_of_same h.same

/-- The slack is less than one. -/
theorem slack_pos_lt_one [IsStrictOrderedRing K] :
    (0 : K) < 10 ^ (-9 : ℤ) ∧ (10 : K) ^ (-9 : ℤ) < 1 := by
  rw [zpow_neg]
  norm_num

instance [IsStrictOrderedRing K] : Scalar.Discrete (Extended K) where
  ofInt_le_iff _ _ := by
    rw [ofInt_eq, ofInt_eq, point_le_point, Int.cast_le]
  same_zero := by
    rw [ofInt_eq, Int.cast_zero]
    exact .refl rfl
  same_one := by
    rw [ofInt_eq, Int.cast_one]
    exact .refl rfl
  ceil_between _ _ hm hn := map_between hm hn fun q hmq hqn =>
    ⟨Int.cast_le.mp (hmq.trans (Int.le_ceil q)), Int.ceil_le.mpr hqn⟩
  floor_between _ _ hm hn := map_between hm hn fun q hmq hqn =>
    ⟨Int.le_floor.mpr hmq, Int.cast_le.mp ((Int.floor_le q).trans hqn)⟩
  ceil_sub_slack_between {x m n} _ _ hm hn := by
    obtain ⟨hpos, hlt⟩ := slack_pos_lt_one (K := K)
    show ∃ k, m ≤ k ∧ k ≤ n ∧ Scalar.Same ((x - Scalar.slack).map fun q => (⌈q⌉ : K)) _
    rw [slack_eq, sub_point, map_map]
    refine map_between hm hn fun q hmq hqn => ⟨?_, Int.ceil_le.mpr (by linarith)⟩
    rw [← Int.sub_one_lt_iff, Int.lt_ceil, Int.cast_sub, Int.cast_one]
    linarith
  floor_add_slack_between {x m n} _ _ hm hn := by
    obtain ⟨hpos, hlt⟩ := slack_pos_lt_one (K := K)
    show ∃ k, m ≤ k ∧ k ≤ n ∧ Scalar.Same ((x + Scalar.slack).map fun q => (⌊q⌋ : K)) _
    rw [slack_eq, add_point, map_map]
    refine map_between hm hn fun q hmq hqn => ⟨Int.le_floor.mpr (by linarith), ?_⟩
    rw [← Int.lt_add_one_iff, Int.floor_lt, Int.cast_add, Int.cast_one]
    linarith
  sub_nonpos_iff {x y m n} hx hy := by
    rw [eq_of_stands hx, eq_of_stands hy, sub_point]
    show point ((n : K) - m) ≤ point 0 ↔ n ≤ m
    rw [point_le_point, sub_nonpos, Int.cast_le]
  middle_between {x y m n} hx hy hmn := by
    rw [eq_of_stands hx, eq_of_stands hy, middle_point]
    have hlt : (m : K) < n := Int.cast_lt.mpr hmn
    refine ⟨⌊((m : K) + n) / 2⌋, Int.le_floor.mpr (by linarith), Int.floor_lt.mpr (by linarith),
      ?_, ?_⟩
    · rw [ofInt_eq]
      exact .refl rfl
    · rw [ofInt_eq, Int.cast_add, Int.cast_one]
      exact .refl rfl

end Extended

end BranchBound
