import BranchBound.Proofs.Box.Domain
import BranchBound.Pseudocost

/-! # Running averages

An average is updated by one sample at a time. Under exact arithmetic the outcome is the mean of all
the samples, whatever they are, and so it does not depend on their order. An undefined sample makes
the average undefined for good.

* **`Extended.mean`** — the mean of some numbers; `Average.foldr_push` finds it in a running
  average, `Extended.mean_map_point` computes it in the field, and `Extended.mean_perm` says that
  the order does not matter.
* **`Pseudocosts.average`** — the average on one side of a variable;
  `Pseudocosts.average_record?` is what recording a sample does to it. -/

namespace BranchBound

section Tables

variable {α : Type} [Scalar α]

namespace Pseudocosts

/-- The average on one side of a variable. -/
def average (p : Pseudocosts α) (side : Side) (i : ℕ) : Average α :=
  match side with
  | .up => p.up.getD i .empty
  | .down => p.down.getD i .empty
  | .unsplit => .empty

/-- The table is about `k` variables. -/
structure Sized (p : Pseudocosts α) (k : ℕ) : Prop where
  /-- On the upper side. -/
  up : p.up.length = k
  /-- On the lower side. -/
  down : p.down.length = k

variable {p q : Pseudocosts α} {k i j : ℕ} {side other : Side} {x : α}

/-- A new table has no samples. -/
theorem average_new (k : ℕ) (side : Side) (i : ℕ) :
    (Pseudocosts.new k : Pseudocosts α).average side i = .empty := by
  have hreplicate : (List.replicate k (.empty : Average α)).getD i .empty = .empty := by
    rw [List.getD_eq_getElem?_getD, List.getElem?_replicate]
    split <;> rfl
  cases side with
  | unsplit => rfl
  | up | down => exact hreplicate

/-- Recording a sample keeps the size of the table. -/
theorem Sized.record? (h : p.Sized k) (hrecord : p.record? i side x = some q) : q.Sized k := by
  cases side with
  | unsplit => cases hrecord
  | up =>
    cases hrecord
    exact ⟨(List.length_modify ..).trans h.up, h.down⟩
  | down =>
    cases hrecord
    exact ⟨h.up, (List.length_modify ..).trans h.down⟩

/-- Recording a sample changes the average on that side of that variable and no other. -/
theorem average_record? (h : p.Sized k) (hj : j < k) (hrecord : p.record? i side x = some q) :
    q.average other j
      = if i = j ∧ side = other then (p.average other j).push x else p.average other j := by
  have hmodify : ∀ averages : List (Average α), averages.length = k →
      (averages.modify i (·.push x)).getD j .empty
        = if i = j then (averages.getD j .empty).push x else averages.getD j .empty := by
    rintro averages rfl
    rw [List.getD_eq_getElem?_getD, List.getD_eq_getElem?_getD, List.getElem?_modify,
      List.getElem?_eq_getElem hj]
    split <;> rfl
  -- a node that was not split has no side to record a sample on
  cases side with
  | unsplit => cases hrecord
  | up =>
    cases hrecord
    cases other with
    | up =>
      simp only [and_true]
      exact hmodify p.up h.up
    | down | unsplit => exact (if_neg nofun).symm
  | down =>
    cases hrecord
    cases other with
    | down =>
      simp only [and_true]
      exact hmodify p.down h.down
    | up | unsplit => exact (if_neg nofun).symm

/-- Two tables of the same size are equal if all averages are. -/
theorem eq_of_average (hp : p.Sized k) (hq : q.Sized k)
    (h : ∀ i < k, ∀ side, p.average side i = q.average side i) : p = q := by
  have hlist : ∀ xs ys : List (Average α), xs.length = k → ys.length = k →
      (∀ i < k, xs.getD i .empty = ys.getD i .empty) → xs = ys := by
    rintro xs ys rfl hlength hget
    refine List.ext_getElem hlength.symm fun i hx hy => ?_
    have hi := hget i hx
    rwa [List.getD_eq_getElem _ _ hx, List.getD_eq_getElem _ _ hy] at hi
  obtain ⟨pUp, pDown⟩ := p
  obtain ⟨qUp, qDown⟩ := q
  obtain rfl : pUp = qUp := hlist _ _ hp.up hq.up fun i hi => h i hi .up
  obtain rfl : pDown = qDown := hlist _ _ hp.down hq.down fun i hi => h i hi .down
  rfl

end Pseudocosts

end Tables

variable {K : Type} [Field K] [LinearOrder K] [FloorRing K]

namespace Extended

variable {x y : Extended K} {xs ys : List (Extended K)}

/-- The order of the terms of a sum does not matter. -/
theorem add_swap (x y z : Extended K) : x + (y + z) = y + (x + z) := by
  cases x <;> cases y <;> cases z <;> first | rfl | exact congrArg point (add_left_comm _ _ _)

/-- Neither does that of two. -/
theorem add_symm (x y : Extended K) : x + y = y + x := by
  cases x <;> cases y <;> first | rfl | exact congrArg point (add_comm _ _)

/-- The mean of some numbers; zero if there are none. -/
def mean (xs : List (Extended K)) : Extended K :=
  if xs.isEmpty then 0 else xs.sum / Scalar.ofNat xs.length

/-- The mean does not depend on the order of the numbers. -/
theorem mean_perm (h : xs.Perm ys) : mean xs = mean ys := by
  have hsum : xs.sum = ys.sum := h.foldr_eq' (fun x _ y _ z => add_swap y x z) 0
  rw [mean, mean, hsum, h.length_eq, h.isEmpty_eq]

/-- The mean of points is that in the field. -/
theorem mean_map_point (qs : List K) [IsStrictOrderedRing K] :
    mean (qs.map point) = .point (qs.sum / qs.length) := by
  have hsum : (qs.map point).sum = point qs.sum := by
    induction qs with
    | nil => rfl
    | cons q qs ih =>
      rw [List.map_cons, List.sum_cons, ih, List.sum_cons]
      rfl
  cases qs with
  | nil => exact congrArg point (by simp)
  | cons q qs =>
    rw [mean, hsum, List.length_map]
    exact div_point _ (Nat.cast_ne_zero.mpr (Nat.succ_ne_zero _))

variable [IsStrictOrderedRing K]

/-- Multiplying by a positive point undoes the division by it, also for an infinity. -/
theorem point_mul_div {k : K} (hk : 0 < k) (x : Extended K) : point k * (x / point k) = x := by
  have hsign : ∀ s : K, endOf ((point k).sign * s) = endOf s := by
    intro s
    rw [sign, if_pos hk, one_mul]
  -- the sign of a positive factor keeps that of an infinity
  cases x with
  | undefined => rfl
  | point q =>
    rw [div_point q hk.ne']
    exact congrArg point (mul_div_cancel₀ q hk.ne')
  | top =>
    show mul (point k) (if k < 0 then bottom else top) = top
    rw [if_neg hk.not_gt]
    exact (hsign 1).trans (if_pos one_pos)
  | bottom =>
    show mul (point k) (if k < 0 then top else bottom) = bottom
    rw [if_neg hk.not_gt]
    refine (hsign (-1)).trans ?_
    rw [endOf, if_neg (by norm_num), if_pos (by norm_num)]

omit [IsStrictOrderedRing K] in
/-- What is not negative: the undefined value, infinity, and the points from zero on. -/
theorem not_neg_iff : ¬ x < 0 ↔ x ≠ bottom ∧ ∀ q, x = point q → 0 ≤ q := by
  show ¬ x < point 0 ↔ _
  cases x with
  | point q => simp [point_lt_point]
  | _ => simp [isRank.lt_iff, rank?]

omit [IsStrictOrderedRing K] in
/-- What is not at most zero: the undefined value, infinity, and the points above zero. -/
theorem not_nonpos_iff : ¬ x ≤ 0 ↔ x ≠ bottom ∧ ∀ q, x = point q → 0 < q := by
  show ¬ x ≤ point 0 ↔ _
  cases x with
  | point q => simp [point_le_point]
  | top => simp [isRank.le_iff, rank?, -WithTop.coe_zero]
  | _ => simp [isRank.le_iff, rank?]

/-- Sums of numbers that are not negative are not. -/
theorem not_neg_add (hx : ¬ x < 0) (hy : ¬ y < 0) : ¬ x + y < 0 := by
  rw [not_neg_iff] at *
  cases x with
  | undefined => exact ⟨nofun, nofun⟩
  | bottom => exact absurd rfl hx.1
  | top => cases y <;> first | exact absurd rfl hy.1 | exact ⟨nofun, nofun⟩
  | point p =>
    cases y with
    | bottom => exact absurd rfl hy.1
    | undefined | top => exact ⟨nofun, nofun⟩
    | point q =>
      refine ⟨nofun, fun r hr => ?_⟩
      cases hr
      exact add_nonneg (hx.2 p rfl) (hy.2 q rfl)

/-- Neither are quotients by what is not at most zero. -/
theorem not_neg_div (hx : ¬ x < 0) (hy : ¬ y ≤ 0) : ¬ x / y < 0 := by
  rw [not_neg_iff] at hx ⊢
  rw [not_nonpos_iff] at hy
  -- the divisor is positive, if it is defined at all
  cases y with
  | undefined => cases x <;> exact ⟨nofun, nofun⟩
  | bottom => exact absurd rfl hy.1
  | top =>
    cases x with
    | point p =>
      refine ⟨nofun, fun r hr => ?_⟩
      cases hr
      exact le_refl 0
    | _ => exact ⟨nofun, nofun⟩
  | point q =>
    have hq := hy.2 q rfl
    cases x with
    | undefined => exact ⟨nofun, nofun⟩
    | bottom => exact absurd rfl hx.1
    | top =>
      have htop : top / point q = top := if_neg hq.not_gt
      rw [htop]
      exact ⟨nofun, nofun⟩
    | point p =>
      rw [div_point p hq.ne']
      refine ⟨nofun, fun r hr => ?_⟩
      cases hr
      exact div_nonneg (hx.2 p rfl) hq.le

/-- The mean of numbers that are not negative is not. -/
theorem not_neg_mean (h : ∀ x ∈ xs, ¬ x < 0) : ¬ mean xs < 0 := by
  have hsum : ¬ xs.sum < 0 := by
    induction xs with
    | nil => exact mt point_lt_point.mp (lt_irrefl 0)
    | cons x xs ih =>
      rw [List.forall_mem_cons] at h
      rw [List.sum_cons]
      exact not_neg_add h.1 (ih h.2)
  unfold mean
  split
  · exact mt point_lt_point.mp (lt_irrefl 0)
  · next hsome =>
    refine not_neg_div hsum fun hle => hsome ?_
    have hlength : (xs.length : K) ≤ ((0 : ℕ) : K) :=
      (point_le_point.mp hle).trans_eq Nat.cast_zero.symm
    rw [List.isEmpty_iff, ← List.length_eq_zero_iff]
    exact Nat.le_zero.mp (Nat.cast_le.mp hlength)

end Extended

/-- A running average is the mean of the samples. -/
theorem Average.foldr_push [IsStrictOrderedRing K] (xs : List (Extended K)) :
    xs.foldr (fun x a => Average.push a x) .empty = ⟨Extended.mean xs, xs.length⟩ := by
  induction xs with
  | nil => rfl
  | cons x xs ih =>
    have hcount : Scalar.ofNat xs.length + 1 = (Scalar.ofNat (x :: xs).length : Extended K) :=
      congrArg Extended.point (Nat.cast_succ xs.length).symm
    have hsum : Scalar.ofNat xs.length * Extended.mean xs + x = (x :: xs).sum := by
      rw [List.sum_cons, Extended.add_symm x]
      refine congrArg (· + x) ?_
      cases xs with
      | nil => exact congrArg Extended.point (mul_zero _)
      | cons y ys =>
        exact Extended.point_mul_div (Nat.cast_pos.mpr (Nat.succ_pos _)) _
    rw [List.foldr_cons, ih, Average.push, hcount, hsum]
    rfl

end BranchBound
