import BranchBound.Proofs.Box.Domain
import BranchBound.Proofs.Brancher.Charges
import Mathlib.Data.List.MinMax

/-! # The dimension that is chosen by diameter

Under a rule by diameter the score of a dimension is its width times a weight. Scores that differ by
rounding count as equal, and one tie may follow another; so the dimension that is chosen may score
less than the best one, but by a factor for each dimension only. A node that is wider than the size
tolerance somewhere is therefore never split where it is narrower than some grain, which depends on
the variables, the rule and the tolerance alone.

* **`Brancher.nearness`** — how much of the better score a tie may lose.
* **`Brancher.near_of_choose`** — the score of the dimension that is chosen.
* **`Brancher.grain`**, **`Brancher.grain_lt_of_choose`** — the grain. -/

namespace BranchBound

variable {K : Type} [Field K] [LinearOrder K] [FloorRing K] [IsStrictOrderedRing K]

namespace Brancher

/-! ## Ties -/

/-- How much of the better score is left in a tie. -/
def nearness (K : Type) [Field K] : K := 1 - ((10 : ℕ) : K) ^ (-12 : ℤ)

omit [LinearOrder K] [FloorRing K] [IsStrictOrderedRing K] in
/-- It falls short of the unit by the part that may be lost. -/
theorem nearness_eq : nearness K = 1 - 10 ^ (-12 : ℤ) := by
  rw [nearness, Nat.cast_ofNat]

/-- Almost all of it is. -/
theorem nearness_pos_lt_one : 0 < nearness K ∧ nearness K < 1 := by
  rw [nearness_eq]
  have hpos : (0 : K) < 10 ^ (-12 : ℤ) := by positivity
  have hlt : (10 : K) ^ (-12 : ℤ) < 1 := by norm_num
  exact ⟨sub_pos.mpr hlt, sub_lt_self 1 hpos⟩

/-- A part of a number that is not negative is at most the number. -/
theorem nearness_mul_le {s : K} (hs : 0 ≤ s) : nearness K * s ≤ s :=
  mul_le_of_le_one_left hs nearness_pos_lt_one.2.le

omit [FloorRing K] in
/-- The lower of two numbers that differ by little is almost as much as the higher one. -/
theorem nearness_mul_le_of_abs {s t : K} (h : |t - s| ≤ 10 ^ (-12 : ℤ) * max t s) :
    nearness K * max t s ≤ min t s := by
  rw [← max_sub_min_eq_abs'] at h
  rw [nearness_eq, sub_mul, one_mul]
  linarith

/-- A dimension with a score that is a point and not negative. -/
def Scored (found : Nat × Extended K) : Prop :=
  found.2 = .point found.2.value ∧ 0 ≤ found.2.value

variable {rule : BranchingRule} {box : Box (Extended K)} {point : List (Extended K)} {i : Nat}
  {best found : Nat × Extended K}

/-- Of two dimensions, the one that is kept scores almost as much as the other. -/
theorem supersedes_near (hbest : Scored best) (hfound : Scored found) :
    (supersedes rule box point best found = true →
        nearness K * best.2.value ≤ found.2.value)
      ∧ (supersedes rule box point best found = false →
        nearness K * found.2.value ≤ best.2.value) := by
  obtain ⟨hs, hnonneg⟩ := hbest
  obtain ⟨ht, htnonneg⟩ := hfound
  generalize best.2.value = s at hs hnonneg ⊢
  generalize found.2.value = t at ht htnonneg ⊢
  unfold supersedes
  rw [hs, ht]
  -- a tie is decided by the position; otherwise the higher score is kept
  split
  · next htie =>
    have hnear : |t - s| ≤ 10 ^ (-12 : ℤ) * max t s := by
      have hle := of_decide_eq_true htie.2
      rw [Extended.sub_point] at hle
      change Extended.point |t - s| ≤ .point (((1 : ℕ) : K) * 10 ^ (-12 : ℤ))
        * Scalar.greatest (.point |t|) (.point |s|) at hle
      rw [Extended.greatest_point, abs_of_nonneg hnonneg, abs_of_nonneg htnonneg, Nat.cast_one,
        one_mul] at hle
      exact Extended.point_le_point.mp hle
    have hmul := nearness_mul_le_of_abs hnear
    have hpos := (nearness_pos_lt_one (K := K)).1.le
    exact ⟨fun _ => (mul_le_mul_of_nonneg_left (le_max_right t s) hpos).trans
        (hmul.trans (min_le_left t s)),
      fun _ => (mul_le_mul_of_nonneg_left (le_max_left t s) hpos).trans
        (hmul.trans (min_le_right t s))⟩
  · refine ⟨fun hlt => ?_, fun hnot => ?_⟩
    · exact (nearness_mul_le hnonneg).trans
        (Extended.point_lt_point.mp (of_decide_eq_true hlt)).le
    · have hle := fun hlt => of_decide_eq_false hnot (Extended.point_lt_point.mpr hlt)
      exact (nearness_mul_le htnonneg).trans (not_lt.mp hle)

/-- One more dimension takes the place of the best one or does not; the one that is kept scores
almost as much as both. -/
theorem better_near (hbest : Scored best) (hfound : Scored found) :
    ∃ kept, (kept = best ∨ kept = found) ∧ better rule box point (some best) found = some kept
      ∧ nearness K * best.2.value ≤ kept.2.value
      ∧ nearness K * found.2.value ≤ kept.2.value := by
  obtain ⟨htaken, hleft⟩ := supersedes_near hbest hfound
  cases hsupersedes : supersedes rule box point best found with
  | true =>
    exact ⟨found, .inr rfl, by rw [better, hsupersedes, if_pos rfl], htaken hsupersedes,
      nearness_mul_le hfound.2⟩
  | false =>
    exact ⟨best, .inl rfl, by rw [better, hsupersedes, if_neg Bool.false_ne_true],
      nearness_mul_le hbest.2, hleft hsupersedes⟩

/-- Of all dimensions one is kept that scores almost as much as any of them, up to one tie for each
dimension. -/
theorem foldl_better_near {rest : List (Nat × Extended K)}
    (hscored : ∀ f ∈ best :: rest, Scored f) :
    ∃ kept ∈ best :: rest, rest.foldl (better rule box point) (some best) = some kept
      ∧ ∀ f ∈ best :: rest, nearness K ^ rest.length * f.2.value ≤ kept.2.value := by
  have hnearness := (nearness_pos_lt_one (K := K)).1.le
  induction rest generalizing best with
  | nil => exact ⟨best, List.mem_cons_self, rfl, by simp⟩
  | cons x rest ih =>
    rw [List.forall_mem_cons, List.forall_mem_cons] at hscored
    obtain ⟨hbest, hx, hrest⟩ := hscored
    obtain ⟨next, hnext, hstep, hbestNext, hxNext⟩ :=
      better_near hbest hx
    have hnextScored : Scored next := by rcases hnext with rfl | rfl <;> assumption
    obtain ⟨kept, hkept, hfold, hall⟩ := ih (List.forall_mem_cons.mpr ⟨hnextScored, hrest⟩)
    -- what was almost as good as the one kept so far loses one tie more
    have hlost : ∀ f : Nat × Extended K, nearness K * f.2.value ≤ next.2.value →
        nearness K ^ (x :: rest).length * f.2.value ≤ kept.2.value := by
      intro f hle
      rw [List.length_cons, pow_succ, mul_assoc]
      exact (mul_le_mul_of_nonneg_left hle (pow_nonneg hnearness _)).trans
        (hall next List.mem_cons_self)
    have hothers : ∀ f ∈ rest, nearness K ^ (x :: rest).length * f.2.value ≤ kept.2.value := by
      intro f hf
      rw [List.length_cons, pow_succ, mul_assoc]
      exact (mul_le_mul_of_nonneg_left (nearness_mul_le (hrest f hf).2)
        (pow_nonneg hnearness _)).trans (hall f (List.mem_cons_of_mem _ hf))
    refine ⟨kept, ?_, by rw [List.foldl_cons, hstep, hfold], ?_⟩
    · rcases List.mem_cons.mp hkept with rfl | hkept
      · rcases hnext with rfl | rfl
        · exact List.mem_cons_self
        · exact List.mem_cons_of_mem _ List.mem_cons_self
      · exact List.mem_cons_of_mem _ (List.mem_cons_of_mem _ hkept)
    · rw [List.forall_mem_cons, List.forall_mem_cons]
      exact ⟨hlost _ hbestNext, hlost _ hxNext, hothers⟩

/-! ## The choice -/

/-- How much a unit of width counts for the score of a dimension under a rule by diameter. -/
def weight (rule : BranchingRule) (v : Variable (Extended K)) : K :=
  if rule = .relativeDiameter then v.priority.value / v.span else v.priority.value

variable {b : Brancher (Extended K)} {v : Variable (Extended K)}

/-- The score of a dimension under a rule by diameter is its width times its weight. -/
theorem dimensionScore_eq (point : List (Extended K)) (hrule : b.rule ≠ .pseudocost)
    (hbox : box.Inside b.vars) (hvars : ∀ v ∈ b.vars, v.Standard)
    (hpriority : ∀ v ∈ b.vars, Scalar.isFinite v.priority = true)
    (hv : b.vars[i]? = some v) :
    b.dimensionScore? box point i v
      = if 0 < box.span i then some (.point (weight b.rule v * box.span i)) else none := by
  obtain ⟨hwidth, hdomain, -, hle⟩ := hbox.spans hvars hv
  obtain ⟨q, hq⟩ := Extended.isFinite_iff.mp (hpriority v (List.mem_of_getElem? hv))
  unfold dimensionScore?
  dsimp only
  rw [hwidth, hdomain, hq]
  by_cases hpos : 0 < box.span i
  · have hwide : ¬ Extended.point (box.span i) ≤ 0 := fun h =>
      not_le.mpr hpos (Extended.point_le_point.mp h)
    have hglobal := hpos.trans_le hle
    -- a box lies in the domain, which is wide if the box is
    have hwideGlobal : ¬ Extended.point v.span ≤ 0 := fun h =>
      not_le.mpr hglobal (Extended.point_le_point.mp h)
    rw [if_neg hwide, if_pos hpos]
    cases hcase : b.rule with
    | pseudocost => exact absurd hcase hrule
    | absoluteDiameter =>
      rw [weight, if_neg (show BranchingRule.absoluteDiameter ≠ .relativeDiameter by decide), hq]
      rfl
    | relativeDiameter =>
      rw [weight, if_pos rfl, hq]
      dsimp only
      rw [if_neg hwideGlobal]
      show some (Extended.point (q * box.span i) / .point v.span) = _
      rw [Extended.div_point _ hglobal.ne', mul_div_right_comm]
      rfl
  · have hnarrow : Extended.point (box.span i) ≤ 0 := Extended.point_le_point.mpr (not_lt.mp hpos)
    rw [if_pos hnarrow, if_neg hpos]

/-- The dimensions that can be split and their scores under a rule by diameter. -/
theorem mem_candidates_iff (found : ℕ × Extended K) (point : List (Extended K))
    (hrule : b.rule ≠ .pseudocost) (hbox : box.Inside b.vars)
    (hvars : ∀ v ∈ b.vars, v.Standard)
    (hpriority : ∀ v ∈ b.vars, Scalar.isFinite v.priority = true) :
    found ∈ b.candidates box point ↔ ∃ v, b.vars[found.1]? = some v ∧ 0 < box.span found.1
      ∧ found.2 = .point (weight b.rule v * box.span found.1) := by
  rw [mem_candidates_iff_score]
  refine exists_congr fun v => and_congr_right fun hv => ?_
  rw [dimensionScore_eq point hrule hbox hvars hpriority hv]
  split
  · next hpos =>
    rw [Option.some.injEq, eq_comm]
    exact (and_iff_right hpos).symm
  · next hnarrow => exact ⟨nofun, fun h => absurd h.1 hnarrow⟩

/-- A positive priority makes a positive weight. -/
theorem weight_pos (rule : BranchingRule) (hpriority : 0 < v.priority.value) (hspan : 0 < v.span) :
    0 < weight rule v := by
  unfold weight
  split
  · exact div_pos hpriority hspan
  · exact hpriority

/-- A dimension in which a box of the domain has a width weighs something. -/
theorem weight_pos_of_wide {j : ℕ} {w : Variable (Extended K)} (rule : BranchingRule)
    (hbox : box.Inside b.vars) (hvars : ∀ v ∈ b.vars, v.Standard)
    (hpriority : ∀ v ∈ b.vars, Scalar.isFinite v.priority = true ∧ 0 < v.priority.value)
    (hw : b.vars[j]? = some w) (hwide : 0 < box.span j) : 0 < weight rule w := by
  obtain ⟨-, -, -, hle⟩ := hbox.spans hvars hw
  exact weight_pos rule (hpriority w (List.mem_of_getElem? hw)).2 (hwide.trans_le hle)

/-- If no score is negative, the dimension that is chosen scores almost as much as any other, up to
one tie for each further one. -/
theorem exists_near_of_choose (hscored : ∀ f ∈ b.candidates box point, Scored f)
    (h : b.choose box point = some i) :
    ∃ kept ∈ b.candidates box point, kept.1 = i ∧ ∀ f ∈ b.candidates box point,
      nearness K ^ ((b.candidates box point).length - 1) * f.2.value ≤ kept.2.value := by
  obtain ⟨best, rest, last, hlist, rfl, hlast⟩ := exists_kept_of_choose h
  rw [hlist] at hscored ⊢
  obtain ⟨kept, hkept, hfold, hall⟩ := foldl_better_near hscored
  cases hlast.symm.trans hfold
  exact ⟨last, hkept, rfl, hall⟩

/-- Under a rule by diameter the dimension that is chosen scores almost as much as any other, up to
one tie for each variable. -/
theorem near_of_choose (hrule : b.rule ≠ .pseudocost) (hbox : box.Inside b.vars)
    (hvars : ∀ v ∈ b.vars, v.Standard)
    (hpriority : ∀ v ∈ b.vars, Scalar.isFinite v.priority = true ∧ 0 < v.priority.value)
    (h : b.choose box point = some i) :
    ∃ v, b.vars[i]? = some v ∧ 0 < box.span i
      ∧ ∀ j w, b.vars[j]? = some w → 0 < box.span j →
        nearness K ^ b.vars.length * (weight b.rule w * box.span j)
          ≤ weight b.rule v * box.span i := by
  have hmem := fun found : ℕ × Extended K => mem_candidates_iff found point hrule hbox hvars
    fun v hv => (hpriority v hv).1
  have hscored : ∀ f ∈ b.candidates box point, Scored f := by
    intro f hf
    obtain ⟨v, hv, hpos, hvalue⟩ := (hmem _).mp hf
    refine ⟨by rw [hvalue]; rfl, ?_⟩
    rw [hvalue]
    exact (mul_pos (weight_pos_of_wide b.rule hbox hvars hpriority hv hpos) hpos).le
  have hlength : (b.candidates box point).length ≤ b.vars.length :=
    (List.length_filterMap_le _ _).trans List.length_zipIdx.le
  obtain ⟨kept, hkept, rfl, hall⟩ := exists_near_of_choose hscored h
  obtain ⟨v, hv, hpos, hvalue⟩ := (hmem _).mp hkept
  refine ⟨v, hv, hpos, fun j w hw hwide => ?_⟩
  have hj := hall (j, .point (weight b.rule w * box.span j)) ((hmem _).mpr ⟨w, hw, hwide, rfl⟩)
  obtain ⟨hnearness, hlt⟩ := nearness_pos_lt_one (K := K)
  have hweight := weight_pos_of_wide b.rule hbox hvars hpriority hw hwide
  -- there are no more candidates than variables, and each costs one tie at most
  have hpower : nearness K ^ b.vars.length
      ≤ nearness K ^ ((b.candidates box point).length - 1) :=
    pow_le_pow_of_le_one hnearness.le hlt.le ((Nat.sub_le _ 1).trans hlength)
  rw [hvalue] at hj
  exact (mul_le_mul_of_nonneg_right hpower (mul_pos hweight hwide).le).trans hj

/-- A box that is not within the size tolerance is wider somewhere. -/
theorem exists_beyond {tolerance : K} (hbox : box.Inside b.vars) (hvars : ∀ v ∈ b.vars, v.Standard)
    (hnonneg : 0 ≤ tolerance) (hwide : b.isBelowTolerance box (.point tolerance) = false) :
    ∃ j w, b.vars[j]? = some w ∧ 0 < w.span ∧ tolerance * w.span < box.span j := by
  obtain ⟨j, w, hw, hbeyond⟩ : ∃ j w, b.vars[j]? = some w ∧ tolerance * w.span < box.span j := by
    by_contra hnone
    push Not at hnone
    rw [(isBelowTolerance_iff hbox hvars hnonneg).mpr hnone] at hwide
    cases hwide
  obtain ⟨-, -, hspan, hle⟩ := hbox.spans hvars hw
  refine ⟨j, w, hw, lt_of_le_of_ne (hspan.trans hle) fun hzero => ?_, hbeyond⟩
  rw [← hzero, mul_zero] at hbeyond
  rw [← hzero] at hle
  exact absurd hbeyond (not_lt.mpr hle)

/-! ## The grain -/

omit [Field K] [FloorRing K] [IsStrictOrderedRing K] in
/-- The least of some numbers is above what all of them are above. -/
theorem lt_foldr_min {l : List K} {p q : K} (hq : p < q) (hl : ∀ x ∈ l, p < x) :
    p < l.foldr min q := by
  induction l with
  | nil => exact hq
  | cons y rest ih =>
    rw [List.forall_mem_cons] at hl
    exact lt_min hl.1 (ih hl.2)

/-- The width at which the score of a dimension `v` is that of a dimension `w` at the size
tolerance, less what so many ties may lose. -/
def grainBeside (ties : ℕ) (rule : BranchingRule) (tolerance : K)
    (v w : Variable (Extended K)) : K :=
  if 0 < v.span ∧ 0 < w.span then
    nearness K ^ ties * (weight rule w * (tolerance * w.span)) / weight rule v
  else 1

/-- The least of these widths: where a box is as narrow as that, it is not split as long as it is
wider than the size tolerance somewhere. -/
def grain (vars : List (Variable (Extended K))) (rule : BranchingRule) (tolerance : K) : K :=
  ((vars ×ˢ vars).map fun d => grainBeside vars.length rule tolerance d.1 d.2).foldr min 1

variable {vars : List (Variable (Extended K))} {tolerance : K}

/-- The grain of variables of positive priorities is positive. -/
theorem grain_pos (hpriority : ∀ v ∈ vars, 0 < v.priority.value) (htolerance : 0 < tolerance) :
    0 < grain vars rule tolerance := by
  refine lt_foldr_min one_pos fun q hq => ?_
  obtain ⟨⟨v, w⟩, hd, rfl⟩ := List.mem_map.mp hq
  obtain ⟨hv, hw⟩ := List.mem_product.mp hd
  dsimp only
  unfold grainBeside
  split
  · next hspans =>
    have hweightv := weight_pos rule (hpriority v hv) hspans.1
    have hweightw := weight_pos rule (hpriority w hw) hspans.2
    exact div_pos (mul_pos (pow_pos (nearness_pos_lt_one (K := K)).1 _)
      (mul_pos hweightw (mul_pos htolerance hspans.2))) hweightv
  · exact one_pos

/-- Under a rule by diameter, a box that is wider than the size tolerance somewhere is split where
it is wider than the grain. -/
theorem grain_lt_of_choose (hrule : b.rule ≠ .pseudocost) (hvars : ∀ v ∈ b.vars, v.Standard)
    (hpriority : ∀ v ∈ b.vars, Scalar.isFinite v.priority = true ∧ 0 < v.priority.value)
    (htolerance : 0 < tolerance) (hbox : box.Inside b.vars)
    (hwide : b.isBelowTolerance box (.point tolerance) = false)
    (hchoose : b.choose box point = some i) :
    grain b.vars b.rule tolerance < box.span i := by
  obtain ⟨v, hv, hpos, hnear⟩ := near_of_choose hrule hbox hvars hpriority hchoose
  obtain ⟨j, w, hw, hwspan, hbeyond⟩ := exists_beyond hbox hvars htolerance.le hwide
  obtain ⟨-, -, -, hlev⟩ := hbox.spans hvars hv
  have hvmem := List.mem_of_getElem? hv
  have hwmem := List.mem_of_getElem? hw
  have hvspan := hpos.trans_le hlev
  have hweightv := weight_pos b.rule (hpriority v hvmem).2 hvspan
  have hweightw := weight_pos b.rule (hpriority w hwmem).2 hwspan
  have hbound : grain b.vars b.rule tolerance
      ≤ grainBeside b.vars.length b.rule tolerance v w :=
    List.min_le_of_le' 1
      (List.mem_map.mpr ⟨(v, w), List.mem_product.mpr ⟨hvmem, hwmem⟩, rfl⟩) le_rfl
  rw [grainBeside, if_pos ⟨hvspan, hwspan⟩, le_div_iff₀ hweightv] at hbound
  refine lt_of_mul_lt_mul_right ?_ hweightv.le
  -- some dimension is wider than the tolerance, and the chosen one scores almost as much as that
  calc grain b.vars b.rule tolerance * weight b.rule v
      ≤ nearness K ^ b.vars.length * (weight b.rule w * (tolerance * w.span)) := hbound
    _ < nearness K ^ b.vars.length * (weight b.rule w * box.span j) :=
        mul_lt_mul_of_pos_left (mul_lt_mul_of_pos_left hbeyond hweightw)
          (pow_pos (nearness_pos_lt_one (K := K)).1 _)
    _ ≤ weight b.rule v * box.span i :=
        hnear j w hw ((mul_nonneg htolerance.le hwspan.le).trans_lt hbeyond)
    _ = box.span i * weight b.rule v := mul_comm _ _

end Brancher

end BranchBound
