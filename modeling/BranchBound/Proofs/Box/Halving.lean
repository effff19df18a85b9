import BranchBound.Proofs.Box.Domain
import Mathlib.Algebra.Order.BigOperators.Group.List
import Mathlib.Algebra.Order.Floor.Semiring
import Mathlib.Data.Nat.Log

/-! # Halving widths

No part of a box is wider than the box in any dimension, and the two parts of a split are at most
half as wide in the dimension of the split, for discrete variables too. So the splits in dimensions
that are still wider than a grain can be counted down: `Brancher.depthLeft` bounds how many of them
can follow one another below a box.

* **`halvings grain width`** — how often a width can be halved until it is at most a grain.
* **`Brancher.IsHalf`**, **`Brancher.isHalf_parts`** — what the parts of a box have in common.
* **`Brancher.depthLeft`** — the halvings of a box in all dimensions; `depthLeft_le_of_shrunk`,
  `IsHalf.depthLeft_le` and `IsHalf.depthLeft_lt` say how it falls. -/

namespace BranchBound

variable {K : Type} [Field K] [LinearOrder K] [FloorRing K] [IsStrictOrderedRing K]

/-! ## One width -/

/-- How often a width can be halved until it is at most a grain. -/
def halvings (grain width : K) : ℕ := Nat.clog 2 ⌈width / grain⌉₊

variable {grain width half : K}

/-- A width is at most the grain once it was halved as often as it can be. -/
theorem halvings_le_iff (hgrain : 0 < grain) {k : ℕ} :
    halvings grain width ≤ k ↔ width ≤ 2 ^ k * grain := by
  rw [halvings, Nat.clog_le_iff_le_pow one_lt_two, Nat.ceil_le, div_le_iff₀ hgrain, Nat.cast_pow,
    Nat.cast_ofNat]

/-- A smaller width cannot be halved more often. -/
theorem halvings_mono (hgrain : 0 ≤ grain) (h : half ≤ width) :
    halvings grain half ≤ halvings grain width :=
  Nat.clog_mono_right 2 (Nat.ceil_mono (div_le_div_of_nonneg_right h hgrain))

/-- Halving a width that is above the grain counts. -/
theorem halvings_lt (hgrain : 0 < grain) (hwide : grain < width) (hhalf : half ≤ width / 2) :
    halvings grain half < halvings grain width := by
  have hpos : halvings grain width ≠ 0 := by
    intro hzero
    have hle := (halvings_le_iff hgrain).mp hzero.le
    rw [pow_zero, one_mul] at hle
    exact absurd hle (not_le.mpr hwide)
  obtain ⟨k, hk⟩ := Nat.exists_eq_succ_of_ne_zero hpos
  have hle := (halvings_le_iff hgrain).mp hk.le
  rw [pow_succ] at hle
  rw [hk, Nat.lt_succ_iff, halvings_le_iff hgrain]
  linarith

/-! ## Boxes -/

variable {vars : List (Variable (Extended K))} {a b c : Box (Extended K)} {i : Nat}
  {v : Variable (Extended K)} {grains : Variable (Extended K) → K}

/-- How often a box can be halved in all dimensions until each is at most its grain. -/
def Box.halvings (vars : List (Variable (Extended K))) (grains : Variable (Extended K) → K)
    (b : Box (Extended K)) : ℕ :=
  (vars.zipIdx.map fun (v, i) => BranchBound.halvings (grains v) (b.span i)).sum

/-- A box that is wider in no dimension cannot be halved more often. -/
theorem Box.halvings_le (hgrains : ∀ v ∈ vars, 0 ≤ grains v)
    (h : ∀ i v, vars[i]? = some v → a.span i ≤ b.span i) :
    a.halvings vars grains ≤ b.halvings vars grains := by
  refine List.sum_le_sum fun d hd => ?_
  obtain ⟨v, i⟩ := d
  have hv := List.mem_zipIdx_iff_getElem?.mp hd
  exact halvings_mono (hgrains v (List.mem_of_getElem? hv)) (h i v hv)

/-- Halving one dimension that is wider than its grain counts. -/
theorem Box.halvings_lt (hgrains : ∀ v ∈ vars, 0 ≤ grains v)
    (h : ∀ i v, vars[i]? = some v → a.span i ≤ b.span i) (hv : vars[i]? = some v)
    (hpos : 0 < grains v) (hwide : grains v < b.span i) (hhalf : a.span i ≤ b.span i / 2) :
    a.halvings vars grains < b.halvings vars grains := by
  refine List.sum_lt_sum _ _ (fun d hd => ?_)
    ⟨(v, i), List.mem_zipIdx_iff_getElem?.mpr hv, BranchBound.halvings_lt hpos hwide hhalf⟩
  obtain ⟨w, j⟩ := d
  have hw := List.mem_zipIdx_iff_getElem?.mp hd
  exact halvings_mono (hgrains w (List.mem_of_getElem? hw)) (h j w hw)

omit [IsStrictOrderedRing K] in
/-- The width between two points. -/
theorem Box.span_eq {l u : K} (hlower : b.lowerAt i = .point l) (hupper : b.upperAt i = .point u) :
    b.span i = u - l := by
  rw [span, width, hlower, hupper, Extended.sub_point]
  rfl

namespace Brancher

omit [IsStrictOrderedRing K] in
/-- The width of a variable after the bounds of discrete ones were moved to whole numbers. -/
theorem span_roundDiscrete (h : b.Inside vars) (hv : vars[i]? = some v) {l u : K}
    (hlower : b.lowerAt i = .point l) (hupper : b.upperAt i = .point u) :
    (roundDiscrete vars b).span i
      = if v.kind.isDiscrete then (⌊u + 10 ^ (-9 : ℤ)⌋ : K) - ⌈l - 10 ^ (-9 : ℤ)⌉ else u - l := by
  obtain ⟨hlow, hhigh⟩ := bounds_roundDiscrete h.dimension hv
  rw [hlower, Extended.slack_eq, Extended.sub_point] at hlow
  rw [hupper, Extended.slack_eq, Extended.add_point] at hhigh
  split at hlow
  · next hdiscrete =>
    rw [if_pos hdiscrete] at hhigh ⊢
    exact Box.span_eq hlow hhigh
  · next hcontinuous =>
    rw [if_neg hcontinuous] at hhigh ⊢
    exact Box.span_eq hlow hhigh

/-- Moving the bounds of discrete variables to whole numbers leaves a part of a box no wider than
the box. -/
theorem span_roundDiscrete_le (ha : a.Inside vars) (hb : b.Inside vars) (hab : a.Shrunk b)
    (hfull : a.isEmpty = false) (hvars : ∀ v ∈ vars, v.Standard) (hv : vars[i]? = some v) :
    (roundDiscrete vars a).span i ≤ (roundDiscrete vars b).span i := by
  obtain ⟨-, l, u, -, -, hl, hu, -⟩ := ha.exists_points hvars hv
  obtain ⟨-, l', u', -, -, hl', hu', -⟩ := hb.exists_points hvars hv
  have hi := (List.getElem?_eq_some_iff.mp hv).1
  obtain ⟨hlow, -, hhigh⟩ := hab.le_of_isEmpty hb.dimension (fun j hj => hb.isNaN hj) hfull hi
  rw [hl, hl', Extended.point_le_point] at hlow
  rw [hu, hu', Extended.point_le_point] at hhigh
  rw [span_roundDiscrete ha hv hl hu, span_roundDiscrete hb hv hl' hu']
  split
  · refine sub_le_sub (Int.cast_le.mpr (Int.floor_mono ?_)) (Int.cast_le.mpr (Int.ceil_mono ?_))
    · exact add_le_add_left hhigh _
    · exact sub_le_sub_right hlow _
  · exact sub_le_sub hhigh hlow

/-- Whole bounds do not move outwards. -/
theorem span_roundDiscrete_of_whole (h : b.Inside vars) (hwhole : WholeBounds vars b)
    (hvars : ∀ v ∈ vars, v.Standard) (hv : vars[i]? = some v) :
    (roundDiscrete vars b).span i ≤ b.span i := by
  obtain ⟨-, l, u, -, -, hl, hu, -⟩ := h.exists_points hvars hv
  rw [span_roundDiscrete h hv hl hu, Box.span_eq hl hu]
  split
  · next hdiscrete =>
    obtain ⟨hlow, hhigh⟩ := hwhole i v hv hdiscrete
    rw [hl] at hlow
    rw [hu] at hhigh
    have hlower := Extended.le_ceil_sub_slack hlow (le_refl l)
    have hupper := Extended.floor_add_slack_le hhigh (le_refl u)
    rw [Extended.slack_eq, Extended.sub_point] at hlower
    rw [Extended.slack_eq, Extended.add_point] at hupper
    exact sub_le_sub (Extended.point_le_point.mp hupper) (Extended.point_le_point.mp hlower)
  · exact le_refl _

/-! ## Parts -/

/-- A box is a part of a box that is split in a dimension. -/
structure IsHalf (vars : List (Variable (Extended K))) (i : Nat) (c b : Box (Extended K)) :
    Prop where
  /-- The part is inside the domain. -/
  inside : c.Inside vars
  /-- The bounds of discrete variables are whole. -/
  whole : WholeBounds vars c
  /-- The part is no wider than the box. -/
  span_le : ∀ j, c.span j ≤ b.span j
  /-- It is at most half as wide in the dimension of the split. -/
  span_half : c.span i ≤ b.span i / 2

/-- A box that differs from one with whole discrete bounds in one dimension, in which it is at most
half as wide and has whole bounds too if need be. -/
theorem isHalf_of_points {l u l' u' : K} (hinside : c.Inside vars) (hwhole : WholeBounds vars b)
    (hv : vars[i]? = some v)
    (hsame : ∀ j, j ≠ i → c.lowerAt j = b.lowerAt j ∧ c.upperAt j = b.upperAt j)
    (hlower : b.lowerAt i = .point l) (hupper : b.upperAt i = .point u)
    (hlower' : c.lowerAt i = .point l') (hupper' : c.upperAt i = .point u') (hle : l ≤ u)
    (hhalf : u' - l' ≤ (u - l) / 2)
    (hmoved : v.kind.isDiscrete = true →
      Scalar.IsWhole (.point l' : Extended K) ∧ Scalar.IsWhole (.point u' : Extended K)) :
    IsHalf vars i c b := by
  refine ⟨hinside, fun j w hw hdiscrete => ?_, fun j => ?_, ?_⟩
  · -- in the dimension of the split the bounds are the new ones, in all others they are the old
    -- ones
    by_cases hij : j = i
    · subst hij
      cases hv.symm.trans hw
      rw [hlower', hupper']
      exact hmoved hdiscrete
    · rw [(hsame j hij).1, (hsame j hij).2]
      exact hwhole j w hw hdiscrete
  · by_cases hij : j = i
    · subst hij
      rw [Box.span_eq hlower hupper, Box.span_eq hlower' hupper']
      linarith
    · rw [Box.span, Box.span, Box.width, Box.width, (hsame j hij).1, (hsame j hij).2]
  · rw [Box.span_eq hlower hupper, Box.span_eq hlower' hupper']
    exact hhalf

/-- The parts of a box whose discrete bounds are whole. -/
theorem isHalf_parts (h : b.Inside vars) (hvars : ∀ v ∈ vars, v.Standard)
    (hwhole : WholeBounds vars b) (hv : vars[i]? = some v) (hwide : ¬ b.width i ≤ 0) :
    IsHalf vars i (parts v.kind b i).1 b ∧ IsHalf vars i (parts v.kind b i).2 b := by
  have hinside := inside_parts h hvars hwhole hv hwide
  obtain ⟨-, l, u, -, -, hl, hu, -, -, hlu, -⟩ := h.exists_points hvars hv
  obtain ⟨hlow, hhigh⟩ := Box.hasDimension_iff.mp h.dimension
  have hi := (List.getElem?_eq_some_iff.mp hv).1
  have hupper := fun y => Box.upperAt_setUpper (v := y) (rfl : b.upper.length = _) (hhigh ▸ hi)
  have hlower := fun y => Box.lowerAt_setLower (v := y) (rfl : b.lower.length = _) (hlow ▸ hi)
  have hmiddle : b.midpoint i = .point ((l + u) / 2) := by
    rw [Box.midpoint, hl, hu, Extended.middle_point]
  -- where the parts end does not matter, as long as neither is wider than one half
  have hsplit : ∀ q q' : K, q - l ≤ (u - l) / 2 → u - q' ≤ (u - l) / 2 →
      (v.kind.isDiscrete = true → Scalar.IsWhole (.point q : Extended K)
        ∧ Scalar.IsWhole (.point q' : Extended K)) →
      (b.setUpper i (.point q)).Inside vars ∧ (b.setLower i (.point q')).Inside vars →
      IsHalf vars i (b.setUpper i (.point q)) b ∧ IsHalf vars i (b.setLower i (.point q')) b := by
    intro q q' hbelow habove hmoved hinside
    have hq : (b.setUpper i (.point q)).upperAt i = .point q := (hupper _ i).trans (if_pos rfl)
    have hq' : (b.setLower i (.point q')).lowerAt i = .point q' := (hlower _ i).trans (if_pos rfl)
    exact ⟨isHalf_of_points hinside.1 hwhole hv
        (fun j hij => ⟨rfl, (hupper _ j).trans (if_neg (Ne.symm hij))⟩) hl hu hl hq hlu hbelow
        fun hdiscrete => ⟨hl ▸ (hwhole i v hv hdiscrete).1, (hmoved hdiscrete).1⟩,
      isHalf_of_points hinside.2 hwhole hv
        (fun j hij => ⟨(hlower _ j).trans (if_neg (Ne.symm hij)), rfl⟩) hl hu hq' hu hlu habove
        fun hdiscrete => ⟨(hmoved hdiscrete).2, hu ▸ (hwhole i v hv hdiscrete).2⟩⟩
  unfold parts at hinside ⊢
  rw [hmiddle] at hinside ⊢
  split at hinside
  · next hdiscrete =>
    rw [if_pos hdiscrete]
    -- the middle is rounded down, and the upper part begins one above
    have hbelow := Int.floor_le ((l + u) / 2)
    have habove := Int.lt_floor_add_one ((l + u) / 2)
    have hnext : ((⌊(l + u) / 2⌋ + 1 : ℤ) : K) = ⌊(l + u) / 2⌋ + 1 := by push_cast; rfl
    exact hsplit ⌊(l + u) / 2⌋ (⌊(l + u) / 2⌋ + 1) (by linarith) (by linarith)
      (fun _ => ⟨Extended.isWhole_intCast _, hnext ▸ Extended.isWhole_intCast _⟩) hinside
  · next hcontinuous =>
    rw [if_neg hcontinuous]
    exact hsplit _ _ (by linarith) (by linarith) (fun hdiscrete => absurd hdiscrete hcontinuous)
      hinside

/-! ## How deep the nodes below a box may be -/

/-- How often a box, with the bounds of discrete variables moved to whole numbers, can be halved in
all dimensions until each is at most its grain. -/
def depthLeft (vars : List (Variable (Extended K))) (grains : Variable (Extended K) → K)
    (b : Box (Extended K)) : ℕ :=
  (roundDiscrete vars b).halvings vars grains

/-- Tightening a box leaves no more. -/
theorem depthLeft_le_of_shrunk (hgrains : ∀ v ∈ vars, 0 ≤ grains v)
    (hvars : ∀ v ∈ vars, v.Standard) (hb : b.Inside vars) (hab : a.Shrunk b)
    (hfull : a.isEmpty = false) : depthLeft vars grains a ≤ depthLeft vars grains b :=
  Box.halvings_le hgrains fun _ _ hv =>
    span_roundDiscrete_le (hb.shrunk hab hfull) hb hab hfull hvars hv

/-- Neither does splitting a box. -/
theorem IsHalf.depthLeft_le (h : IsHalf vars i c (roundDiscrete vars b))
    (hgrains : ∀ v ∈ vars, 0 ≤ grains v) (hvars : ∀ v ∈ vars, v.Standard) :
    depthLeft vars grains c ≤ depthLeft vars grains b :=
  Box.halvings_le hgrains fun j _ hv =>
    (span_roundDiscrete_of_whole h.inside h.whole hvars hv).trans (h.span_le j)

/-- Splitting a box in a dimension that is wider than its grain leaves less. -/
theorem IsHalf.depthLeft_lt (h : IsHalf vars i c (roundDiscrete vars b))
    (hgrains : ∀ v ∈ vars, 0 ≤ grains v) (hvars : ∀ v ∈ vars, v.Standard)
    (hv : vars[i]? = some v) (hpos : 0 < grains v)
    (hwide : grains v < (roundDiscrete vars b).span i) :
    depthLeft vars grains c < depthLeft vars grains b := by
  have hround : ∀ {j w}, vars[j]? = some w → (roundDiscrete vars c).span j ≤ c.span j :=
    span_roundDiscrete_of_whole h.inside h.whole hvars
  exact Box.halvings_lt hgrains (fun j _ hw => (hround hw).trans (h.span_le j)) hv hpos hwide
    ((hround hv).trans h.span_half)

end Brancher

end BranchBound
