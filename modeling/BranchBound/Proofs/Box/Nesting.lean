import BranchBound.Proofs.Box.Finite
import BranchBound.Proofs.Box.Halving

/-! # Boxes within boxes

The bounds of the discrete variables of a node are moved to whole numbers before it is split, and
the slack may move them outwards. What comes of the node lies within the box that was split
nevertheless: its parts do, and so does what they are tightened to. When the bounds of a part are
moved to whole numbers in turn, they stay within that box, because its bounds are whole numbers
already and the slack does not reach beyond a whole number.

* **`Box.Finite.shrunk_iff`** — a finite box has no bound outside another one.
* **`Box.Nested vars a b`** — `a` lies within what `b` is once its discrete bounds are whole.
* **`Brancher.shrunk_parts`**, **`Brancher.shrunk_roundDiscrete`** — the parts of a box lie within
  it, and whole bounds stay within whole bounds. -/

namespace BranchBound

/-- A box has no bound outside those that another one has once the bounds of its discrete variables
were moved to whole numbers, and these are inside the domain. -/
structure Box.Nested {α : Type} [Scalar α] (vars : List (Variable α)) (a b : Box α) : Prop where
  /-- The other box is not empty then, and inside the domain. -/
  inside : (Brancher.roundDiscrete vars b).Inside vars
  /-- The bounds of its discrete variables are whole. -/
  whole : Brancher.WholeBounds vars (Brancher.roundDiscrete vars b)
  /-- The box has no bound outside of them. -/
  shrunk : a.Shrunk (Brancher.roundDiscrete vars b)

variable {K : Type} [Field K] [LinearOrder K] [FloorRing K] {vars : List (Variable (Extended K))}
  {a b c : Box (Extended K)} {k i : ℕ} {v : Variable (Extended K)}

namespace Box

/-- The bounds of a box inside the domain are finite. -/
theorem Inside.finite (h : b.Inside vars) (hvars : ∀ v ∈ vars, v.Standard) :
    b.Finite vars.length := by
  refine ⟨h.dimension, fun i hi => ?_, fun i hi => ?_⟩ <;>
    obtain ⟨-, l, u, -, -, hl, hu, -⟩ := h.exists_points hvars (List.getElem?_eq_getElem hi)
  · rw [hl]
    rfl
  · rw [hu]
    rfl

/-- A finite box has no bound outside another one if that holds in every dimension. -/
theorem Finite.shrunk_iff (ha : a.Finite k) (hb : b.Finite k) :
    a.Shrunk b ↔ ∀ i < k, b.low i ≤ a.low i ∧ a.high i ≤ b.high i := by
  obtain ⟨halow, hahigh⟩ := hasDimension_iff.mp ha.dimension
  obtain ⟨hblow, hbhigh⟩ := hasDimension_iff.mp hb.dimension
  constructor
  · -- both boxes have a number for every bound, so comparing the bounds compares these numbers
    intro h i hi
    refine ⟨?_, ?_⟩
    · rcases h.lower i with heq | hle
      · rw [low, low, heq]
      · rwa [ha.lowerAt_eq hi, hb.lowerAt_eq hi, Extended.point_le_point] at hle
    · rcases h.upper i with heq | hle
      · rw [high, high, heq]
      · rwa [ha.upperAt_eq hi, hb.upperAt_eq hi, Extended.point_le_point] at hle
  · intro h
    -- beyond the last variable all bounds read as zero
    have hzero : ∀ {x y : List (Extended K)} {j : ℕ}, x.length = k → y.length = k → ¬ j < k →
        x.getD j 0 = y.getD j 0 := by
      intro x y j hx hy hj
      rw [List.getD_eq_default _ _ (hx ▸ not_lt.mp hj),
        List.getD_eq_default _ _ (hy ▸ not_lt.mp hj)]
    refine ⟨halow.trans hblow.symm, hahigh.trans hbhigh.symm, fun j => ?_, fun j => ?_⟩ <;>
      by_cases hj : j < k
    · rw [ha.lowerAt_eq hj, hb.lowerAt_eq hj]
      exact .inr (Extended.point_le_point.mpr (h j hj).1)
    · exact .inl (hzero halow hblow hj)
    · rw [ha.upperAt_eq hj, hb.upperAt_eq hj]
      exact .inr (Extended.point_le_point.mpr (h j hj).2)
    · exact .inl (hzero hahigh hbhigh hj)

end Box

namespace Brancher

variable [IsStrictOrderedRing K]

omit [IsStrictOrderedRing K] in
/-- The whole bounds of a finite box are their own floors. -/
theorem WholeBounds.floor_eq (h : WholeBounds vars b) (hb : b.Finite vars.length)
    (hv : vars[i]? = some v) (hdiscrete : v.kind.isDiscrete = true) :
    (⌊b.low i⌋ : K) = b.low i ∧ (⌊b.high i⌋ : K) = b.high i := by
  have hi := (List.getElem?_eq_some_iff.mp hv).1
  obtain ⟨hlow, hhigh⟩ := h i v hv hdiscrete
  rw [hb.lowerAt_eq hi] at hlow
  rw [hb.upperAt_eq hi] at hhigh
  exact ⟨Extended.floor_eq_of_isWhole hlow, Extended.floor_eq_of_isWhole hhigh⟩

/-- The parts of a box that is wide enough have no bound outside it. -/
theorem shrunk_parts (hb : b.Finite vars.length) (hwhole : WholeBounds vars b)
    (hv : vars[i]? = some v) (hwide : ¬ b.width i ≤ 0) :
    (parts v.kind b i).1.Shrunk b ∧ (parts v.kind b i).2.Shrunk b := by
  have hi := (List.getElem?_eq_some_iff.mp hv).1
  obtain ⟨-, hbelow, habove, -⟩ :=
    v.kind.cuts_between ((hb.not_width_le_zero_iff hi).mp hwide) (hwhole.floor_eq hb hv)
  rw [hb.parts_eq hi]
  obtain ⟨hlower, hlowerBounds⟩ := hb.setUpper hi (v.kind.cutBelow (b.low i) (b.high i))
  obtain ⟨hupper, hupperBounds⟩ := hb.setLower hi (v.kind.cutAbove (b.low i) (b.high i))
  refine ⟨(hlower.shrunk_iff hb).mpr fun j _ => ?_, (hupper.shrunk_iff hb).mpr fun j _ => ?_⟩
  · rw [(hlowerBounds j).1, (hlowerBounds j).2]
    split
    · next hij => exact ⟨le_refl _, hij ▸ hbelow⟩
    · exact ⟨le_refl _, le_refl _⟩
  · rw [(hupperBounds j).1, (hupperBounds j).2]
    split
    · next hij => exact ⟨hij ▸ habove, le_refl _⟩
    · exact ⟨le_refl _, le_refl _⟩

/-- A box within whole bounds stays within them when its own discrete bounds are moved to whole
numbers. -/
theorem shrunk_roundDiscrete (ha : a.Finite vars.length) (hb : b.Finite vars.length)
    (hwhole : WholeBounds vars b) (hab : a.Shrunk b) : (roundDiscrete vars a).Shrunk b := by
  refine (ha.roundDiscrete.shrunk_iff hb).mpr fun i hi => ?_
  have hv := List.getElem?_eq_getElem hi
  obtain ⟨hlow, hhigh⟩ := (ha.shrunk_iff hb).mp hab i hi
  obtain ⟨hlower, hupper⟩ := ha.bounds_roundDiscrete hv
  have hlower : (roundDiscrete vars a).low i = ite _ _ _ := congrArg Extended.value hlower
  have hupper : (roundDiscrete vars a).high i = ite _ _ _ := congrArg Extended.value hupper
  rw [hlower, hupper]
  split
  · next hdiscrete =>
    obtain ⟨hleast, hgreatest⟩ := hwhole i _ hv hdiscrete
    rw [hb.lowerAt_eq hi] at hleast
    rw [hb.upperAt_eq hi] at hgreatest
    have hceil := Extended.le_ceil_sub_slack hleast hlow
    have hfloor := Extended.floor_add_slack_le hgreatest hhigh
    rw [Extended.slack_eq, Extended.sub_point] at hceil
    rw [Extended.slack_eq, Extended.add_point] at hfloor
    exact ⟨Extended.point_le_point.mp hceil, Extended.point_le_point.mp hfloor⟩
  · exact ⟨hlow, hhigh⟩

end Brancher

end BranchBound
