import BranchBound.Proofs.Box.Domain

/-! # Boxes of finite bounds

The bounds of a box that is finite are points of the field, whatever the domain of the variables, so
that what is done to such a box can be said in the field: whether it is empty or a single point,
where its bounds are once those of the discrete variables were moved to whole numbers, and where its
parts meet.

* **`Box.Finite b k`** — the bounds of all `k` variables are finite; `Box.low` and `Box.high` are
  the points they are.
* **`Box.Finite.isEmpty_iff`**, **`Box.Finite.isPoint_iff`** — the tests on boxes.
* **`Box.Finite.roundDiscrete`** — the box with whole bounds.
* **`VariableKind.cutBelow`**, **`VariableKind.cutAbove`** — where the lower part of an interval
  ends and where the upper part begins; `Box.Finite.bounds_parts` finds them in the parts of a
  box. -/

namespace BranchBound

section Bounds

variable {α : Type} [Scalar α]

/-- Every one of `k` variables is bounded by finite numbers. -/
structure Box.Finite (b : Box α) (k : ℕ) : Prop where
  /-- Every variable has both bounds. -/
  dimension : b.hasDimension k = true
  /-- The lower bounds are finite. -/
  lower : ∀ i < k, Scalar.isFinite (b.lowerAt i) = true
  /-- So are the upper ones. -/
  upper : ∀ i < k, Scalar.isFinite (b.upperAt i) = true

end Bounds

variable {K : Type} [Field K] [LinearOrder K] [FloorRing K]

/-- The lower bound of a variable as a point of the field. -/
def Box.low (b : Box (Extended K)) (i : ℕ) : K := (b.lowerAt i).value

/-- The upper bound of a variable as a point of the field. -/
def Box.high (b : Box (Extended K)) (i : ℕ) : K := (b.upperAt i).value

namespace Box.Finite

variable {b : Box (Extended K)} {k i : ℕ}

/-- The lower bounds are points. -/
theorem lowerAt_eq (h : b.Finite k) (hi : i < k) : b.lowerAt i = .point (b.low i) := by
  obtain ⟨q, hq⟩ := Extended.isFinite_iff.mp (h.lower i hi)
  rw [low, hq]
  rfl

/-- The upper bounds are points. -/
theorem upperAt_eq (h : b.Finite k) (hi : i < k) : b.upperAt i = .point (b.high i) := by
  obtain ⟨q, hq⟩ := Extended.isFinite_iff.mp (h.upper i hi)
  rw [high, hq]
  rfl

/-- The widths are points. -/
theorem width_eq (h : b.Finite k) (hi : i < k) : b.width i = .point (b.high i - b.low i) := by
  rw [width, h.lowerAt_eq hi, h.upperAt_eq hi, Extended.sub_point]
  rfl

/-- A dimension can be split if its bounds are apart. -/
theorem not_width_le_zero_iff [IsStrictOrderedRing K] (h : b.Finite k) (hi : i < k) :
    ¬ b.width i ≤ 0 ↔ b.low i < b.high i := by
  rw [h.width_eq hi]
  show ¬ Extended.point _ ≤ .point 0 ↔ _
  rw [Extended.point_le_point, not_le, sub_pos]

/-- A box is not empty if its bounds are in order. -/
theorem isEmpty_iff (h : b.Finite k) : b.isEmpty = false ↔ ∀ i < k, b.low i ≤ b.high i := by
  rw [isEmpty_eq_false_iff h.dimension]
  refine forall₂_congr fun i hi => ?_
  rw [h.lowerAt_eq hi, h.upperAt_eq hi, Extended.point_lt_point, not_lt]

/-- A box is a single point if its bounds are equal. -/
theorem isPoint_iff (h : b.Finite k) : b.isPoint = true ↔ ∀ i < k, b.low i = b.high i := by
  obtain ⟨hlower, hupper⟩ := hasDimension_iff.mp h.dimension
  rw [Box.isPoint_iff (x := b.lower) rfl (hupper.trans hlower.symm), hlower]
  refine forall₂_congr fun i hi => ?_
  rw [h.lowerAt_eq hi, h.upperAt_eq hi, Extended.point_le_point, Extended.point_le_point]
  exact antisymm_iff

/-- The upper bound of a variable is moved to a point. -/
theorem setUpper (h : b.Finite k) (hi : i < k) (q : K) : (b.setUpper i (.point q)).Finite k
    ∧ ∀ j, (b.setUpper i (.point q)).low j = b.low j
      ∧ (b.setUpper i (.point q)).high j = if i = j then q else b.high j := by
  obtain ⟨hlower, hupper⟩ := hasDimension_iff.mp h.dimension
  have hset : ∀ j, (b.setUpper i (.point q)).upperAt j = if i = j then .point q else b.upperAt j :=
    upperAt_setUpper (x := b.upper) rfl (hupper ▸ hi)
  refine ⟨⟨hasDimension_iff.mpr ⟨hlower, List.length_set.trans hupper⟩, h.lower, fun j hj => ?_⟩,
    fun j => ⟨rfl, ?_⟩⟩
  · rw [hset]
    split
    · rfl
    · exact h.upper j hj
  · rw [high, hset]
    split <;> rfl

/-- The lower bound of a variable is moved to a point. -/
theorem setLower (h : b.Finite k) (hi : i < k) (q : K) : (b.setLower i (.point q)).Finite k
    ∧ ∀ j, (b.setLower i (.point q)).low j = (if i = j then q else b.low j)
      ∧ (b.setLower i (.point q)).high j = b.high j := by
  obtain ⟨hlower, hupper⟩ := hasDimension_iff.mp h.dimension
  have hset : ∀ j, (b.setLower i (.point q)).lowerAt j = if i = j then .point q else b.lowerAt j :=
    lowerAt_setLower (x := b.lower) rfl (hlower ▸ hi)
  refine ⟨⟨hasDimension_iff.mpr ⟨List.length_set.trans hlower, hupper⟩, fun j hj => ?_, h.upper⟩,
    fun j => ⟨?_, rfl⟩⟩
  · rw [hset]
    split
    · rfl
    · exact h.lower j hj
  · rw [low, hset]
    split <;> rfl

/-! ## Whole bounds -/

variable {vars : List (Variable (Extended K))} {v : Variable (Extended K)}

/-- The bounds of a variable once those of the discrete ones were moved to whole numbers, with some
slack. -/
theorem bounds_roundDiscrete (h : b.Finite vars.length) (hv : vars[i]? = some v) :
    (Brancher.roundDiscrete vars b).lowerAt i
        = .point (if v.kind.isDiscrete then (⌈b.low i - 10 ^ (-9 : ℤ)⌉ : K) else b.low i)
      ∧ (Brancher.roundDiscrete vars b).upperAt i
        = .point (if v.kind.isDiscrete then (⌊b.high i + 10 ^ (-9 : ℤ)⌋ : K) else b.high i) := by
  have hi := (List.getElem?_eq_some_iff.mp hv).1
  obtain ⟨hlow, hhigh⟩ := Brancher.bounds_roundDiscrete h.dimension hv
  rw [hlow, hhigh, h.lowerAt_eq hi, h.upperAt_eq hi, Extended.slack_eq, Extended.sub_point,
    Extended.add_point]
  split <;> exact ⟨rfl, rfl⟩

/-- A box stays finite. -/
theorem roundDiscrete (h : b.Finite vars.length) :
    (Brancher.roundDiscrete vars b).Finite vars.length := by
  refine ⟨Brancher.hasDimension_roundDiscrete h.dimension vars, fun i hi => ?_, fun i hi => ?_⟩
  · rw [(h.bounds_roundDiscrete (List.getElem?_eq_getElem hi)).1]
    rfl
  · rw [(h.bounds_roundDiscrete (List.getElem?_eq_getElem hi)).2]
    rfl

/-- The bounds of discrete variables are whole then. -/
theorem wholeBounds_roundDiscrete [IsStrictOrderedRing K] (h : b.Finite vars.length) :
    Brancher.WholeBounds vars (Brancher.roundDiscrete vars b) := by
  intro i v hv hdiscrete
  obtain ⟨hlow, hhigh⟩ := h.bounds_roundDiscrete hv
  rw [hlow, hhigh, if_pos hdiscrete, if_pos hdiscrete]
  exact ⟨Extended.isWhole_intCast _, Extended.isWhole_intCast _⟩

end Box.Finite

/-! ## Parts -/

namespace VariableKind

/-- Where the lower part of an interval ends that is split for a variable of a kind. -/
def cutBelow (kind : VariableKind) (l u : K) : K :=
  if kind.isDiscrete then ⌊(l + u) / (2 : ℕ)⌋ else (l + u) / (2 : ℕ)

/-- Where the upper part begins. -/
def cutAbove (kind : VariableKind) (l u : K) : K :=
  if kind.isDiscrete then ⌊(l + u) / (2 : ℕ)⌋ + 1 else (l + u) / (2 : ℕ)

variable {kind : VariableKind} {l u : K}

/-- Both are found from the middle. -/
theorem cuts_eq (kind : VariableKind) (l u : K) :
    kind.cutBelow l u = (if kind.isDiscrete then (⌊(l + u) / 2⌋ : K) else (l + u) / 2)
      ∧ kind.cutAbove l u = if kind.isDiscrete then (⌊(l + u) / 2⌋ : K) + 1 else (l + u) / 2 := by
  rw [cutBelow, cutAbove, Nat.cast_ofNat]
  exact ⟨rfl, rfl⟩

/-- The parts of a continuous variable meet in the middle. -/
theorem cuts_of_continuous (h : ¬ kind.isDiscrete = true) (l u : K) :
    kind.cutBelow l u = (l + u) / 2 ∧ kind.cutAbove l u = (l + u) / 2 := by
  rw [(kind.cuts_eq l u).1, (kind.cuts_eq l u).2, if_neg h, if_neg h]
  exact ⟨rfl, rfl⟩

variable [IsStrictOrderedRing K]

/-- The upper part of a discrete variable begins above the lower one. -/
theorem cutBelow_lt_cutAbove (h : kind.isDiscrete = true) :
    kind.cutBelow l u < kind.cutAbove l u := by
  rw [cutBelow, cutAbove, if_pos h, if_pos h]
  exact lt_add_one _

/-- Both parts of an interval have points, if its ends are apart, and whole for a discrete
variable. -/
theorem cuts_between (kind : VariableKind) (hlt : l < u)
    (hwhole : kind.isDiscrete = true → (⌊l⌋ : K) = l ∧ (⌊u⌋ : K) = u) :
    l ≤ kind.cutBelow l u ∧ kind.cutBelow l u ≤ u ∧ l ≤ kind.cutAbove l u
      ∧ kind.cutAbove l u ≤ u := by
  by_cases hdiscrete : kind.isDiscrete = true
  · obtain ⟨hl, hu⟩ := hwhole hdiscrete
    obtain ⟨hbelow, habove⟩ := Brancher.whole_around_middle hl hu hlt
    rw [(kind.cuts_eq l u).1, (kind.cuts_eq l u).2, if_pos hdiscrete, if_pos hdiscrete]
    exact ⟨hbelow, by linarith, by linarith, habove⟩
  · obtain ⟨hbelow, habove⟩ := cuts_of_continuous hdiscrete l u
    rw [hbelow, habove]
    refine ⟨?_, ?_, ?_, ?_⟩ <;> linarith

end VariableKind

namespace Box.Finite

variable [IsStrictOrderedRing K] {b : Box (Extended K)} {k i : ℕ}

/-- The parts of a box differ from it in one bound each. -/
theorem parts_eq (h : b.Finite k) (hi : i < k) (kind : VariableKind) :
    Brancher.parts kind b i = (b.setUpper i (.point (kind.cutBelow (b.low i) (b.high i))),
      b.setLower i (.point (kind.cutAbove (b.low i) (b.high i)))) := by
  have hmiddle : b.midpoint i = .point ((b.low i + b.high i) / 2) := by
    rw [midpoint, h.lowerAt_eq hi, h.upperAt_eq hi, Extended.middle_point]
  rw [Brancher.parts, hmiddle, (kind.cuts_eq _ _).1, (kind.cuts_eq _ _).2]
  split <;> rfl

/-- The bounds of the parts in the dimension that is split. -/
theorem bounds_parts (h : b.Finite k) (hi : i < k) (kind : VariableKind) :
    (Brancher.parts kind b i).1.lowerAt i = .point (b.low i)
      ∧ (Brancher.parts kind b i).1.upperAt i = .point (kind.cutBelow (b.low i) (b.high i))
      ∧ (Brancher.parts kind b i).2.lowerAt i = .point (kind.cutAbove (b.low i) (b.high i))
      ∧ (Brancher.parts kind b i).2.upperAt i = .point (b.high i) := by
  obtain ⟨hlower, hupper⟩ := hasDimension_iff.mp h.dimension
  rw [h.parts_eq hi]
  refine ⟨h.lowerAt_eq hi, ?_, ?_, h.upperAt_eq hi⟩
  · exact (upperAt_setUpper (x := b.upper) rfl (hupper ▸ hi) i).trans (if_pos rfl)
  · exact (lowerAt_setLower (x := b.lower) rfl (hlower ▸ hi) i).trans (if_pos rfl)

end Box.Finite

end BranchBound
