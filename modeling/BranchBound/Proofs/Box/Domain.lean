import BranchBound.Proofs.Box.Grid

/-! # Boxes inside the domain

A node covers a part of the domain of the variables: its bounds are in order, and none is outside
the domain. Tightening and splitting keep this. Moving the bounds of discrete variables to whole
numbers keeps it too, although the slack moves them outwards, because the domain of a discrete
variable ends at whole numbers.

* **`Variable.Standard`** — the domain of a variable is in standard form.
* **`Box.Inside vars b`** — a box is not empty and lies inside the domain.
* **`Box.Inside.within`**, **`Box.Inside.shrunk`** — tightening stays inside.
* **`Brancher.inside_roundDiscrete`**, **`Brancher.inside_parts`** — so does splitting.
* **`Brancher.relativeWidth`** — what the size tolerance bounds.
* **`Box.span`**, **`Variable.span`** — widths as points of the field;
  `Brancher.isBelowTolerance_iff` compares them. -/

namespace BranchBound

variable {α : Type} [Scalar α]

/-- The domain of a variable is in standard form. -/
structure Variable.Standard (v : Variable α) : Prop where
  /-- The least value is finite. -/
  isFinite_lower : Scalar.isFinite v.lower = true
  /-- So is the greatest one. -/
  isFinite_upper : Scalar.isFinite v.upper = true
  /-- They are in order. -/
  le : v.lower ≤ v.upper
  /-- Those of a discrete variable are whole. -/
  whole : v.kind.isDiscrete = true → Scalar.IsWhole v.lower ∧ Scalar.IsWhole v.upper

/-- The bounds of every variable are in order, and inside its domain. -/
structure Box.Inside (vars : List (Variable α)) (b : Box α) : Prop where
  /-- Every variable has both bounds. -/
  dimension : b.hasDimension vars.length = true
  /-- They are in order and inside the domain. -/
  bounds : ∀ i v, vars[i]? = some v →
    v.lower ≤ b.lowerAt i ∧ b.lowerAt i ≤ b.upperAt i ∧ b.upperAt i ≤ v.upper

namespace Box

variable {vars : List (Variable α)} {a b : Box α} {x : List α} {i : Nat} {v : Variable α} {y : α}

/-- The root covers the domain. -/
theorem inside_root [Scalar.Exact α] (h : ∀ v ∈ vars, v.Standard) :
    (Node.root vars).box.Inside vars := by
  refine ⟨hasDimension_iff.mpr ⟨List.length_map _, List.length_map _⟩, fun i v hv => ?_⟩
  obtain ⟨hlower, hupper⟩ := bounds_root hv
  obtain ⟨hlow, hhigh, hle, -⟩ := h v (List.mem_of_getElem? hv)
  rw [hlower, hupper]
  exact ⟨Scalar.Ordered.le_refl (Scalar.Exact.isNaN_of_isFinite hlow), hle,
    Scalar.Ordered.le_refl (Scalar.Exact.isNaN_of_isFinite hhigh)⟩

variable [Scalar.Ordered α]

/-- A box is inside the domain if its bounds move inwards in one dimension. -/
theorem Inside.setUpper (h : b.Inside vars) (hv : vars[i]? = some v) (hlower : b.lowerAt i ≤ y)
    (hupper : y ≤ b.upperAt i) : (b.setUpper i y).Inside vars := by
  obtain ⟨hlow, hhigh⟩ := hasDimension_iff.mp h.dimension
  have hi := (List.getElem?_eq_some_iff.mp hv).1
  refine ⟨hasDimension_iff.mpr ⟨hlow, List.length_set.trans hhigh⟩, fun j w hw => ?_⟩
  obtain ⟨hleast, hle, hgreatest⟩ := h.bounds j w hw
  rw [upperAt_setUpper (x := b.upper) rfl (hhigh ▸ hi)]
  split
  · next hij =>
    subst hij
    exact ⟨hleast, hlower, Scalar.Ordered.le_trans hupper hgreatest⟩
  · exact ⟨hleast, hle, hgreatest⟩

/-- So is it if the lower bound moves. -/
theorem Inside.setLower (h : b.Inside vars) (hv : vars[i]? = some v) (hlower : b.lowerAt i ≤ y)
    (hupper : y ≤ b.upperAt i) : (b.setLower i y).Inside vars := by
  obtain ⟨hlow, hhigh⟩ := hasDimension_iff.mp h.dimension
  have hi := (List.getElem?_eq_some_iff.mp hv).1
  refine ⟨hasDimension_iff.mpr ⟨List.length_set.trans hlow, hhigh⟩, fun j w hw => ?_⟩
  obtain ⟨hleast, hle, hgreatest⟩ := h.bounds j w hw
  rw [lowerAt_setLower (x := b.lower) rfl (hlow ▸ hi)]
  split
  · next hij =>
    subst hij
    exact ⟨Scalar.Ordered.le_trans hleast hlower, hupper, hgreatest⟩
  · exact ⟨hleast, hle, hgreatest⟩

/-- A part of a box that holds a point is inside the domain if the box is. -/
theorem Inside.within (h : b.Inside vars) (hab : a.Within b) (hx : a.Contains x) :
    a.Inside vars := by
  obtain ⟨hlower, -⟩ := hasDimension_iff.mp h.dimension
  have hlength : x.length = vars.length := (hab x hx).lower_length.symm.trans hlower
  refine ⟨hasDimension_iff.mpr ⟨hx.lower_length.trans hlength, hx.upper_length.trans hlength⟩,
    fun i v hv => ?_⟩
  have hi : i < x.length := hlength ▸ (List.getElem?_eq_some_iff.mp hv).1
  obtain ⟨hleast, -, hgreatest⟩ := h.bounds i v hv
  have hle := Scalar.Ordered.le_trans (hx.lower_le i hi) (hx.le_upper i hi)
  -- the bounds of the part are coordinates of points in it
  have hlow := (hab _ (hx.set hi
    (Scalar.Ordered.le_refl (Scalar.Ordered.isNaN_left_of_le hle)) hle)).lower_le i
    (by rw [List.length_set]; exact hi)
  have hhigh := (hab _ (hx.set hi hle
    (Scalar.Ordered.le_refl (Scalar.Ordered.isNaN_right_of_le hle)))).le_upper i
    (by rw [List.length_set]; exact hi)
  rw [getD_set x i i _ hi, if_pos rfl] at hlow hhigh
  exact ⟨Scalar.Ordered.le_trans hleast hlow, hle, Scalar.Ordered.le_trans hhigh hgreatest⟩

/-- The bounds of a box inside the domain are defined. -/
theorem Inside.isNaN (h : b.Inside vars) (hi : i < vars.length) :
    Scalar.isNaN (b.lowerAt i) = false ∧ Scalar.isNaN (b.upperAt i) = false := by
  obtain ⟨-, hle, -⟩ := h.bounds i _ (List.getElem?_eq_getElem hi)
  exact ⟨Scalar.Ordered.isNaN_left_of_le hle, Scalar.Ordered.isNaN_right_of_le hle⟩

end Box

/-! ## Exact numbers -/

namespace Brancher

/-- The width of a box in a dimension, relative to the width of the domain; zero where the domain
has none. -/
def relativeWidth (v : Variable α) (box : Box α) (i : ℕ) : α :=
  if 0 < v.width then box.width i / v.width else 0

/-- A box is within the size tolerance if all its relative widths are. -/
theorem isBelowTolerance_eq_true_iff {brancher : Brancher α} {box : Box α} {tolerance : α} :
    brancher.isBelowTolerance box tolerance = true
      ↔ ∀ i v, brancher.vars[i]? = some v → relativeWidth v box i ≤ tolerance := by
  rw [isBelowTolerance, List.all_eq_true]
  constructor
  · intro hall i v hv
    exact of_decide_eq_true (hall (v, i) (List.mem_zipIdx_iff_getElem?.mpr hv))
  · rintro hall ⟨v, i⟩ hmem
    exact decide_eq_true (hall i v (List.mem_zipIdx_iff_getElem?.mp hmem))

end Brancher

namespace Extended

variable {K : Type} [Field K] [LinearOrder K] [FloorRing K] {l p : K}

/-- The quotient by a point that is not zero. -/
theorem div_point {q : K} (p : K) (hq : q ≠ 0) : point p / point q = point (p / q) :=
  if_neg hq

/-- The greater of two points is a point. -/
theorem greatest_point (p q : K) : Scalar.greatest (point p) (point q) = point (max p q) := by
  unfold Scalar.greatest
  by_cases hlt : q < p
  · rw [if_pos (.inl (point_lt_point.mpr hlt)), max_eq_left hlt.le]
  · rw [if_neg, max_eq_right (not_lt.mp hlt)]
    rintro (hlt' | hnan)
    · exact hlt (point_lt_point.mp hlt')
    · cases hnan

/-- The point of the field, if the value is one. -/
def value : Extended K → K
  | point q => q
  | _ => 0

/-- A point that is its own floor is whole. -/
theorem isWhole_intCast [IsStrictOrderedRing K] (m : ℤ) : Scalar.IsWhole (point (m : K)) := by
  have hfloor : Scalar.floor (point (m : K)) = point (m : K) := by
    show point ((⌊(m : K)⌋ : ℤ) : K) = _
    rw [Int.floor_intCast]
  rw [Scalar.IsWhole, hfloor]
  exact Scalar.Ordered.beq_iff_le_ge.mpr
    ⟨Scalar.Ordered.le_refl rfl, Scalar.Ordered.le_refl rfl⟩

/-- Rounding a finite value up makes it whole. -/
theorem isWhole_ceil [IsStrictOrderedRing K] {x : Extended K} (h : Scalar.isFinite x = true) :
    Scalar.IsWhole (Scalar.ceil x) := by
  obtain ⟨p, rfl⟩ := isFinite_iff.mp h
  exact isWhole_intCast ⌈p⌉

/-- So does rounding it down. -/
theorem isWhole_floor [IsStrictOrderedRing K] {x : Extended K} (h : Scalar.isFinite x = true) :
    Scalar.IsWhole (Scalar.floor x) := by
  obtain ⟨p, rfl⟩ := isFinite_iff.mp h
  exact isWhole_intCast ⌊p⌋

variable [IsStrictOrderedRing K]

/-- Rounding up with some slack does not pass a whole number downwards. -/
theorem le_ceil_sub_slack (hl : Scalar.IsWhole (point l)) (h : l ≤ p) :
    point l ≤ Scalar.ceil (point p - Scalar.slack) := by
  obtain ⟨-, hlt⟩ := slack_pos_lt_one (K := K)
  rw [slack_eq, sub_point]
  refine point_le_point.mpr (show l ≤ ((⌈p - 10 ^ (-9 : ℤ)⌉ : ℤ) : K) from ?_)
  rw [← floor_eq_of_isWhole hl, Int.cast_le, ← Int.sub_one_lt_iff, Int.lt_ceil, Int.cast_sub,
    Int.cast_one, floor_eq_of_isWhole hl]
  linarith

/-- Rounding down with some slack does not pass a whole number upwards. -/
theorem floor_add_slack_le (hl : Scalar.IsWhole (point l)) (h : p ≤ l) :
    Scalar.floor (point p + Scalar.slack) ≤ point l := by
  obtain ⟨-, hlt⟩ := slack_pos_lt_one (K := K)
  rw [slack_eq, add_point]
  refine point_le_point.mpr (show ((⌊p + 10 ^ (-9 : ℤ)⌋ : ℤ) : K) ≤ l from ?_)
  rw [← floor_eq_of_isWhole hl, Int.cast_le, ← Int.lt_add_one_iff, Int.floor_lt, Int.cast_add,
    Int.cast_one, floor_eq_of_isWhole hl]
  linarith

end Extended

variable {K : Type} [Field K] [LinearOrder K] [FloorRing K] [IsStrictOrderedRing K]
  {vars : List (Variable (Extended K))} {b : Box (Extended K)} {i : Nat}
  {v : Variable (Extended K)}

omit [IsStrictOrderedRing K] in
/-- The bounds of a box inside the domain are points. -/
theorem Box.Inside.exists_points (h : b.Inside vars) (hvars : ∀ v ∈ vars, v.Standard)
    (hv : vars[i]? = some v) : ∃ d l u e : K, v.lower = .point d ∧ b.lowerAt i = .point l
      ∧ b.upperAt i = .point u ∧ v.upper = .point e ∧ d ≤ l ∧ l ≤ u ∧ u ≤ e := by
  have hstandard := hvars v (List.mem_of_getElem? hv)
  obtain ⟨d, hd⟩ := Extended.isFinite_iff.mp hstandard.isFinite_lower
  obtain ⟨e, he⟩ := Extended.isFinite_iff.mp hstandard.isFinite_upper
  obtain ⟨hleast, hle, hgreatest⟩ := h.bounds i v hv
  have hlow := Scalar.Ordered.le_trans hle hgreatest
  have hhigh := Scalar.Ordered.le_trans hleast hle
  rw [hd] at hleast hhigh
  rw [he] at hgreatest hlow
  obtain ⟨l, hl⟩ := Extended.exists_point_of_between hleast hlow
  obtain ⟨u, hu⟩ := Extended.exists_point_of_between hhigh hgreatest
  rw [hl] at hleast hle
  rw [hu] at hgreatest hle
  exact ⟨d, l, u, e, hd, hl, hu, he, Extended.point_le_point.mp hleast,
    Extended.point_le_point.mp hle, Extended.point_le_point.mp hgreatest⟩

/-- The width of a dimension as a point of the field. -/
def Box.span (b : Box (Extended K)) (i : Nat) : K := (b.width i).value

/-- The width of a domain as a point of the field. -/
def Variable.span (v : Variable (Extended K)) : K := v.width.value

/-- The widths of a box inside the domain are between zero and those of the domain. -/
theorem Box.Inside.spans (h : b.Inside vars) (hvars : ∀ v ∈ vars, v.Standard)
    (hv : vars[i]? = some v) : b.width i = .point (b.span i) ∧ v.width = .point v.span
      ∧ 0 ≤ b.span i ∧ b.span i ≤ v.span := by
  obtain ⟨d, l, u, e, hd, hl, hu, he, hdl, hlu, hue⟩ := h.exists_points hvars hv
  have hwidth : b.width i = .point (u - l) := by rw [Box.width, hl, hu, Extended.sub_point]; rfl
  have hdomain : v.width = .point (e - d) := by rw [Variable.width, hd, he, Extended.sub_point]; rfl
  rw [Box.span, Variable.span, hwidth, hdomain]
  exact ⟨rfl, rfl, sub_nonneg.mpr hlu, sub_le_sub hue hdl⟩

/-- A box inside the domain is a single point if no dimension has a width. -/
theorem Box.Inside.isPoint_of_span (h : b.Inside vars) (hvars : ∀ v ∈ vars, v.Standard)
    (hspan : ∀ i < vars.length, b.span i ≤ 0) : b.isPoint = true := by
  obtain ⟨hlower, hupper⟩ := hasDimension_iff.mp h.dimension
  rw [isPoint_iff (x := b.lower) rfl (hupper.trans hlower.symm), hlower]
  intro i hi
  obtain ⟨-, l, u, -, -, hl, hu, -, -, hlu, -⟩ :=
    h.exists_points hvars (List.getElem?_eq_getElem hi)
  have hnarrow := hspan i hi
  rw [Box.span, Box.width, hl, hu, Extended.sub_point] at hnarrow
  rw [hl, hu, Extended.point_le_point, Extended.point_le_point]
  exact ⟨hlu, sub_nonpos.mp hnarrow⟩

/-- A box inside the domain is below the size tolerance if no width exceeds that part of the width
of the domain. -/
theorem Brancher.isBelowTolerance_iff {brancher : Brancher (Extended K)}
    (h : b.Inside brancher.vars) (hvars : ∀ v ∈ brancher.vars, v.Standard) {tolerance : K}
    (hnonneg : 0 ≤ tolerance) :
    brancher.isBelowTolerance b (.point tolerance) = true
      ↔ ∀ i v, brancher.vars[i]? = some v → b.span i ≤ tolerance * v.span := by
  rw [isBelowTolerance_eq_true_iff]
  refine forall₃_congr fun i v hv => ?_
  obtain ⟨hwidth, hdomain, hspan, hle⟩ := h.spans hvars hv
  rw [relativeWidth, hwidth, hdomain]
  by_cases hpos : (0 : Extended K) < .point v.span
  · have hpos' : 0 < v.span := Extended.point_lt_point.mp hpos
    rw [if_pos hpos, Extended.div_point _ hpos'.ne', Extended.point_le_point, div_le_iff₀ hpos']
  · have hzero : v.span = 0 :=
      le_antisymm (not_lt.mp fun hlt => hpos (Extended.point_lt_point.mpr hlt)) (hspan.trans hle)
    rw [hzero] at hle ⊢
    rw [if_neg (by rw [hzero] at hpos; exact hpos), mul_zero]
    exact iff_of_true (Extended.point_le_point.mpr hnonneg) hle

/-- A box that shrank stays inside the domain unless it is empty. -/
theorem Box.Inside.shrunk {a : Box (Extended K)} (h : b.Inside vars) (hab : a.Shrunk b)
    (hfull : a.isEmpty = false) : a.Inside vars := by
  obtain ⟨hlower, hupper⟩ := hasDimension_iff.mp h.dimension
  refine ⟨hasDimension_iff.mpr ⟨hab.lower_length.trans hlower, hab.upper_length.trans hupper⟩,
    fun i v hv => ?_⟩
  have hi := (List.getElem?_eq_some_iff.mp hv).1
  obtain ⟨hleast, -, hgreatest⟩ := h.bounds i v hv
  obtain ⟨hlow, hle, hhigh⟩ := hab.le_of_isEmpty h.dimension (fun j hj => h.isNaN hj) hfull hi
  exact ⟨Scalar.Ordered.le_trans hleast hlow, hle, Scalar.Ordered.le_trans hhigh hgreatest⟩

namespace Brancher

/-- The bounds of the discrete variables of a box are whole. -/
def WholeBounds (vars : List (Variable α)) (b : Box α) : Prop :=
  ∀ i v, vars[i]? = some v → v.kind.isDiscrete = true →
    Scalar.IsWhole (b.lowerAt i) ∧ Scalar.IsWhole (b.upperAt i)

omit [IsStrictOrderedRing K] in
/-- The bounds of a variable after those of the discrete ones were moved to whole numbers. -/
theorem bounds_roundDiscrete (h : b.hasDimension vars.length = true) (hv : vars[i]? = some v) :
    (roundDiscrete vars b).lowerAt i
        = (if v.kind.isDiscrete then Scalar.ceil (b.lowerAt i - Scalar.slack) else b.lowerAt i)
      ∧ (roundDiscrete vars b).upperAt i
        = if v.kind.isDiscrete then Scalar.floor (b.upperAt i + Scalar.slack)
          else b.upperAt i := by
  obtain ⟨hlower, hupper⟩ := Box.hasDimension_iff.mp h
  have hi := (List.getElem?_eq_some_iff.mp hv).1
  have hany : vars[i]?.any (·.kind.isDiscrete) = v.kind.isDiscrete := by
    rw [hv]
    rfl
  rw [lowerAt_roundDiscrete (hlower ▸ hi), upperAt_roundDiscrete (hupper ▸ hi), hany]
  exact ⟨rfl, rfl⟩

/-- Moving the bounds of discrete variables to whole numbers stays inside the domain unless no point
is left, and the bounds are whole then. -/
theorem inside_roundDiscrete (h : b.Inside vars) (hvars : ∀ v ∈ vars, v.Standard)
    (hfull : (roundDiscrete vars b).isEmpty = false) :
    (roundDiscrete vars b).Inside vars ∧ WholeBounds vars (roundDiscrete vars b) := by
  have hdimension := hasDimension_roundDiscrete h.dimension vars
  refine ⟨⟨hdimension, fun i v hv => ?_⟩, fun i v hv hdiscrete => ?_⟩ <;>
    obtain ⟨d, l, u, e, hd, hl, hu, he, hdl, -, hue⟩ := h.exists_points hvars hv <;>
    obtain ⟨hlow, hhigh⟩ := bounds_roundDiscrete h.dimension hv
  · have hcrossed := (Box.isEmpty_eq_false_iff hdimension).mp hfull i
      (List.getElem?_eq_some_iff.mp hv).1
    -- rounding did not let the bounds cross, and the bounds of the variable itself are whole
    have hwhole := (hvars v (List.mem_of_getElem? hv)).whole
    rw [hlow, hhigh, hl, hu] at hcrossed
    rw [hlow, hhigh, hl, hu, hd, he]
    rw [hd, he] at hwhole
    cases hdiscrete : v.kind.isDiscrete with
    | true =>
      simp only [hdiscrete, if_true] at hcrossed ⊢
      obtain ⟨hleast, hgreatest⟩ := hwhole hdiscrete
      exact ⟨Extended.le_ceil_sub_slack hleast hdl, Scalar.le_of_not_lt rfl rfl hcrossed,
        Extended.floor_add_slack_le hgreatest hue⟩
    | false =>
      simp only [hdiscrete, Bool.false_eq_true, if_false] at hcrossed ⊢
      exact ⟨Extended.point_le_point.mpr hdl, Scalar.le_of_not_lt rfl rfl hcrossed,
        Extended.point_le_point.mpr hue⟩
  · rw [hlow, hhigh, if_pos hdiscrete, if_pos hdiscrete, hl, hu]
    exact ⟨Extended.isWhole_ceil rfl, Extended.isWhole_floor rfl⟩

/-- Between two whole numbers, the greatest whole number below the middle and the next one are
between them too. -/
theorem whole_around_middle {l u : K} (hl : (⌊l⌋ : K) = l) (hu : (⌊u⌋ : K) = u) (hlt : l < u) :
    l ≤ (⌊(l + u) / 2⌋ : K) ∧ (⌊(l + u) / 2⌋ : K) + 1 ≤ u := by
  constructor
  · rw [← hl, Int.cast_le, Int.le_floor, hl]
    linarith
  · have hfloor : ⌊(l + u) / 2⌋ < ⌊u⌋ := by
      rw [Int.floor_lt, hu]
      linarith
    have hnext : ((⌊(l + u) / 2⌋ + 1 : ℤ) : K) ≤ (⌊u⌋ : K) :=
      Int.cast_le.mpr (Int.add_one_le_iff.mpr hfloor)
    rwa [Int.cast_add, Int.cast_one, hu] at hnext

/-- The parts of a box that is wide enough stay inside the domain. -/
theorem inside_parts (h : b.Inside vars) (hvars : ∀ v ∈ vars, v.Standard)
    (hwhole : WholeBounds vars b) (hv : vars[i]? = some v) (hwide : ¬ b.width i ≤ 0) :
    (parts v.kind b i).1.Inside vars ∧ (parts v.kind b i).2.Inside vars := by
  obtain ⟨d, l, u, e, -, hl, hu, -, -, hlu, -⟩ := h.exists_points hvars hv
  have hlt : l < u := by
    refine lt_of_le_of_ne hlu fun heq => hwide ?_
    rw [Box.width, hl, hu, heq, Extended.sub_point]
    exact Extended.point_le_point.mpr (sub_self u).le
  -- the middle of the two bounds is exact
  have hmiddle : b.midpoint i = .point ((l + u) / 2) := by
    rw [Box.midpoint, hl, hu, Extended.middle_point]
  unfold parts
  split
  · next hdiscrete =>
    -- both bounds are whole, so the whole numbers around the middle lie between them
    obtain ⟨hlow, hhigh⟩ := hwhole i v hv hdiscrete
    rw [hl] at hlow
    rw [hu] at hhigh
    obtain ⟨hbelow, habove⟩ := whole_around_middle (Extended.floor_eq_of_isWhole hlow)
      (Extended.floor_eq_of_isWhole hhigh) hlt
    rw [hmiddle]
    refine ⟨h.setUpper hv ?_ ?_, h.setLower hv ?_ ?_⟩
    · rw [hl]
      exact Extended.point_le_point.mpr hbelow
    · rw [hu]
      exact Extended.point_le_point.mpr (by linarith)
    · rw [hl]
      exact Extended.point_le_point.mpr (show l ≤ (⌊(l + u) / 2⌋ : K) + 1 by linarith)
    · rw [hu]
      exact Extended.point_le_point.mpr habove
  · rw [hmiddle]
    refine ⟨h.setUpper hv ?_ ?_, h.setLower hv ?_ ?_⟩
    · rw [hl]
      exact Extended.point_le_point.mpr (by linarith)
    · rw [hu]
      exact Extended.point_le_point.mpr (by linarith)
    · rw [hl]
      exact Extended.point_le_point.mpr (by linarith)
    · rw [hu]
      exact Extended.point_le_point.mpr (by linarith)

end Brancher

end BranchBound
