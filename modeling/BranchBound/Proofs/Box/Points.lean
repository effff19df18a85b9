import BranchBound.Brancher.Split
import BranchBound.Proofs.Scalar.Exact
import Mathlib.Data.List.GetD

/-! # The points of a box

A point lies in a box of finite bounds if each of its coordinates lies between them. Under exact
arithmetic no point is lost when a box is split: moving the bounds of discrete variables to whole
numbers keeps the points that are whole there, and each of them is in one of the two parts.

* **`Box.Contains b x`** — the point `x` lies in `b`; `a.Within b` says that all points of `a` are
  points of `b`.
* **`Contains.isPoint_of_within`** — a part of a single point that holds something is that point.
* **`contains_roundDiscrete`**, **`contains_parts`** — the two steps of a split. -/

namespace BranchBound

variable {α : Type} [Scalar α]

namespace Box

/-- No bound of the box excludes the point. -/
structure Encloses (b : Box α) (x : List α) : Prop where
  /-- There are as many lower bounds as coordinates. -/
  lower_length : b.lower.length = x.length
  /-- There are as many upper bounds as coordinates. -/
  upper_length : b.upper.length = x.length
  /-- No coordinate is below its lower bound. -/
  lower_le : ∀ i < x.length, b.lowerAt i ≤ x.getD i 0
  /-- No coordinate is above its upper bound. -/
  le_upper : ∀ i < x.length, x.getD i 0 ≤ b.upperAt i

/-- The point lies in the box, whose bounds are finite. -/
structure Contains (b : Box α) (x : List α) : Prop extends b.Encloses x where
  /-- The lower bounds are finite. -/
  isFinite_lower : ∀ i < x.length, Scalar.isFinite (b.lowerAt i) = true
  /-- The upper bounds are finite. -/
  isFinite_upper : ∀ i < x.length, Scalar.isFinite (b.upperAt i) = true

/-- All points of one box are points of another. -/
def Within (a b : Box α) : Prop := ∀ x, a.Contains x → b.Contains x

/-- A box is within itself. -/
theorem Within.refl (b : Box α) : b.Within b := fun _ h => h

/-- Being within a box is transitive. -/
theorem Within.trans {a b c : Box α} (h : a.Within b) (k : b.Within c) : a.Within c :=
  fun x hx => k x (h x hx)

variable {b : Box α} {x : List α} {i : Nat} {v : α}

omit [Scalar α] in
/-- A box has bounds for some number of variables if both lists of bounds are that long. -/
theorem hasDimension_iff {k : Nat} :
    b.hasDimension k = true ↔ b.lower.length = k ∧ b.upper.length = k := by
  rw [hasDimension, Bool.and_eq_true, decide_eq_true_eq, decide_eq_true_eq]

/-- What is said of all pairs of bounds is said of the bounds of each variable. -/
theorem forall_mem_zip (hlower : b.lower.length = x.length) (hupper : b.upper.length = x.length)
    (p : α × α → Prop) :
    (∀ bounds ∈ b.lower.zip b.upper, p bounds) ↔ ∀ i < x.length, p (b.lowerAt i, b.upperAt i) := by
  rw [List.forall_mem_iff_getElem]
  simp only [List.length_zip, hlower, hupper, Nat.min_self, List.getElem_zip, lowerAt, upperAt]
  refine forall_congr' fun i => forall_congr' fun hi => ?_
  rw [List.getD_eq_getElem _ _ (hlower ▸ hi), List.getD_eq_getElem _ _ (hupper ▸ hi)]

/-- Replacing a coordinate gives the new coordinate at its place and leaves the others. -/
theorem getD_set (x : List α) (i j : Nat) (v : α) (hi : i < x.length) :
    (x.set i v).getD j 0 = if i = j then v else x.getD j 0 := by
  rw [List.getD_eq_getElem?_getD, List.getElem?_set, List.getD_eq_getElem?_getD]
  by_cases hij : i = j
  · rw [if_pos hij, if_pos hi, if_pos hij]
    rfl
  · rw [if_neg hij, if_neg hij]

/-- The upper bounds once one of them was moved. -/
theorem upperAt_setUpper (hlength : b.upper.length = x.length) (hi : i < x.length) (j : Nat) :
    (b.setUpper i v).upperAt j = if i = j then v else b.upperAt j :=
  getD_set b.upper i j v (hlength ▸ hi)

/-- The lower bounds once one of them was moved. -/
theorem lowerAt_setLower (hlength : b.lower.length = x.length) (hi : i < x.length) (j : Nat) :
    (b.setLower i v).lowerAt j = if i = j then v else b.lowerAt j :=
  getD_set b.lower i j v (hlength ▸ hi)

/-- A point stays in a box whose upper bound is moved to a value that is not below the point. -/
theorem Encloses.setUpper (h : b.Encloses x) (hi : i < x.length) (hle : x.getD i 0 ≤ v) :
    (b.setUpper i v).Encloses x := by
  refine ⟨h.lower_length, List.length_set.trans h.upper_length, h.lower_le, fun j hj => ?_⟩
  rw [upperAt_setUpper h.upper_length hi]
  split
  · next hij => rw [← hij]; exact hle
  · exact h.le_upper j hj

/-- A point stays in a box whose lower bound is moved to a value that is not above the point. -/
theorem Encloses.setLower (h : b.Encloses x) (hi : i < x.length) (hle : v ≤ x.getD i 0) :
    (b.setLower i v).Encloses x := by
  refine ⟨List.length_set.trans h.lower_length, h.upper_length, fun j hj => ?_, h.le_upper⟩
  rw [lowerAt_setLower h.lower_length hi]
  split
  · next hij => rw [← hij]; exact hle
  · exact h.lower_le j hj

/-- A point stays in a box whose upper bound is moved to a finite value that is not below the
point. -/
theorem Contains.setUpper (h : b.Contains x) (hi : i < x.length)
    (hv : Scalar.isFinite v = true) (hle : x.getD i 0 ≤ v) : (b.setUpper i v).Contains x := by
  refine ⟨h.toEncloses.setUpper hi hle, h.isFinite_lower, fun j hj => ?_⟩
  rw [upperAt_setUpper h.upper_length hi]
  split
  · exact hv
  · exact h.isFinite_upper j hj

/-- A point stays in a box whose lower bound is moved to a finite value that is not above the
point. -/
theorem Contains.setLower (h : b.Contains x) (hi : i < x.length)
    (hv : Scalar.isFinite v = true) (hle : v ≤ x.getD i 0) : (b.setLower i v).Contains x := by
  refine ⟨h.toEncloses.setLower hi hle, fun j hj => ?_, h.isFinite_upper⟩
  rw [lowerAt_setLower h.lower_length hi]
  split
  · exact hv
  · exact h.isFinite_lower j hj

/-- A point stays in a box if a coordinate is moved between its bounds. -/
theorem Contains.set (h : b.Contains x) (hi : i < x.length) (hlower : b.lowerAt i ≤ v)
    (hupper : v ≤ b.upperAt i) : b.Contains (x.set i v) := by
  have hlength : (x.set i v).length = x.length := List.length_set
  refine ⟨⟨hlength ▸ h.lower_length, hlength ▸ h.upper_length, fun j hj => ?_, fun j hj => ?_⟩,
    hlength ▸ h.isFinite_lower, hlength ▸ h.isFinite_upper⟩ <;>
    rw [getD_set x i j v hi] <;> split
  · next hij => rw [← hij]; exact hlower
  · exact h.lower_le j (hlength ▸ hj)
  · next hij => rw [← hij]; exact hupper
  · exact h.le_upper j (hlength ▸ hj)

variable [Scalar.Ordered α]

/-- A box that holds a point is not empty. -/
theorem Encloses.isEmpty_eq_false (h : b.Encloses x) : b.isEmpty = false := by
  rw [isEmpty, List.any_eq_false]
  refine (forall_mem_zip h.lower_length h.upper_length
    fun bounds => ¬ decide (bounds.2 < bounds.1) = true).mpr fun i hi => ?_
  rw [decide_eq_true_eq]
  intro hlt
  exact Scalar.not_le_of_lt hlt (Scalar.Ordered.le_trans (h.lower_le i hi) (h.le_upper i hi))

/-- A box is a single point if the bounds of each variable are equal. -/
theorem isPoint_iff (hlower : b.lower.length = x.length) (hupper : b.upper.length = x.length) :
    b.isPoint = true ↔ ∀ i < x.length, b.lowerAt i ≤ b.upperAt i ∧ b.upperAt i ≤ b.lowerAt i := by
  rw [isPoint, List.all_eq_true, forall_mem_zip hlower hupper fun bounds =>
    (bounds.1 == bounds.2) = true]
  simp only [Scalar.Ordered.beq_iff_le_ge]

/-- A part of a single point that holds something is that point. -/
theorem Contains.isPoint_of_within {a : Box α} (h : a.Contains x) (hwithin : a.Within b)
    (hb : b.isPoint = true) : a.isPoint = true := by
  have hbx := hwithin x h
  rw [isPoint_iff hbx.lower_length hbx.upper_length] at hb
  refine (isPoint_iff h.lower_length h.upper_length).mpr fun i hi => ?_
  have hle : a.lowerAt i ≤ a.upperAt i :=
    Scalar.Ordered.le_trans (h.lower_le i hi) (h.le_upper i hi)
  refine ⟨hle, ?_⟩
  have hlow := hwithin _
    (h.set hi (Scalar.Ordered.le_refl (Scalar.Ordered.isNaN_left_of_le hle)) hle)
  have hup := hwithin _
    (h.set hi hle (Scalar.Ordered.le_refl (Scalar.Ordered.isNaN_right_of_le hle)))
  have hlower := hlow.lower_le i (by rw [List.length_set]; exact hi)
  have hupper := hup.le_upper i (by rw [List.length_set]; exact hi)
  rw [getD_set x i i _ hi, if_pos rfl] at hlower hupper
  exact Scalar.Ordered.le_trans hupper (Scalar.Ordered.le_trans (hb i hi).2 hlower)

end Box

/-- The point is whole where the variables are discrete. -/
def Integral (vars : List (Variable α)) (x : List α) : Prop :=
  ∀ i v, vars[i]? = some v → v.kind.isDiscrete = true → Scalar.IsWhole (x.getD i 0)

namespace Brancher

variable {vars : List (Variable α)} {box : Box α} {x : List α} {i : Nat}

/-- The bounds of one variable after all were changed by their places. -/
theorem getD_mapIdx (f : Nat → α → α) (bounds : List α) (i : Nat) (hi : i < bounds.length) :
    (bounds.mapIdx f).getD i 0 = f i (bounds.getD i 0) := by
  rw [List.getD_eq_getElem _ _ (by rw [List.length_mapIdx]; exact hi), List.getElem_mapIdx,
    List.getD_eq_getElem _ _ hi]

/-- The lower bounds of a box whose discrete bounds were moved to whole numbers. -/
theorem lowerAt_roundDiscrete (hi : i < box.lower.length) :
    (roundDiscrete vars box).lowerAt i
      = if vars[i]?.any (·.kind.isDiscrete) then Scalar.ceil (box.lowerAt i - Scalar.slack)
        else box.lowerAt i :=
  getD_mapIdx _ _ _ hi

/-- The upper bounds of a box whose discrete bounds were moved to whole numbers. -/
theorem upperAt_roundDiscrete (hi : i < box.upper.length) :
    (roundDiscrete vars box).upperAt i
      = if vars[i]?.any (·.kind.isDiscrete) then Scalar.floor (box.upperAt i + Scalar.slack)
        else box.upperAt i :=
  getD_mapIdx _ _ _ hi

/-- Moving bounds to whole numbers leaves as many of them. -/
theorem hasDimension_roundDiscrete {k : Nat} (h : box.hasDimension k = true)
    (vars : List (Variable α)) : (roundDiscrete vars box).hasDimension k = true := by
  rw [Box.hasDimension_iff] at h ⊢
  simpa only [roundDiscrete, List.length_mapIdx] using h

/-- So does splitting a box. -/
theorem hasDimension_parts {k : Nat} (h : box.hasDimension k = true) (kind : VariableKind)
    (i : Nat) : (parts kind box i).1.hasDimension k = true
      ∧ (parts kind box i).2.hasDimension k = true := by
  rw [Box.hasDimension_iff, Box.hasDimension_iff]
  rw [Box.hasDimension_iff] at h
  unfold parts
  dsimp only
  split <;> simpa only [Box.setLower, Box.setUpper, List.length_set] using ⟨h, h⟩

section Rounding

variable [Scalar.Rounding α]

/-- Moving the bounds of discrete variables to whole numbers excludes no point that is whole
there. -/
theorem encloses_roundDiscrete (h : box.Encloses x) (hx : Integral vars x) :
    (roundDiscrete vars box).Encloses x := by
  have hwhole : ∀ i, vars[i]?.any (·.kind.isDiscrete) = true → Scalar.IsWhole (x.getD i 0) := by
    intro i hi
    obtain ⟨v, hv, hkind⟩ := (Option.any_eq_true _ _).mp hi
    exact hx i v hv hkind
  refine ⟨List.length_mapIdx.trans h.lower_length, List.length_mapIdx.trans h.upper_length,
    fun i hi => ?_, fun i hi => ?_⟩
  · rw [lowerAt_roundDiscrete (h.lower_length ▸ hi)]
    split
    · next hdiscrete =>
      exact Scalar.Rounding.ceil_sub_slack_le (hwhole i hdiscrete) (h.lower_le i hi)
    · exact h.lower_le i hi
  · rw [upperAt_roundDiscrete (h.upper_length ▸ hi)]
    split
    · next hdiscrete =>
      exact Scalar.Rounding.le_floor_add_slack (hwhole i hdiscrete) (h.le_upper i hi)
    · exact h.le_upper i hi

/-- Moving the bounds of discrete variables to whole numbers keeps the points that are whole
there. -/
theorem contains_roundDiscrete (h : box.Contains x) (hx : Integral vars x) :
    (roundDiscrete vars box).Contains x := by
  refine ⟨encloses_roundDiscrete h.toEncloses hx, fun i hi => ?_, fun i hi => ?_⟩
  · rw [lowerAt_roundDiscrete (h.lower_length ▸ hi)]
    split
    · exact Scalar.Rounding.isFinite_ceil_sub_slack (h.isFinite_lower i hi)
    · exact h.isFinite_lower i hi
  · rw [upperAt_roundDiscrete (h.upper_length ▸ hi)]
    split
    · exact Scalar.Rounding.isFinite_floor_add_slack (h.isFinite_upper i hi)
    · exact h.isFinite_upper i hi

omit [Scalar.Rounding α] in
/-- A coordinate is not above a value that is defined, or it is above it. -/
theorem le_or_lt_coordinate [Scalar.Ordered α] (h : box.Encloses x) (hi : i < x.length) {m : α}
    (hm : Scalar.isNaN m = false) : x.getD i 0 ≤ m ∨ m < x.getD i 0 := by
  by_cases hle : x.getD i 0 ≤ m
  · exact .inl hle
  · exact .inr (Scalar.lt_of_not_le (Scalar.Ordered.isNaN_right_of_le (h.lower_le i hi)) hm hle)

/-- A point of a box that is split is in one of the two parts, if it is whole where it has to be. -/
theorem encloses_parts (kind : VariableKind) (h : box.Encloses x) (hi : i < x.length)
    (hmiddle : Scalar.isNaN (box.midpoint i) = false)
    (hx : kind.isDiscrete = true → Scalar.IsWhole (x.getD i 0)) :
    (parts kind box i).1.Encloses x ∨ (parts kind box i).2.Encloses x := by
  unfold parts
  by_cases hkind : kind.isDiscrete = true
  · rw [if_pos hkind]
    rcases le_or_lt_coordinate h hi (Scalar.Rounding.isNaN_floor hmiddle) with hle | hlt
    · exact .inl (h.setUpper hi hle)
    · exact .inr (h.setLower hi (Scalar.Rounding.floor_add_one_le (hx hkind) hlt))
  · rw [if_neg hkind]
    rcases le_or_lt_coordinate h hi hmiddle with hle | hlt
    · exact .inl (h.setUpper hi hle)
    · exact .inr (h.setLower hi (Scalar.le_of_lt hlt))

end Rounding

/-- The parts of a box of finite bounds have finite bounds, if arithmetic is exact. -/
theorem contains_parts [Scalar.Exact α] (kind : VariableKind) (h : box.Contains x)
    (hi : i < x.length) (hx : kind.isDiscrete = true → Scalar.IsWhole (x.getD i 0)) :
    (parts kind box i).1.Contains x ∨ (parts kind box i).2.Contains x := by
  have hmiddle : Scalar.isFinite (box.midpoint i) = true :=
    Scalar.isFinite_middle (h.isFinite_lower i hi) (h.isFinite_upper i hi)
  have hfloor := Scalar.Exact.isFinite_floor hmiddle
  unfold parts
  by_cases hkind : kind.isDiscrete = true
  · rw [if_pos hkind]
    rcases le_or_lt_coordinate h.toEncloses hi (Scalar.Exact.isNaN_of_isFinite hfloor)
      with hle | hlt
    · exact .inl (h.setUpper hi hfloor hle)
    · refine .inr (h.setLower hi (Scalar.Exact.isFinite_add hfloor Scalar.Exact.isFinite_one) ?_)
      exact Scalar.Rounding.floor_add_one_le (hx hkind) hlt
  · rw [if_neg hkind]
    rcases le_or_lt_coordinate h.toEncloses hi (Scalar.Exact.isNaN_of_isFinite hmiddle)
      with hle | hlt
    · exact .inl (h.setUpper hi hmiddle hle)
    · exact .inr (h.setLower hi hmiddle (Scalar.le_of_lt hlt))

end Brancher

end BranchBound
