import BranchBound.Proofs.Box.Points
import BranchBound.Proofs.Scalar.Discrete
import Mathlib.Data.Int.Interval
import Mathlib.Data.Set.Card
import Mathlib.Data.Set.Finite.Lattice

/-! # Whole points of a box

The points of a box whose coordinates are whole numbers can be counted if no bound is far from zero.
If all variables are discrete and the bounds of a box are whole numbers, its parts share its whole
points between them, and neither part gets none. Tightening such a box and moving the bounds to
whole numbers again brings in no whole point, although the slack moves bounds outwards.

* **`Box.wholePoints`** — the whole points; there are finitely many (`finite_wholePoints`).
* **`Box.IsGrid`** — the bounds are whole numbers in order; such a box has a whole point.
* **`Box.Shrunk`** — no bound was moved outwards.
* **`Brancher.grid_roundDiscrete`**, **`Brancher.grid_parts`** — tightening and splitting. -/

namespace BranchBound

variable {α : Type} [Scalar α]

namespace Box

/-- The points of a box whose coordinates are whole numbers in range. -/
def wholePoints (b : Box α) : Set (List ℤ) :=
  {x | (∀ z ∈ x, Scalar.InRange z) ∧ b.Encloses (x.map Scalar.ofInt)}

/-- No bound was moved outwards. -/
structure Shrunk (a b : Box α) : Prop where
  /-- There are as many lower bounds. -/
  lower_length : a.lower.length = b.lower.length
  /-- There are as many upper bounds. -/
  upper_length : a.upper.length = b.upper.length
  /-- Lower bounds that have changed were raised. -/
  lower : ∀ i, a.lowerAt i = b.lowerAt i ∨ b.lowerAt i ≤ a.lowerAt i
  /-- Upper bounds that have changed were lowered. -/
  upper : ∀ i, a.upperAt i = b.upperAt i ∨ a.upperAt i ≤ b.upperAt i

/-- The bounds of every variable are whole numbers in order, within the domain of the variable. -/
structure IsGrid (vars : List (Variable α)) (b : Box α) : Prop where
  /-- Every variable has both bounds. -/
  dimension : b.hasDimension vars.length = true
  /-- They are whole numbers in order. -/
  bounds : ∀ i v, vars[i]? = some v → ∃ m n, m ≤ n ∧ Scalar.Stands (b.lowerAt i) m
    ∧ Scalar.Stands (b.upperAt i) n ∧ v.lower ≤ b.lowerAt i ∧ b.upperAt i ≤ v.upper

variable {a b c : Box α} {vars : List (Variable α)} {k i : Nat} {x : List ℤ}

/-- The bounds of the root are those of the domain. -/
theorem bounds_root {v : Variable α} (hv : vars[i]? = some v) :
    (Node.root vars).box.lowerAt i = v.lower ∧ (Node.root vars).box.upperAt i = v.upper := by
  have hat : ∀ f : Variable α → α, (vars.map f).getD i 0 = f v := by
    intro f
    rw [List.getD_eq_getElem?_getD, List.getElem?_map, hv]
    rfl
  exact ⟨hat (·.lower), hat (·.upper)⟩

/-- The coordinates of a whole point. -/
theorem getD_map_ofInt (hi : i < x.length) :
    (x.map (Scalar.ofInt : ℤ → α)).getD i 0 = Scalar.ofInt (x.getD i 0) := by
  rw [List.getD_eq_getElem _ _ (by rw [List.length_map]; exact hi), List.getElem_map,
    List.getD_eq_getElem _ _ hi]

/-! ## Finiteness -/

/-- A box has finitely many whole points. -/
theorem finite_wholePoints (b : Box α) : b.wholePoints.Finite := by
  have hfinite : {x : List ℤ | x.length = b.lower.length ∧ ∀ z ∈ x, Scalar.InRange z}.Finite := by
    generalize b.lower.length = k
    induction k with
    | zero =>
      refine (Set.finite_singleton []).subset fun x hx => ?_
      exact List.length_eq_zero_iff.mp hx.1
    | succ k ih =>
      have hcoordinate : {z : ℤ | Scalar.InRange z}.Finite :=
        (Set.finite_Icc (-(Scalar.wholeRange : ℤ)) Scalar.wholeRange).subset fun z hz => by
          have hz' : z.natAbs ≤ Scalar.wholeRange := hz
          exact ⟨by omega, by omega⟩
      refine (Set.Finite.image2 List.cons hcoordinate ih).subset fun x hx => ?_
      obtain ⟨hlength, hrange⟩ := hx
      cases x with
      | nil => cases hlength
      | cons z rest =>
        refine ⟨z, hrange z List.mem_cons_self, rest, ⟨Nat.succ.inj hlength, ?_⟩, rfl⟩
        exact fun y hy => hrange y (List.mem_cons_of_mem _ hy)
  refine hfinite.subset fun x hx => ⟨?_, hx.1⟩
  rw [hx.2.lower_length, List.length_map]

variable [Scalar.Discrete α]

omit [Scalar.Discrete α] in
/-- A box may stay as it is. -/
theorem Shrunk.refl (b : Box α) : b.Shrunk b := ⟨rfl, rfl, fun _ => .inl rfl, fun _ => .inl rfl⟩

omit [Scalar.Discrete α] in
/-- A box may shrink twice. -/
theorem Shrunk.trans [Scalar.Ordered α] (h : a.Shrunk b) (k : b.Shrunk c) : a.Shrunk c where
  lower_length := h.lower_length.trans k.lower_length
  upper_length := h.upper_length.trans k.upper_length
  lower i := by
    rcases h.lower i with heq | hle
    · rw [heq]
      exact k.lower i
    · rcases k.lower i with heq | hle'
      · exact .inr (heq ▸ hle)
      · exact .inr (Scalar.Ordered.le_trans hle' hle)
  upper i := by
    rcases h.upper i with heq | hle
    · rw [heq]
      exact k.upper i
    · rcases k.upper i with heq | hle'
      · exact .inr (heq ▸ hle)
      · exact .inr (Scalar.Ordered.le_trans hle hle')

/-- A box whose bounds lie within those of another has no further points. -/
theorem wholePoints_subset (hlower : a.lower.length = b.lower.length)
    (hupper : a.upper.length = b.upper.length)
    (hle : ∀ i < b.lower.length, b.lowerAt i ≤ a.lowerAt i)
    (hge : ∀ i < b.upper.length, a.upperAt i ≤ b.upperAt i) : a.wholePoints ⊆ b.wholePoints := by
  intro x hx
  obtain ⟨hrange, hencloses⟩ := hx
  have hlow := hlower.symm.trans hencloses.lower_length
  have hhigh := hupper.symm.trans hencloses.upper_length
  refine ⟨hrange, hlow, hhigh, fun i hi => ?_, fun i hi => ?_⟩
  · exact Scalar.Ordered.le_trans (hle i (hlow ▸ hi)) (hencloses.lower_le i hi)
  · exact Scalar.Ordered.le_trans (hencloses.le_upper i hi) (hge i (hhigh ▸ hi))

/-- A box whose bounds are whole numbers in order has a whole point. -/
theorem IsGrid.nonempty (h : b.IsGrid vars) : b.wholePoints.Nonempty := by
  obtain ⟨hlower, hupper⟩ := hasDimension_iff.mp h.dimension
  -- the lower bounds are the coordinates of a point
  have hcoordinate : ∀ i, ∃ m, Scalar.InRange m ∧ (i < vars.length →
      b.lowerAt i ≤ Scalar.ofInt m ∧ (Scalar.ofInt m : α) ≤ b.upperAt i) := by
    intro i
    by_cases hi : i < vars.length
    · obtain ⟨m, n, hmn, hm, hn, -⟩ := h.bounds i _ (List.getElem?_eq_getElem hi)
      exact ⟨m, hm.inRange, fun _ =>
        ⟨hm.same.1, (Scalar.stands_ofInt hm.inRange).le_iff hn |>.mpr hmn⟩⟩
    · exact ⟨0, by decide, fun h => absurd h hi⟩
  choose f hrange hbetween using hcoordinate
  refine ⟨(List.range vars.length).map f, ?_, ?_⟩
  · intro z hz
    obtain ⟨i, -, rfl⟩ := List.mem_map.mp hz
    exact hrange i
  · -- coordinate by coordinate the list reads as the function that was chosen
    have hvalue : ∀ i < vars.length,
        (((List.range vars.length).map f).map (Scalar.ofInt : ℤ → α)).getD i 0
          = Scalar.ofInt (f i) := by
      intro i hi
      rw [getD_map_ofInt (by simpa using hi), List.getD_eq_getElem _ _ (by simpa using hi)]
      simp
    refine ⟨by simpa using hlower, by simpa using hupper, fun i hi => ?_, fun i hi => ?_⟩ <;>
      rw [List.length_map, List.length_map, List.length_range] at hi <;> rw [hvalue i hi]
    · exact (hbetween i hi).1
    · exact (hbetween i hi).2

/-- The number of whole points is positive. -/
theorem IsGrid.ncard_pos (h : b.IsGrid vars) : 0 < b.wholePoints.ncard :=
  (Set.ncard_pos b.finite_wholePoints).mpr h.nonempty

/-! ## Emptiness -/

omit [Scalar.Discrete α] in
/-- A box is not empty if no bounds of a variable cross. -/
theorem isEmpty_eq_false_iff (h : b.hasDimension k = true) :
    b.isEmpty = false ↔ ∀ i < k, ¬ b.upperAt i < b.lowerAt i := by
  obtain ⟨hlower, hupper⟩ := hasDimension_iff.mp h
  rw [isEmpty, List.any_eq_false, forall_mem_zip (x := b.lower) rfl (hupper.trans hlower.symm)
    fun bounds => ¬ decide (bounds.2 < bounds.1) = true]
  simp only [decide_eq_true_eq, hlower]

/-- The bounds of a variable that a box shrank to are in order, unless it is empty now. -/
theorem Shrunk.le_of_isEmpty (hab : a.Shrunk b) (hb : b.hasDimension k = true)
    (hdef : ∀ i < k, Scalar.isNaN (b.lowerAt i) = false ∧ Scalar.isNaN (b.upperAt i) = false)
    (hfull : a.isEmpty = false) (hi : i < k) :
    b.lowerAt i ≤ a.lowerAt i ∧ a.lowerAt i ≤ a.upperAt i ∧ a.upperAt i ≤ b.upperAt i := by
  obtain ⟨hlower, hupper⟩ := hasDimension_iff.mp hb
  have ha : a.hasDimension k = true :=
    hasDimension_iff.mpr ⟨hab.lower_length.trans hlower, hab.upper_length.trans hupper⟩
  have hlow : b.lowerAt i ≤ a.lowerAt i := by
    rcases hab.lower i with heq | hle
    · rw [heq]
      exact Scalar.Ordered.le_refl (hdef i hi).1
    · exact hle
  have hhigh : a.upperAt i ≤ b.upperAt i := by
    rcases hab.upper i with heq | hle
    · rw [heq]
      exact Scalar.Ordered.le_refl (hdef i hi).2
    · exact hle
  refine ⟨hlow, Scalar.le_of_not_lt (Scalar.Ordered.isNaN_left_of_le hhigh)
    (Scalar.Ordered.isNaN_right_of_le hlow) ((isEmpty_eq_false_iff ha).mp hfull i hi), hhigh⟩

/-- The bounds of a grid are defined. -/
theorem IsGrid.isNaN (h : b.IsGrid vars) (hi : i < vars.length) :
    Scalar.isNaN (b.lowerAt i) = false ∧ Scalar.isNaN (b.upperAt i) = false := by
  obtain ⟨m, n, -, hm, hn, -⟩ := h.bounds i _ (List.getElem?_eq_getElem hi)
  exact ⟨hm.same.isNaN, hn.same.isNaN⟩

/-- What a single point shrank to is a single point, unless it is empty. -/
theorem Shrunk.isPoint (hab : a.Shrunk b) (hb : b.IsGrid vars) (hfull : a.isEmpty = false)
    (hpoint : b.isPoint = true) : a.isPoint = true := by
  obtain ⟨hlower, hupper⟩ := hasDimension_iff.mp hb.dimension
  rw [isPoint_iff (x := b.lower) rfl (hupper.trans hlower.symm), hlower] at hpoint
  rw [isPoint_iff (x := b.lower) hab.lower_length
    (hab.upper_length.trans (hupper.trans hlower.symm)), hlower]
  intro i hi
  obtain ⟨hlow, hle, hhigh⟩ := hab.le_of_isEmpty hb.dimension (fun i hi => hb.isNaN hi) hfull hi
  exact ⟨hle, Scalar.Ordered.le_trans hhigh (Scalar.Ordered.le_trans (hpoint i hi).2 hlow)⟩

/-- A grid that is not a single point can be split in some dimension. -/
theorem IsGrid.exists_wide (h : b.IsGrid vars) (hpoint : b.isPoint = false) :
    ∃ i v, vars[i]? = some v ∧ ¬ b.width i ≤ 0 := by
  obtain ⟨hlower, hupper⟩ := hasDimension_iff.mp h.dimension
  have hnot : ¬ b.isPoint = true := by rw [hpoint]; exact Bool.false_ne_true
  rw [isPoint_iff (x := b.lower) rfl (hupper.trans hlower.symm), hlower] at hnot
  push Not at hnot
  obtain ⟨i, hi, hwide⟩ := hnot
  obtain ⟨m, n, hmn, hm, hn, -⟩ := h.bounds i _ (List.getElem?_eq_getElem hi)
  refine ⟨i, vars[i], List.getElem?_eq_getElem hi, fun hnarrow => ?_⟩
  exact hwide (hm.le_iff hn |>.mpr hmn)
    (hn.le_iff hm |>.mpr ((Scalar.Discrete.sub_nonpos_iff hm hn).mp hnarrow))

/-- Lowering the upper bound of a grid to a whole number that is not below the lower bound. -/
theorem IsGrid.setUpper (h : b.IsGrid vars) {v : Variable α} (hv : vars[i]? = some v) {y : α}
    {m l : ℤ} (hm : Scalar.Stands (b.lowerAt i) m) (hl : Scalar.Stands y l) (hml : m ≤ l)
    (hy : y ≤ b.upperAt i) :
    (b.setUpper i y).IsGrid vars ∧ (b.setUpper i y).wholePoints ⊆ b.wholePoints := by
  obtain ⟨hlower, hupper⟩ := hasDimension_iff.mp h.dimension
  have hi := (List.getElem?_eq_some_iff.mp hv).1
  have hset : ∀ j, (b.setUpper i y).upperAt j = if i = j then y else b.upperAt j :=
    upperAt_setUpper (x := b.upper) rfl (hupper ▸ hi)
  refine ⟨⟨hasDimension_iff.mpr ⟨hlower, List.length_set.trans hupper⟩, fun j w hw => ?_⟩, ?_⟩
  · obtain ⟨p, q, hpq, hp, hq, hlow, hhigh⟩ := h.bounds j w hw
    rw [hset j]
    split
    · next hij =>
      subst hij
      exact ⟨m, l, hml, hm, hl, hlow, Scalar.Ordered.le_trans hy hhigh⟩
    · exact ⟨p, q, hpq, hp, hq, hlow, hhigh⟩
  · -- no bound lies further out than before, so no point is new
    refine wholePoints_subset rfl List.length_set (fun j hj => ?_) fun j hj => ?_
    · exact Scalar.Ordered.le_refl (h.isNaN (hlower ▸ hj)).1
    · rw [hset j]
      split
      · next hij => exact hij ▸ hy
      · exact Scalar.Ordered.le_refl (h.isNaN (hupper ▸ hj)).2

/-- Raising the lower bound of a grid to a whole number that is not above the upper bound. -/
theorem IsGrid.setLower (h : b.IsGrid vars) {v : Variable α} (hv : vars[i]? = some v) {y : α}
    {l n : ℤ} (hn : Scalar.Stands (b.upperAt i) n) (hl : Scalar.Stands y l) (hln : l ≤ n)
    (hy : b.lowerAt i ≤ y) :
    (b.setLower i y).IsGrid vars ∧ (b.setLower i y).wholePoints ⊆ b.wholePoints := by
  obtain ⟨hlower, hupper⟩ := hasDimension_iff.mp h.dimension
  have hi := (List.getElem?_eq_some_iff.mp hv).1
  have hset : ∀ j, (b.setLower i y).lowerAt j = if i = j then y else b.lowerAt j :=
    lowerAt_setLower (x := b.lower) rfl (hlower ▸ hi)
  refine ⟨⟨hasDimension_iff.mpr ⟨List.length_set.trans hlower, hupper⟩, fun j w hw => ?_⟩, ?_⟩
  · obtain ⟨p, q, hpq, hp, hq, hlow, hhigh⟩ := h.bounds j w hw
    rw [hset j]
    split
    · next hij =>
      subst hij
      exact ⟨l, n, hln, hl, hn, Scalar.Ordered.le_trans hlow hy, hhigh⟩
    · exact ⟨p, q, hpq, hp, hq, hlow, hhigh⟩
  · refine wholePoints_subset List.length_set rfl (fun j hj => ?_) fun j hj => ?_
    · rw [hset j]
      split
      · next hij => exact hij ▸ hy
      · exact Scalar.Ordered.le_refl (h.isNaN (hlower ▸ hj)).1
    · exact Scalar.Ordered.le_refl (h.isNaN (hupper ▸ hj)).2

/-- Parts of a box that are separated by whole numbers have no whole point in common. -/
theorem notMem_setLower_of_mem_setUpper (hi : i < b.lower.length) {f g : α} {k : ℤ}
    (hf : Scalar.Stands f k) (hg : Scalar.Stands g (k + 1))
    (hupper : b.upper.length = b.lower.length) (hx : x ∈ (b.setUpper i f).wholePoints) :
    x ∉ (b.setLower i g).wholePoints := by
  obtain ⟨hrange, hbelow⟩ := hx
  rintro ⟨-, habove⟩
  have hlength : x.length = b.lower.length := by
    rw [← List.length_map (Scalar.ofInt : ℤ → α)]
    exact hbelow.lower_length.symm
  have hx : i < x.length := hlength ▸ hi
  have hmap : i < (x.map (Scalar.ofInt : ℤ → α)).length := by rwa [List.length_map]
  have hle := hbelow.le_upper i hmap
  have hge := habove.lower_le i hmap
  rw [upperAt_setUpper (x := b.upper) rfl (hupper ▸ hi), if_pos rfl, getD_map_ofInt hx] at hle
  rw [lowerAt_setLower (x := b.lower) rfl hi, if_pos rfl, getD_map_ofInt hx] at hge
  -- in both parts the coordinate would be at most `k` and at least `k + 1`
  have hz : Scalar.Stands (Scalar.ofInt (x.getD i 0) : α) (x.getD i 0) :=
    Scalar.stands_ofInt (hrange _ (by
      rw [List.getD_eq_getElem _ _ hx]
      exact List.getElem_mem _))
  have hbelow' := (hz.le_iff hf).mp hle
  have habove' := (hg.le_iff hz).mp hge
  omega

end Box

namespace Brancher

variable [Scalar.Discrete α] {b t : Box α} {vars : List (Variable α)} {i : Nat} {v : Variable α}

/-! ## Rounding -/

/-- Tightening a grid and moving the bounds to whole numbers again leads to a grid without further
points, unless it leads to an empty box. -/
theorem grid_roundDiscrete (h : b.IsGrid vars)
    (hvars : ∀ v ∈ vars, v.kind.isDiscrete = true) (ht : t.Shrunk b) (htfull : t.isEmpty = false)
    (hfull : (roundDiscrete vars t).isEmpty = false) :
    (roundDiscrete vars t).IsGrid vars
      ∧ (roundDiscrete vars t).wholePoints ⊆ b.wholePoints := by
  obtain ⟨hlower, hupper⟩ := Box.hasDimension_iff.mp h.dimension
  have htlower := ht.lower_length.trans hlower
  have htupper := ht.upper_length.trans hupper
  have hdimension := hasDimension_roundDiscrete
    (Box.hasDimension_iff.mpr ⟨htlower, htupper⟩) vars
  -- both bounds stay between the whole numbers that bounded the grid
  have hbounds : ∀ i v, vars[i]? = some v → ∃ m n k l, Scalar.Stands (b.lowerAt i) m
      ∧ Scalar.Stands (b.upperAt i) n ∧ m ≤ k ∧ l ≤ n
      ∧ Scalar.Stands ((roundDiscrete vars t).lowerAt i) k
      ∧ Scalar.Stands ((roundDiscrete vars t).upperAt i) l := by
    intro i v hv
    have hi := (List.getElem?_eq_some_iff.mp hv).1
    obtain ⟨m, n, -, hm, hn, -⟩ := h.bounds i v hv
    obtain ⟨hlow, hle, hhigh⟩ := ht.le_of_isEmpty h.dimension (fun i hi => h.isNaN hi) htfull hi
    have hmt := Scalar.Ordered.le_trans hm.same.2 hlow
    have htn := Scalar.Ordered.le_trans hhigh hn.same.1
    have hdiscrete : vars[i]?.any (·.kind.isDiscrete) = true := by
      rw [hv]
      exact hvars v (List.mem_of_getElem? hv)
    rw [lowerAt_roundDiscrete (htlower ▸ hi), upperAt_roundDiscrete (htupper ▸ hi),
      if_pos hdiscrete, if_pos hdiscrete]
    obtain ⟨k, hmk, hkn, hk⟩ := Scalar.Discrete.ceil_sub_slack_between hm.inRange hn.inRange hmt
      (Scalar.Ordered.le_trans hle htn)
    obtain ⟨l, hml, hln, hl⟩ := Scalar.Discrete.floor_add_slack_between hm.inRange hn.inRange
      (Scalar.Ordered.le_trans hmt hle) htn
    exact ⟨m, n, k, l, hm, hn, hmk, hln, ⟨hm.inRange.between hn.inRange hmk hkn, hk⟩,
      ⟨hm.inRange.between hn.inRange hml hln, hl⟩⟩
  refine ⟨⟨hdimension, fun i v hv => ?_⟩, ?_⟩
  · obtain ⟨m, n, k, l, hm, hn, hmk, hln, hk, hl⟩ := hbounds i v hv
    obtain ⟨-, -, -, -, -, hdomainLow, hdomainHigh⟩ := h.bounds i v hv
    have hi := (List.getElem?_eq_some_iff.mp hv).1
    -- bounds that the rounding has crossed would make the box empty
    have hkl : k ≤ l := by
      by_contra hlk
      refine (Box.isEmpty_eq_false_iff hdimension).mp hfull i hi ?_
      rw [Scalar.Ordered.lt_iff_le_not_ge, hl.le_iff hk, hk.le_iff hl]
      omega
    refine ⟨k, l, hkl, hk, hl, Scalar.Ordered.le_trans hdomainLow (hm.le_iff hk |>.mpr hmk), ?_⟩
    exact Scalar.Ordered.le_trans (hl.le_iff hn |>.mpr hln) hdomainHigh
  · refine Box.wholePoints_subset (List.length_mapIdx.trans ht.lower_length)
      (List.length_mapIdx.trans ht.upper_length) (fun i hi => ?_) fun i hi => ?_
    · rw [hlower] at hi
      obtain ⟨m, n, k, l, hm, hn, hmk, hln, hk, hl⟩ := hbounds i _ (List.getElem?_eq_getElem hi)
      exact hm.le_iff hk |>.mpr hmk
    · rw [hupper] at hi
      obtain ⟨m, n, k, l, hm, hn, hmk, hln, hk, hl⟩ := hbounds i _ (List.getElem?_eq_getElem hi)
      exact hl.le_iff hn |>.mpr hln

/-! ## Splitting -/

/-- The parts of a grid that is wide enough are grids, which share its points between them. -/
theorem grid_parts (h : b.IsGrid vars) (hv : vars[i]? = some v)
    (hkind : v.kind.isDiscrete = true) (hwide : ¬ b.width i ≤ 0) :
    (parts v.kind b i).1.IsGrid vars ∧ (parts v.kind b i).2.IsGrid vars
      ∧ (parts v.kind b i).1.wholePoints.ncard + (parts v.kind b i).2.wholePoints.ncard
        ≤ b.wholePoints.ncard := by
  obtain ⟨hlower, hupper⟩ := Box.hasDimension_iff.mp h.dimension
  have hi := (List.getElem?_eq_some_iff.mp hv).1
  obtain ⟨m, n, -, hm, hn, -⟩ := h.bounds i v hv
  have hmn : m < n := by
    by_contra hnm
    exact hwide ((Scalar.Discrete.sub_nonpos_iff hm hn).mpr (not_lt.mp hnm))
  -- the first part ends at `k` and the second begins at `k + 1`
  obtain ⟨k, hmk, hkn, hfloor, hnext⟩ := Scalar.Discrete.middle_between hm hn hmn
  have hf : Scalar.Stands (Scalar.floor (b.midpoint i)) k :=
    ⟨hm.inRange.between hn.inRange hmk hkn.le, hfloor⟩
  have hg : Scalar.Stands (Scalar.floor (b.midpoint i) + 1) (k + 1) :=
    ⟨hm.inRange.between hn.inRange (by omega) hkn, hnext⟩
  unfold parts
  rw [if_pos hkind]
  obtain ⟨hdown, hdownsub⟩ := h.setUpper hv hm hf hmk (hf.le_iff hn |>.mpr hkn.le)
  obtain ⟨hup, hupsub⟩ := h.setLower hv hn hg hkn (hm.le_iff hg |>.mpr (by omega))
  refine ⟨hdown, hup, ?_⟩
  have hdisjoint := Set.disjoint_left.mpr fun x =>
    Box.notMem_setLower_of_mem_setUpper (x := x) (hlower ▸ hi) hf hg (hupper.trans hlower.symm)
  rw [← Set.ncard_union_eq hdisjoint (Box.finite_wholePoints _) (Box.finite_wholePoints _)]
  exact Set.ncard_le_ncard (Set.union_subset hdownsub hupsub) b.finite_wholePoints

end Brancher

end BranchBound
