import BranchBound.Proofs.Box.Finite
import BranchBound.Proofs.Brancher.Charges
import Mathlib.Data.Rat.Floor
import Mathlib.Tactic.IntervalCases

/-! # What branching decides

Under exact arithmetic, branching a node of finite bounds always succeeds, and which of its outcomes
comes about depends on the box alone whose discrete bounds were moved to whole numbers: on whether
it is empty, is a single point, or is within the size tolerance. In every other case there is a
dimension in which the box has a width, whatever the rule in force and the relaxation are, and the
node gives way to two children that share its points between them.

* **`Brancher.exists_choose_of_beyond`** — there is a dimension to split.
* **`Brancher.Divides`**, **`Brancher.divides_split`** — what two children have in common with the
  node they come from.
* **`Brancher.Decides`**, **`Brancher.branch_decides`** — the outcomes, each with the case it is
  for. -/

namespace BranchBound.Brancher

variable {K : Type} [Field K] [LinearOrder K] [FloorRing K] [IsStrictOrderedRing K]
  {b c d : Brancher (Extended K)} {parent n : Node (Extended K)} {point : List (Extended K)}
  {objective tolerance : Extended K} {box : Box (Extended K)} {i : ℕ} {v : Variable (Extended K)}
  {down up : OpenNode (Extended K)}

/-! ## The dimension to split -/

/-- A relative width beyond a tolerance is that of a dimension in which both the box and the domain
are wide. -/
theorem wide_of_relativeWidth {k : ℕ} (hbox : box.Finite k) (hi : i < k) (hnonneg : 0 ≤ tolerance)
    (hbeyond : ¬ relativeWidth v box i ≤ tolerance) : ¬ box.width i ≤ 0 ∧ ¬ v.width ≤ 0 := by
  unfold relativeWidth at hbeyond
  split at hbeyond
  · next hpos =>
    refine ⟨fun hnarrow => hbeyond ?_, Scalar.not_le_of_lt hpos⟩
    rw [hbox.width_eq hi] at hnarrow ⊢
    refine Scalar.Ordered.le_trans ?_ hnonneg
    -- the quotient is not positive if the width is not
    cases hv : v.width with
    | point g =>
      rw [hv] at hpos
      have hg : 0 < g := Extended.point_lt_point.mp hpos
      rw [Extended.div_point _ hg.ne']
      exact Extended.point_le_point.mpr
        (div_nonpos_of_nonpos_of_nonneg (Extended.point_le_point.mp hnarrow) hg.le)
    | top => exact Scalar.Ordered.le_refl rfl
    | bottom | undefined =>
      rw [hv] at hpos
      exact absurd hpos (by simp [Extended.isRank.lt_iff, Extended.rank?])
  · exact absurd hnonneg hbeyond

/-- A box that is not within the size tolerance has a dimension to split, whatever the rule in
force and the relaxation are. -/
theorem exists_choose_of_beyond (hbox : box.Finite b.vars.length) (hnonneg : 0 ≤ tolerance)
    (hbeyond : b.isBelowTolerance box tolerance = false) (point : List (Extended K)) :
    ∃ i v, b.choose box point = some i ∧ b.vars[i]? = some v ∧ ¬ box.width i ≤ 0 := by
  obtain ⟨j, w, hw, hrelative⟩ :
      ∃ j w, b.vars[j]? = some w ∧ ¬ relativeWidth w box j ≤ tolerance := by
    by_contra hnone
    push Not at hnone
    rw [isBelowTolerance_eq_true_iff.mpr hnone] at hbeyond
    cases hbeyond
  obtain ⟨hwide, hdomain⟩ :=
    wide_of_relativeWidth hbox (List.getElem?_eq_some_iff.mp hw).1 hnonneg hrelative
  obtain ⟨found, hmem, hchoose⟩ := exists_choose (candidates_ne_nil point hw hwide hdomain)
  obtain ⟨v, hv, hfound⟩ := mem_candidates hmem
  exact ⟨found.1, v, hchoose, hv, hfound⟩

/-! ## The children -/

/-- A node is a child of another one that was split in a dimension: its box is not empty, lies
inside that of the other one and agrees with it in every other dimension. -/
structure IsChild (k i : ℕ) (m n : Node (Extended K)) : Prop where
  /-- The score is handed down. -/
  score : m.score = n.score
  /-- The child is one level deeper. -/
  depth : m.depth = n.depth + 1
  /-- It is evaluated on the same data. -/
  dataset : m.dataset = n.dataset
  /-- Its bounds are finite. -/
  finite : m.box.Finite k
  /-- They are in order. -/
  full : ∀ j < k, m.box.low j ≤ m.box.high j
  /-- None of them was moved outwards. -/
  inside : ∀ j < k, n.box.low j ≤ m.box.low j ∧ m.box.high j ≤ n.box.high j
  /-- They were moved in one dimension only. -/
  outside : ∀ j < k, j ≠ i → m.box.low j = n.box.low j ∧ m.box.high j = n.box.high j

/-- Two nodes are the children of a node that was split in a dimension: they share its points
between them. -/
structure Divides (vars : List (Variable (Extended K))) (n : Node (Extended K)) (i : ℕ)
    (v : Variable (Extended K)) (down up : Node (Extended K)) : Prop where
  /-- The node has a width in that dimension. -/
  wide : n.box.low i < n.box.high i
  /-- The lower child. -/
  below : IsChild vars.length i down n
  /-- The upper child. -/
  above : IsChild vars.length i up n
  /-- Each point that is whole where it has to be is in one of the two boxes. -/
  cover : ∀ x, n.box.Contains x → Integral vars x → down.box.Contains x ∨ up.box.Contains x
  /-- No point is in both if the variable is discrete. -/
  disjoint : v.kind.isDiscrete = true → ∀ x, down.box.Contains x → ¬ up.box.Contains x
  /-- Otherwise the two boxes meet in the middle. -/
  meet : v.kind.isDiscrete = false → ∀ x, down.box.Contains x → up.box.Contains x →
    x.getD i 0 = .point ((n.box.low i + n.box.high i) / 2)

variable {k : ℕ} {q : K}

omit [IsStrictOrderedRing K] in
/-- The child whose upper bound is moved inwards. -/
theorem isChild_setUpper (h : n.box.Finite k) (hfull : ∀ j < k, n.box.low j ≤ n.box.high j)
    (hdepth : n.depth + 1 < depthRange) (hi : i < k) (hlow : n.box.low i ≤ q)
    (hhigh : q ≤ n.box.high i) (id : ℕ) :
    IsChild k i (child n (n.box.setUpper i (.point q)) id) n := by
  obtain ⟨hfinite, hbounds⟩ := h.setUpper hi q
  -- the lower bounds stay, and one upper bound moves down to the cut
  refine ⟨rfl, Nat.mod_eq_of_lt hdepth, rfl, hfinite, fun j hj => ?_, fun j hj => ?_,
    fun j hj hij => ?_⟩ <;> obtain ⟨hlower, hupper⟩ := hbounds j
  · show (n.box.setUpper i _).low j ≤ (n.box.setUpper i _).high j
    rw [hlower, hupper]
    split
    · next heq => exact heq ▸ hlow
    · exact hfull j hj
  · show n.box.low j ≤ (n.box.setUpper i _).low j ∧ (n.box.setUpper i _).high j ≤ n.box.high j
    rw [hlower, hupper]
    split
    · next heq => exact ⟨le_refl _, heq ▸ hhigh⟩
    · exact ⟨le_refl _, le_refl _⟩
  · exact ⟨hlower, hupper.trans (if_neg hij.symm)⟩

omit [IsStrictOrderedRing K] in
/-- The child whose lower bound is moved inwards. -/
theorem isChild_setLower (h : n.box.Finite k) (hfull : ∀ j < k, n.box.low j ≤ n.box.high j)
    (hdepth : n.depth + 1 < depthRange) (hi : i < k) (hlow : n.box.low i ≤ q)
    (hhigh : q ≤ n.box.high i) (id : ℕ) :
    IsChild k i (child n (n.box.setLower i (.point q)) id) n := by
  obtain ⟨hfinite, hbounds⟩ := h.setLower hi q
  -- the upper bounds stay, and one lower bound moves up to the cut
  refine ⟨rfl, Nat.mod_eq_of_lt hdepth, rfl, hfinite, fun j hj => ?_, fun j hj => ?_,
    fun j hj hij => ?_⟩ <;> obtain ⟨hlower, hupper⟩ := hbounds j
  · show (n.box.setLower i _).low j ≤ (n.box.setLower i _).high j
    rw [hlower, hupper]
    split
    · next heq => exact heq ▸ hhigh
    · exact hfull j hj
  · show n.box.low j ≤ (n.box.setLower i _).low j ∧ (n.box.setLower i _).high j ≤ n.box.high j
    rw [hlower, hupper]
    split
    · next heq => exact ⟨heq ▸ hlow, le_refl _⟩
    · exact ⟨le_refl _, le_refl _⟩
  · exact ⟨hlower.trans (if_neg hij.symm), hupper⟩

/-- The coordinate of a point that is in both parts of a box. -/
theorem coordinate_of_parts {x : List (Extended K)} (h : box.Finite k) (hi : i < k)
    (kind : VariableKind) (hbelow : (parts kind box i).1.Contains x)
    (habove : (parts kind box i).2.Contains x) :
    .point (kind.cutAbove (box.low i) (box.high i)) ≤ x.getD i 0
      ∧ x.getD i 0 ≤ .point (kind.cutBelow (box.low i) (box.high i)) := by
  obtain ⟨-, hcutBelow, hcutAbove, -⟩ := h.bounds_parts hi kind
  have hlength : i < x.length := by
    have hdimension := (hasDimension_parts h.dimension kind i).1
    rw [← hbelow.lower_length, (Box.hasDimension_iff.mp hdimension).1]
    exact hi
  rw [← hcutBelow, ← hcutAbove]
  exact ⟨habove.lower_le i hlength, hbelow.le_upper i hlength⟩

/-- The children of a node that is split in a dimension in which it has a width. -/
theorem divides_split (h : n.box.Finite b.vars.length) (hwhole : WholeBounds b.vars n.box)
    (hfull : ∀ j < b.vars.length, n.box.low j ≤ n.box.high j) (hdepth : n.depth + 1 < depthRange)
    (hv : b.vars[i]? = some v) (hwide : ¬ n.box.width i ≤ 0)
    (hsplit : b.split n i v.kind point = ((down, up), c)) :
    Divides b.vars n i v down.node up.node := by
  have hi := (List.getElem?_eq_some_iff.mp hv).1
  have hlt := (h.not_width_le_zero_iff hi).mp hwide
  obtain ⟨hdown, hup⟩ := split_nodes hsplit
  have hcoordinate := fun {x} => coordinate_of_parts (x := x) h hi v.kind
  have hparts := h.parts_eq hi v.kind
  -- the bounds of a discrete variable are whole, so that no cut leaves the box
  obtain ⟨hlowBelow, hbelowHigh, hlowAbove, haboveHigh⟩ :=
    v.kind.cuts_between hlt fun hdiscrete => by
      obtain ⟨hlow, hhigh⟩ := hwhole i v hv hdiscrete
      rw [h.lowerAt_eq hi] at hlow
      rw [h.upperAt_eq hi] at hhigh
      exact ⟨Extended.floor_eq_of_isWhole hlow, Extended.floor_eq_of_isWhole hhigh⟩
  have hboxes : down.node.box = (parts v.kind n.box i).1
      ∧ up.node.box = (parts v.kind n.box i).2 := by
    rw [hdown, hup]
    exact ⟨rfl, rfl⟩
  refine ⟨hlt, ?_, ?_, fun x hx hintegral => ?_, fun hdiscrete x hbelow habove => ?_,
    fun hcontinuous x hbelow habove => ?_⟩
  · rw [hdown, hparts]
    exact isChild_setUpper h hfull hdepth hi hlowBelow hbelowHigh _
  · rw [hup, hparts]
    exact isChild_setLower h hfull hdepth hi hlowAbove haboveHigh _
  · rw [hboxes.1, hboxes.2]
    have hlength : i < x.length := by
      rw [← hx.lower_length]
      exact (Box.hasDimension_iff.mp h.dimension).1 ▸ hi
    exact contains_parts v.kind hx hlength (hintegral i v hv)
  · rw [hboxes.1] at hbelow
    rw [hboxes.2] at habove
    obtain ⟨hge, hle⟩ := hcoordinate hbelow habove
    exact absurd (Extended.point_le_point.mp (Scalar.Ordered.le_trans hge hle))
      (not_le.mpr (VariableKind.cutBelow_lt_cutAbove hdiscrete))
  · rw [hboxes.1] at hbelow
    rw [hboxes.2] at habove
    obtain ⟨hge, hle⟩ := hcoordinate hbelow habove
    obtain ⟨hcutBelow, hcutAbove⟩ := VariableKind.cuts_of_continuous
      (Bool.eq_false_iff.mp hcontinuous) (n.box.low i) (n.box.high i)
    rw [hcutAbove] at hge
    rw [hcutBelow] at hle
    exact Extended.eq_of_same ⟨hle, hge⟩

/-! ## The outcomes -/

/-- The outcomes of branching a node under a size tolerance, each with the case it is for and the
brancher it leaves. The cases are told apart by the box of the node whose discrete bounds were moved
to whole numbers. -/
inductive Decides (b : Brancher (Extended K)) (parent : Node (Extended K))
    (objective tolerance : Extended K) : Branching → Brancher (Extended K) → Prop
  /-- The box is empty: the node is dropped. -/
  | empty {j : ℕ} (hj : j < b.vars.length)
      (h : (roundDiscrete b.vars parent.box).high j < (roundDiscrete b.vars parent.box).low j) :
      Decides b parent objective tolerance .dropped b
  /-- The box is a single point: the node is offered once more, as one that no split made. -/
  | single
      (h : ∀ j < b.vars.length,
        (roundDiscrete b.vars parent.box).low j = (roundDiscrete b.vars parent.box).high j) :
      Decides b parent objective tolerance .requeued
        (b.offer (b.toOpen { parent with box := roundDiscrete b.vars parent.box } .unsplit)).2
  /-- All relative widths are within the tolerance: the node is dropped. -/
  | small
      (hfull : ∀ j < b.vars.length,
        (roundDiscrete b.vars parent.box).low j ≤ (roundDiscrete b.vars parent.box).high j)
      (hwide : ∃ j < b.vars.length,
        (roundDiscrete b.vars parent.box).low j < (roundDiscrete b.vars parent.box).high j)
      (h : ∀ j w, b.vars[j]? = some w →
        relativeWidth w (roundDiscrete b.vars parent.box) j ≤ tolerance) :
      Decides b parent objective tolerance .dropped b
  /-- Some relative width is beyond it: the node is split in a dimension, and both children, which
  take the next two ids, are offered. -/
  | split {i : ℕ} {v : Variable (Extended K)} {down up : OpenNode (Extended K)}
      (hfull : ∀ j < b.vars.length,
        (roundDiscrete b.vars parent.box).low j ≤ (roundDiscrete b.vars parent.box).high j)
      (hbeyond : ∃ j w, b.vars[j]? = some w
        ∧ ¬ relativeWidth w (roundDiscrete b.vars parent.box) j ≤ tolerance)
      (hv : b.vars[i]? = some v)
      (hdivides : Divides b.vars (b.rounded parent objective) i v down.node up.node)
      (hdown : down.id = b.frontier.nextId) (hup : up.id = (b.frontier.nextId + 1) % wordRange)
      (hrank : down.selectionScore = b.selectionScore down.node
        ∧ up.selectionScore = b.selectionScore up.node) :
      Decides b parent objective tolerance (.split i down.id up.id)
        (({ b with frontier.nextId := ((b.frontier.nextId + 1) % wordRange + 1) % wordRange }.offer
          down).2.offer up).2

/-- Branching a node of finite bounds succeeds with the outcome that the case calls for. -/
theorem branch_decides (h : parent.box.Finite b.vars.length)
    (hdepth : parent.depth + 1 < depthRange) (hnonneg : 0 ≤ tolerance)
    (point : List (Extended K)) (objective : Extended K) :
    (∀ j w, b.vars[j]? = some w →
      (roundDiscrete b.vars parent.box).lowerAt j = .point
          (if w.kind.isDiscrete then (⌈parent.box.low j - 10 ^ (-9 : ℤ)⌉ : K) else parent.box.low j)
        ∧ (roundDiscrete b.vars parent.box).upperAt j = .point
          (if w.kind.isDiscrete then (⌊parent.box.high j + 10 ^ (-9 : ℤ)⌋ : K)
            else parent.box.high j))
      ∧ ∃ outcome c, b.branch parent point objective tolerance = (.ok outcome, c)
        ∧ b.Decides parent objective tolerance outcome c := by
  have hrounded : (roundDiscrete b.vars parent.box).Finite b.vars.length := h.roundDiscrete
  obtain ⟨hlower, hupper⟩ := Box.hasDimension_iff.mp h.dimension
  obtain ⟨outcome, c, hbranch⟩ := exists_branch_eq_ok
    (dimensionFault_eq_none hlower hupper) fun _ _ hbeyond => by
      obtain ⟨i, v, hi, hv, -⟩ := exists_choose_of_beyond hrounded hnonneg hbeyond point
      exact ⟨i, v, hi, hv⟩
  refine ⟨fun j w hw => h.bounds_roundDiscrete hw, outcome, c, hbranch, ?_⟩
  have hjustified := branch_justified hbranch
  -- the outcome tells which of the checks the node has failed, and so which case it is
  cases (branch_cases hbranch).2 with
  | dropped =>
    by_cases hfull : (roundDiscrete b.vars parent.box).isEmpty = false
    · obtain ⟨hpoint, hsmall⟩ := hjustified.resolve_left (by rw [hfull]; exact Bool.false_ne_true)
      have hordered := hrounded.isEmpty_iff.mp hfull
      refine .small hordered ?_ (isBelowTolerance_eq_true_iff.mp hsmall)
      by_contra hnone
      push Not at hnone
      rw [hrounded.isPoint_iff.mpr fun j hj => le_antisymm (hordered j hj) (hnone j hj)] at hpoint
      cases hpoint
    · rw [hrounded.isEmpty_iff] at hfull
      push Not at hfull
      obtain ⟨j, hj, hlt⟩ := hfull
      exact .empty hj hlt
  | requeued hpoint => exact .single (hrounded.isPoint_iff.mp hpoint)
  | @split i v hv down up d hsplit =>
    obtain ⟨hfull, hbeyond, hchoose⟩ := hjustified
    obtain ⟨-, -, hwide⟩ := width_of_choose hchoose
    have hordered := hrounded.isEmpty_iff.mp hfull
    obtain ⟨hdown, hup⟩ := split_nodes hsplit
    have hdivides := divides_split (n := b.rounded parent objective) hrounded
      h.wholeBounds_roundDiscrete hordered hdepth hv hwide hsplit
    obtain rfl := split_brancher hsplit
    refine .split hordered ?_ hv hdivides ?_ ?_ ?_
    · by_contra hnone
      push Not at hnone
      rw [isBelowTolerance_eq_true_iff.mpr hnone] at hbeyond
      cases hbeyond
    · rw [OpenNode.id, hdown]
      rfl
    · rw [OpenNode.id, hup]
      rfl
    · cases hsplit
      exact ⟨rfl, rfl⟩

/-- A brancher over a discrete and a continuous variable. -/
def mixedBrancher : Brancher (Extended ℚ) where
  vars := [⟨0, .point 5, .integer, 1, "n"⟩, ⟨0, 1, .continuous, 1, "t"⟩]
  frontier := .new .bestBound
  pseudocosts := .new 2
  waiting := []
  rule := .pseudocost
  scoring := .lowBoundFirst

/-- A node whose discrete bounds are not whole. -/
def mixedNode : Node (Extended ℚ) :=
  ⟨.point (-3), ⟨[.point (1 / 2), 0], [.point (7 / 2), 1]⟩, none, 0, 4, false⟩

/-- The node is split in its discrete variable, between two and three. -/
theorem branch_decides_mixedNode :
    mixedNode.box.Finite mixedBrancher.vars.length ∧ mixedNode.depth + 1 < depthRange
      ∧ (0 : Extended ℚ) ≤ .point (1 / 10)
      ∧ ∃ outcome c, mixedBrancher.branch mixedNode [] (.point (-2)) (.point (1 / 10))
          = (.ok outcome, c)
        ∧ mixedBrancher.Decides mixedNode (.point (-2)) (.point (1 / 10)) outcome c
        ∧ outcome = .split 0 1 2 := by
  have hbox : mixedNode.box.Finite mixedBrancher.vars.length := by
    refine ⟨rfl, fun i hi => ?_, fun i hi => ?_⟩ <;>
      · change i < 2 at hi
        interval_cases i <;> rfl
  have hdepth : mixedNode.depth + 1 < depthRange := by decide
  have hnonneg : (0 : Extended ℚ) ≤ .point (1 / 10) := by decide +kernel
  have hsplit : (mixedBrancher.branch mixedNode [] (.point (-2)) (.point (1 / 10))).1.toOption
      = some (.split 0 1 2) := by decide +kernel
  obtain ⟨-, outcome, c, hbranch, hdecides⟩ :=
    branch_decides hbox hdepth hnonneg [] (.point (-2))
  rw [hbranch] at hsplit
  exact ⟨hbox, hdepth, hnonneg, outcome, c, hbranch, hdecides, Option.some.inj hsplit⟩

end BranchBound.Brancher
