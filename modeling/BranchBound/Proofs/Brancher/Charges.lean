import BranchBound.Proofs.Box.Grid
import BranchBound.Proofs.Brancher.Ledger
import BranchBound.Proofs.Search.Balance
import BranchBound.Proofs.Search.StrongBranching

/-! # What nodes pay for

If all variables are discrete, every split shares the whole points of a node between two nodes that
get some each, and a node that is a single point is queued once more at most. So a node that holds
`n` whole points can pay for processing `3 * n - 1` nodes, itself and all that come of it.

* **`Variable.Moderate`**, **`Variable.IsGrid`** — discrete variables whose bounds are not far from
  zero, and those in standard form.
* **`Node.charge`** — for how many nodes an open node pays.
* **`Brancher.exists_branch`** — branching part of a grid succeeds.
* **`Brancher.charge_opened`** — a node pays for itself and for the nodes that come of branching
  it. -/

namespace BranchBound

variable {σ α : Type} [Scalar α]

/-! ## Variables over whole numbers -/

/-- A discrete variable whose bounds are not far from zero. -/
structure Variable.Moderate (v : Variable α) : Prop where
  /-- The variable takes whole numbers. -/
  isDiscrete : v.kind.isDiscrete = true
  /-- Its least value is not far from zero. -/
  le_lower : -Scalar.ofNat Scalar.wholeRange ≤ v.lower
  /-- Neither is its greatest value. -/
  upper_le : v.upper ≤ Scalar.ofNat Scalar.wholeRange

/-- A discrete variable whose bounds are whole numbers in order. -/
structure Variable.IsGrid (v : Variable α) : Prop where
  /-- The variable takes whole numbers. -/
  isDiscrete : v.kind.isDiscrete = true
  /-- Its bounds are whole numbers in order. -/
  bounds : ∃ m n, m ≤ n ∧ Scalar.Stands v.lower m ∧ Scalar.Stands v.upper n

variable [Scalar.Discrete α]

namespace Variable

variable {u v : Variable α} {lower upper : α} {kind : VariableKind}

/-- Bounds that are not far from zero, moved to the values of a discrete kind. -/
theorem stands_inward (hkind : kind.isDiscrete = true) (hlower : Scalar.Near lower)
    (hupper : Scalar.Near upper) :
    (∃ m, Scalar.Stands (inward kind lower upper).1 m)
      ∧ ∃ n, Scalar.Stands (inward kind lower upper).2 n := by
  cases kind with
  | continuous => cases hkind
  | integer => exact ⟨hlower.ceil, hupper.floor⟩
  | binary =>
    -- the bounds are cut to zero and one first, which are not far from zero either
    have hzero : Scalar.Stands (0 : α) 0 := ⟨by decide, Scalar.Discrete.same_zero⟩
    have hone : Scalar.Stands (1 : α) 1 := ⟨by decide, Scalar.Discrete.same_one⟩
    have hgreatest : Scalar.Near (Scalar.greatest lower 0) := by
      rcases Scalar.greatest_eq_or lower 0 with heq | heq <;> rw [heq]
      · exact hlower
      · exact hzero.near
    have hleast : Scalar.Near (Scalar.least upper 1) := by
      rcases Scalar.least_eq_or upper 1 with heq | heq <;> rw [heq]
      · exact hupper
      · exact hone.near
    exact ⟨hgreatest.ceil, hleast.floor⟩

/-- In standard form, a discrete variable whose bounds are not far from zero has whole bounds. -/
theorem Moderate.isGrid (h : u.Moderate) (hvalid : u.validated = .ok v) : v.IsGrid := by
  unfold validated at hvalid
  split at hvalid
  · cases hvalid
  · split at hvalid
    · cases hvalid
    · next hordered =>
      split at hvalid
      · cases hvalid
      · dsimp only at hvalid
        split at hvalid
        · cases hvalid
        · next hsome =>
          cases hvalid
          -- only the bounds that pass every check are left
          have hle : u.lower ≤ u.upper :=
            Scalar.le_of_not_lt (Scalar.Ordered.isNaN_left_of_le h.upper_le)
              (Scalar.Ordered.isNaN_right_of_le h.le_lower) hordered
          obtain ⟨⟨m, hm⟩, n, hn⟩ := stands_inward h.isDiscrete
            ⟨h.le_lower, Scalar.Ordered.le_trans hle h.upper_le⟩
            ⟨Scalar.Ordered.le_trans h.le_lower hle, h.upper_le⟩
          refine ⟨h.isDiscrete, m, n, ?_, hm, hn⟩
          -- were the whole bounds out of order, the check of the domain would have failed
          by_contra hnm
          refine hsome (Scalar.Ordered.lt_iff_le_not_ge.mpr ⟨?_, ?_⟩)
          · exact (hn.le_iff hm).mpr (by omega)
          · exact fun hge => hnm ((hm.le_iff hn).mp hge)

/-- The root of variables with whole bounds is a grid. -/
theorem isGrid_root {vars : List (Variable α)} (h : ∀ v ∈ vars, v.IsGrid) :
    (Node.root vars).box.IsGrid vars := by
  refine ⟨Box.hasDimension_iff.mpr ⟨List.length_map _, List.length_map _⟩, fun i v hv => ?_⟩
  obtain ⟨m, n, hmn, hm, hn⟩ := (h v (List.mem_of_getElem? hv)).bounds
  rw [(Box.bounds_root hv).1, (Box.bounds_root hv).2]
  exact ⟨m, n, hmn, hm, hn, Scalar.Ordered.le_refl hm.same.isNaN,
    Scalar.Ordered.le_refl hn.same.isNaN⟩

end Variable

/-! ## Branching -/

/-- How many nodes an open node pays for: itself and those that may come of it. -/
noncomputable def Node.charge (requeued : List Nat) (n : Node α) : Nat :=
  if n.box.isPoint = true ∧ n.id ∈ requeued then 1 else 3 * n.box.wholePoints.ncard - 1

/-- Only the bounds of a node differ, and no bound was moved outwards. -/
structure Node.Shrunk (m n : Node α) : Prop where
  /-- The id is the same. -/
  id : m.id = n.id
  /-- So is the depth. -/
  depth : m.depth = n.depth
  /-- So is the score. -/
  score : m.score = n.score
  /-- No bound was moved outwards. -/
  box : m.box.Shrunk n.box

section Charges

variable {n : Node α} {vars : List (Variable α)} {requeued noted : List Nat}

/-- A node pays for no more than its whole points. -/
theorem Node.charge_le (requeued : List Nat) (h : n.box.IsGrid vars) :
    n.charge requeued ≤ 3 * n.box.wholePoints.ncard - 1 := by
  have hpos := h.ncard_pos
  unfold Node.charge
  split <;> omega

/-- A node pays for itself at least. -/
theorem Node.charge_pos (h : n.box.IsGrid vars) : 0 < n.charge requeued := by
  have hpos := h.ncard_pos
  unfold Node.charge
  split <;> omega

/-- A node pays for no more once further ids are noted. -/
theorem Node.charge_anti (h : n.box.IsGrid vars) (hnoted : requeued ⊆ noted) :
    n.charge noted ≤ n.charge requeued := by
  by_cases honce : n.box.isPoint = true ∧ n.id ∈ requeued
  · unfold Node.charge
    rw [if_pos honce, if_pos ⟨honce.1, hnoted honce.2⟩]
  · have hcharge : n.charge requeued = 3 * n.box.wholePoints.ncard - 1 := if_neg honce
    rw [hcharge]
    exact n.charge_le noted h

end Charges

namespace Brancher

variable {b c : Brancher α} {parent n : Node α} {point : List α} {objective tolerance : α}
  {outcome : Branching} {box : Box α}

omit [Scalar.Discrete α] in
/-- The dimension to split is one of those that can be split, if there are any. -/
theorem exists_choose (h : b.candidates box point ≠ []) :
    ∃ found ∈ b.candidates box point, b.choose box point = some found.1 := by
  have hnext : ∀ best found : Nat × α, better b.rule box point (some best) found = some best
      ∨ better b.rule box point (some best) found = some found := by
    intro best found
    unfold better
    dsimp only
    split
    · exact .inr rfl
    · exact .inl rfl
  obtain ⟨found, hmem, hfold⟩ := exists_foldl_eq_some (fun _ => rfl) hnext h
  refine ⟨found, hmem, ?_⟩
  rw [choose, hfold]
  rfl

omit [Scalar.Discrete α] in
/-- The dimensions that can be split are those with a score. -/
theorem mem_candidates_iff_score {found : Nat × α} : found ∈ b.candidates box point ↔
    ∃ v, b.vars[found.1]? = some v ∧ b.dimensionScore? box point found.1 v = some found.2 := by
  unfold candidates
  rw [List.mem_filterMap]
  constructor
  · rintro ⟨⟨v, i⟩, hmem, hfound⟩
    obtain ⟨score, hscore, rfl⟩ := Option.map_eq_some_iff.mp hfound
    exact ⟨v, List.mem_zipIdx_iff_getElem?.mp hmem, hscore⟩
  · rintro ⟨v, hv, hscore⟩
    exact ⟨(v, found.1), List.mem_zipIdx_iff_getElem?.mpr hv,
      Option.map_eq_some_iff.mpr ⟨_, hscore, rfl⟩⟩

omit [Scalar.Discrete α] in
/-- A dimension with a score is wide enough to be split. -/
theorem mem_candidates {found : Nat × α} (h : found ∈ b.candidates box point) :
    ∃ v, b.vars[found.1]? = some v ∧ ¬ box.width found.1 ≤ 0 := by
  obtain ⟨v, hv, hscore⟩ := mem_candidates_iff_score.mp h
  refine ⟨v, hv, fun hnarrow => ?_⟩
  unfold dimensionScore? at hscore
  dsimp only at hscore
  rw [if_pos hnarrow] at hscore
  cases hscore

omit [Scalar.Discrete α] in
/-- A dimension that is chosen is one of the variables and wide enough. -/
theorem width_of_choose {i : Nat} (h : b.choose box point = some i) :
    ∃ v, b.vars[i]? = some v ∧ ¬ box.width i ≤ 0 := by
  have hnonempty : b.candidates box point ≠ [] := by
    intro hnone
    rw [choose, hnone] at h
    cases h
  obtain ⟨found, hmem, hfound⟩ := exists_choose hnonempty
  cases h.symm.trans hfound
  exact mem_candidates hmem

omit [Scalar.Discrete α] in
/-- The dimension that is chosen is found by going through those that can be split. -/
theorem exists_kept_of_choose {i : Nat} (h : b.choose box point = some i) :
    ∃ best rest kept, b.candidates box point = best :: rest ∧ kept.1 = i
      ∧ rest.foldl (better b.rule box point) (some best) = some kept := by
  obtain ⟨kept, hkept, rfl⟩ := Option.map_eq_some_iff.mp h
  cases hlist : b.candidates box point with
  | nil =>
    rw [hlist] at hkept
    cases hkept
  | cons best rest =>
    rw [hlist] at hkept
    exact ⟨best, rest, kept, rfl, rfl, hkept⟩

omit [Scalar.Discrete α] in
/-- A dimension is scored if neither the box nor the domain is too narrow. -/
theorem candidates_ne_nil (point : List α) {i : Nat} {v : Variable α} (hv : b.vars[i]? = some v)
    (hbox : ¬ box.width i ≤ 0) (hdomain : ¬ v.width ≤ 0) : b.candidates box point ≠ [] := by
  have hscore : ∃ score, b.dimensionScore? box point i v = some score := by
    unfold dimensionScore?
    dsimp only
    rw [if_neg hbox]
    split
    · exact ⟨_, rfl⟩
    · exact ⟨_, rfl⟩
    · rw [if_neg hdomain]
      exact ⟨_, rfl⟩
  obtain ⟨score, hscore⟩ := hscore
  exact List.ne_nil_of_mem (mem_candidates_iff_score.mpr
    (show ∃ w, b.vars[(i, score).1]? = some w ∧ _ from ⟨v, hv, hscore⟩))

/-- A grid that is not a single point is split in some dimension that is wide enough. -/
theorem exists_choose_grid (hvars : ∀ v ∈ b.vars, v.IsGrid) (h : box.IsGrid b.vars)
    (hpoint : box.isPoint = false) (point : List α) :
    ∃ i v, b.choose box point = some i ∧ b.vars[i]? = some v ∧ ¬ box.width i ≤ 0 := by
  obtain ⟨i, v, hv, hwide⟩ := h.exists_wide hpoint
  obtain ⟨m, n, -, hm, hn, hlower, hupper⟩ := h.bounds i v hv
  obtain ⟨p, q, -, hp, hq⟩ := (hvars v (List.mem_of_getElem? hv)).bounds
  -- one rule passes over narrow domains, but the domain is as wide as the box at least
  have hdomain : ¬ v.width ≤ 0 := by
    intro hnarrow
    have hqp := (Scalar.Discrete.sub_nonpos_iff hp hq).mp hnarrow
    have hpm := (hp.le_iff hm).mp hlower
    have hnq := (hn.le_iff hq).mp hupper
    exact hwide ((Scalar.Discrete.sub_nonpos_iff hm hn).mpr (hnq.trans (hqp.trans hpm)))
  obtain ⟨found, hmem, hchoose⟩ :=
    exists_choose (candidates_ne_nil point hv hwide hdomain)
  obtain ⟨w, hw, hfound⟩ := mem_candidates hmem
  exact ⟨found.1, w, hchoose, hw, hfound⟩

/-- Branching part of a grid succeeds. Unless it is dropped it has a whole point, and it is split in
a dimension that is wide enough. -/
theorem exists_branch (hvars : ∀ v ∈ b.vars, v.IsGrid) (hn : n.box.IsGrid b.vars)
    (hparent : parent.box.Shrunk n.box) (hfull : parent.box.isEmpty = false) (point : List α)
    (objective tolerance : α) :
    ∃ outcome c, b.branch parent point objective tolerance = (.ok outcome, c)
      ∧ (outcome ≠ .dropped → (roundDiscrete b.vars parent.box).isEmpty = false)
      ∧ ∀ i down up, outcome = .split i down up →
        ¬ (roundDiscrete b.vars parent.box).width i ≤ 0 := by
  obtain ⟨hlower, hupper⟩ := Box.hasDimension_iff.mp hn.dimension
  have hdim : b.dimensionFault? parent = none :=
    dimensionFault_eq_none (hparent.lower_length.trans hlower) (hparent.upper_length.trans hupper)
  obtain ⟨outcome, c, hbranch⟩ := exists_branch_eq_ok hdim fun hrounded hpoint _ => by
    -- some dimension is wide enough, so the choice does not fail
    obtain ⟨hgrid, -⟩ := grid_roundDiscrete hn (fun v hv => (hvars v hv).isDiscrete) hparent
      hfull hrounded
    obtain ⟨i, v, hchoose, hv, -⟩ := exists_choose_grid hvars hgrid hpoint point
    exact ⟨i, v, hchoose, hv⟩
  have hjustified := branch_justified hbranch
  refine ⟨outcome, c, hbranch, fun hkept => ?_, ?_⟩
  · cases outcome with
    | dropped => exact absurd rfl hkept
    | requeued => exact hjustified.1
    | split => exact hjustified.1
  · rintro i down up rfl
    obtain ⟨-, -, hchoose⟩ := hjustified
    obtain ⟨-, -, hwide⟩ := width_of_choose hchoose
    exact hwide

/-- Nodes over the two parts of a grid are grids, and three nodes for each whole point, less one,
pay for them and for one node more. -/
theorem charge_parts {vars : List (Variable α)} {box : Box α} (h : box.IsGrid vars) {i : Nat}
    {v : Variable α} (hv : vars[i]? = some v) (hkind : v.kind.isDiscrete = true)
    (hwide : ¬ box.width i ≤ 0) (down up : Node α) (hdown : down.box = (parts v.kind box i).1)
    (hup : up.box = (parts v.kind box i).2) (requeued : List Nat) :
    down.box.IsGrid vars ∧ up.box.IsGrid vars
      ∧ 1 + (down.charge requeued + up.charge requeued) ≤ 3 * box.wholePoints.ncard - 1 := by
  obtain ⟨hdownGrid, hupGrid, hshared⟩ := grid_parts h hv hkind hwide
  rw [← hdown] at hdownGrid hshared
  rw [← hup] at hupGrid hshared
  have hdownCharge := down.charge_le requeued hdownGrid
  have hupCharge := up.charge_le requeued hupGrid
  -- neither part is without a whole point, so less one is taken off twice
  have hdownPos := hdownGrid.ncard_pos
  have hupPos := hupGrid.ncard_pos
  exact ⟨hdownGrid, hupGrid, by omega⟩

/-- The nodes that come of branching part of a grid are grids, and the node pays for them and for
itself. -/
theorem charge_opened (hvars : ∀ v ∈ b.vars, v.IsGrid) (hn : n.box.IsGrid b.vars)
    (hid : parent.id = n.id) (hparent : parent.box.Shrunk n.box)
    (hfull : parent.box.isEmpty = false) {requeued : List Nat}
    (honce : ¬ (parent.box.isPoint = true ∧ parent.id ∈ requeued))
    (h : Branched b parent point objective outcome c)
    (hrounded : outcome ≠ .dropped → (roundDiscrete b.vars parent.box).isEmpty = false)
    (hwide : ∀ i down up, outcome = .split i down up →
      ¬ (roundDiscrete b.vars parent.box).width i ≤ 0) :
    (∀ m ∈ b.opened parent objective outcome, m.box.IsGrid b.vars)
      ∧ 1 + ((b.opened parent objective outcome).map
        (Node.charge (outcome.noted parent.id requeued))).sum ≤ n.charge requeued := by
  -- had the node been a single point noted before, its tightened box would be one as well
  have hcharge : n.charge requeued = 3 * n.box.wholePoints.ncard - 1 := by
    refine if_neg fun htwice => honce ?_
    exact ⟨hparent.isPoint hn hfull htwice.1, hid ▸ htwice.2⟩
  have hpos := hn.ncard_pos
  have hgrid := fun hout => grid_roundDiscrete hn (fun v hv => (hvars v hv).isDiscrete) hparent
    hfull (hrounded hout)
  rw [hcharge]
  cases h with
  | dropped =>
    refine ⟨fun m hm => absurd hm (Multiset.notMem_zero m), ?_⟩
    show 1 + 0 ≤ _
    omega
  | requeued hpoint =>
    obtain ⟨hwhole, -⟩ := hgrid nofun
    refine ⟨fun m hm => ?_, ?_⟩
    · rw [Multiset.mem_singleton.mp hm]
      exact hwhole
    · -- the node is noted when it is queued again, which leaves it a charge of one
      show 1 + ({Node.charge (parent.id :: requeued) _} : Multiset Nat).sum ≤ _
      rw [Multiset.sum_singleton, Node.charge, if_pos ⟨hpoint, List.mem_cons_self⟩]
      omega
  | @split i v hv down up d hsplit =>
    obtain ⟨hwhole, hsubset⟩ := hgrid nofun
    have hfewer := Set.ncard_le_ncard hsubset n.box.finite_wholePoints
    obtain ⟨hdown, hup, hpay⟩ := charge_parts hwhole hv
      (hvars v (List.mem_of_getElem? hv)).isDiscrete (hwide i _ _ rfl)
      (child (b.rounded parent objective) (parts v.kind (b.rounded parent objective).box i).1
        down.id)
      (child (b.rounded parent objective) (parts v.kind (b.rounded parent objective).box i).2
        up.id)
      rfl rfl requeued
    rw [opened, hv]
    dsimp only [Option.elim_some]
    refine ⟨fun m hm => ?_, ?_⟩
    · rcases Multiset.mem_cons.mp hm with rfl | hm
      · exact hdown
      · rw [Multiset.mem_singleton.mp hm]
        exact hup
    · rw [Multiset.insert_eq_cons, Multiset.map_cons, Multiset.map_singleton, Multiset.sum_cons,
        Multiset.sum_singleton]
      exact hpay.trans (Nat.sub_le_sub_right (Nat.mul_le_mul_left 3 hfewer) 1)

omit [Scalar.Discrete α] in
/-- Branching opens no further nodes, and the new ones come out of splits in dimensions that there
are. -/
theorem Branched.members_le [Scalar.Ordered α] (h : Branched b parent point objective outcome c)
    (hb : b.frontier.Consistent) :
    ∃ new : Multiset (OpenNode α), c.frontier.members ≤ new + b.frontier.members
      ∧ new.map OpenNode.node = b.opened parent objective outcome
      ∧ ∀ m ∈ new, m.history.Known b.vars.length := by
  cases h with
  | dropped => exact ⟨0, le_of_eq (Multiset.zero_add _).symm, rfl, fun m hm =>
      absurd hm (Multiset.notMem_zero m)⟩
  | requeued hpoint =>
    refine ⟨{b.toOpen { parent with box := roundDiscrete b.vars parent.box } .unsplit}, ?_, rfl,
      fun m hm => ?_⟩
    · rw [Multiset.singleton_add]
      exact hb.members_insert_le _
    · rw [Multiset.mem_singleton.mp hm]
      exact nofun
  | @split i v hv down up d hsplit =>
    have hd := split_consistent hsplit hb
    obtain ⟨hdown, hup⟩ := split_nodes hsplit
    obtain ⟨hdownKnown, hupKnown⟩ :=
      split_histories hsplit (List.getElem?_eq_some_iff.mp hv).1
    -- to split a node changes the next id of the frontier, and no node of it
    have hmembers : d.frontier.members = b.frontier.members := by
      rw [split_brancher hsplit]
      rfl
    refine ⟨{down, up}, ?_, ?_, fun m hm => ?_⟩
    · rw [offer_frontier, offer_frontier, ← hmembers, Multiset.insert_eq_cons, Multiset.cons_add,
        Multiset.singleton_add, Multiset.cons_swap]
      exact ((hd.insert down).members_insert_le up).trans
        (Multiset.cons_le_cons _ (hd.members_insert_le down))
    · rw [opened, hv, OpenNode.id, OpenNode.id, Multiset.insert_eq_cons, Multiset.map_cons,
        Multiset.map_singleton, hdown, hup]
      rfl
    · rcases Multiset.mem_cons.mp hm with rfl | hm
      · exact hdownKnown
      · rw [Multiset.mem_singleton.mp hm]
        exact hupKnown

end Brancher

end BranchBound
