import BranchBound.Proofs.Box.Points
import BranchBound.Proofs.Frontier.Arena
import Mathlib.Data.Multiset.MapFold

/-! # The nodes of a frontier and the points they hold

The open nodes as a multiset, and how the operations of a frontier change it. A frontier holds a
point if an open node does, under a score that is a bound on the point, or if the score of a refused
node is a bound on it; no operation loses a point without telling.

* **`Frontier.nodes`** — the open nodes.
* **`Problem`**, **`Node.Guards`** — what a search is about, and when a node holds a point of it.
* **`Frontier.Holds`** — the frontier holds a point; `Holds.insert`, `Holds.pop` and
  `Holds.lowerThreshold` say what becomes of it. -/

namespace BranchBound

variable {α : Type} [Scalar α]

/-! ## Open nodes -/

namespace Frontier

/-- The open nodes. -/
def nodes (f : Frontier α) : Multiset (Node α) := ↑(f.toList.map OpenNode.node)

variable {f g : Frontier α} {n : OpenNode α}

omit [Scalar α] in
/-- A node is open if the frontier lists it. -/
theorem mem_nodes {m : Node α} : m ∈ f.nodes ↔ ∃ n ∈ f.toList, n.node = m := by
  rw [nodes, Multiset.mem_coe, List.mem_map]

omit [Scalar α] in
/-- Frontiers that list the same nodes have the same nodes open. -/
theorem nodes_of_perm (h : f.toList.Perm g.toList) : f.nodes = g.nodes := by
  rw [nodes, nodes, Multiset.coe_eq_coe]
  exact h.map _

/-- The size of a frontier is the number of its open nodes. -/
theorem Consistent.card_nodes (h : f.Consistent) : f.nodes.card = f.size := by
  rw [nodes, Multiset.coe_card, List.length_map, h.size_eq_length]

/-- Offering a node opens no other one. -/
theorem Consistent.nodes_insert_le (h : f.Consistent) (n : OpenNode α) :
    (f.insert n).2.nodes ≤ n.node ::ₘ f.nodes := by
  cases hdom : f.dominates n.score with
  | true =>
    rw [insert_of_dominates hdom]
    exact Multiset.le_cons_self f.nodes n.node
  | false =>
    rw [insert_of_not_dominates hdom, nodes, nodes, Multiset.cons_coe, ← List.map_cons]
    exact le_of_eq (Multiset.coe_eq_coe.mpr ((h.toList_place n).map _))

/-- Offering a node keeps a frontier consistent. -/
theorem Consistent.insert [Scalar.Ordered α] (h : f.Consistent) (n : OpenNode α) :
    (f.insert n).2.Consistent := by
  cases hdom : f.dominates n.score with
  | true =>
    rw [insert_of_dominates hdom]
    exact h.of_eq rfl rfl rfl rfl
  | false =>
    rw [insert_of_not_dominates hdom]
    exact h.place n

/-- Offering a node gives out no id. -/
@[simp] theorem nextId_insert (f : Frontier α) (n : OpenNode α) :
    (f.insert n).2.nextId = f.nextId := by
  unfold insert
  split <;> rfl

/-- Offering a node closes no other one. -/
theorem Consistent.mem_nodes_insert (h : f.Consistent) (n : OpenNode α) {m : Node α}
    (hm : m ∈ f.nodes) : m ∈ (f.insert n).2.nodes := by
  cases hdom : f.dominates n.score with
  | true =>
    rw [insert_of_dominates hdom]
    exact hm
  | false =>
    rw [insert_of_not_dominates hdom]
    obtain ⟨k, hk, rfl⟩ := mem_nodes.mp hm
    exact mem_nodes.mpr
      ⟨k, (h.toList_place n).mem_iff.mpr (List.mem_cons_of_mem _ hk), rfl⟩

/-- A node that is offered is open afterwards, or its score is among those of the refused nodes. -/
theorem Consistent.mem_or_refused_insert [Scalar.Ordered α] (h : f.Consistent) (n : OpenNode α) :
    n.node ∈ (f.insert n).2.nodes ∨ (f.insert n).2.lowestRefused ≤ n.score := by
  cases hdom : f.dominates n.score with
  | true =>
    rw [insert_of_dominates hdom]
    exact .inr (Scalar.least_le_right (Scalar.Ordered.isNaN_right_of_le (of_decide_eq_true hdom)))
  | false =>
    rw [insert_of_not_dominates hdom]
    exact .inl (mem_nodes.mpr ⟨n, (h.toList_place n).mem_iff.mpr List.mem_cons_self, rfl⟩)

/-- Offering a node does not raise the lowest score of the refused nodes. -/
theorem lowestRefused_insert_le [Scalar.Ordered α] (f : Frontier α) (n : OpenNode α) {y : α}
    (h : f.lowestRefused ≤ y) : (f.insert n).2.lowestRefused ≤ y := by
  cases hdom : f.dominates n.score with
  | true =>
    rw [insert_of_dominates hdom]
    exact Scalar.least_le_of_left h
  | false =>
    rw [insert_of_not_dominates hdom]
    exact h

/-- Offering a node does not raise the lowest score of the open nodes. -/
theorem Consistent.lowestScore_insert_le [Scalar.Ordered α] (h : f.Consistent) (n : OpenNode α)
    {y : α} (hy : f.lowestScore ≤ y) : (f.insert n).2.lowestScore ≤ y := by
  have hlowest := (f.insert n).2.isLowest_lowestScore
  rcases f.isLowest_lowestScore.attained with ⟨k, hk, heq⟩ | ⟨heq, -⟩
  · obtain ⟨m, hm, hmk⟩ := mem_nodes.mp (h.mem_nodes_insert n (mem_nodes.mpr ⟨k, hk, rfl⟩))
    rw [← heq] at hy
    have hscore : m.score = k.score := congrArg Node.score hmk
    exact Scalar.Ordered.le_trans
      (hlowest.le _ ⟨m, hm, hscore⟩ (Scalar.Ordered.isNaN_left_of_le hy)) hy
  · rw [heq] at hy
    exact Scalar.Ordered.le_trans (Scalar.Ordered.le_infinity hlowest.defined) hy

/-- The node that is taken out was open. -/
theorem Consistent.nodes_pop (h : f.Consistent) (hpop : f.pop? = some (n, g)) :
    f.nodes = n.node ::ₘ g.nodes := by
  rw [nodes, nodes, Multiset.cons_coe, ← List.map_cons]
  exact Multiset.coe_eq_coe.mpr ((h.toList_pop hpop).map _)

/-- The node that is taken out and the open nodes that are left have the lowest score that the open
nodes had. -/
theorem Consistent.least_pop_le [Scalar.Ordered α] (h : f.Consistent)
    (hpop : f.pop? = some (n, g)) : Scalar.least g.lowestScore n.score ≤ f.lowestScore := by
  have hafter := g.isLowest_lowestScore.insert n.score
  have hset : Insert.insert n.score {x | ∃ m ∈ g.toList, m.score = x}
      = {x | ∃ m ∈ f.toList, m.score = x} := by
    ext x
    simp [(h.toList_pop hpop).mem_iff, eq_comm]
  rw [hset] at hafter
  exact hafter.unique f.isLowest_lowestScore

/-- Lowering the threshold opens no node. -/
theorem Consistent.nodes_lowerThreshold_le (h : f.Consistent) (threshold : α) :
    (f.lowerThreshold threshold).2.nodes ≤ f.nodes := by
  by_cases hignored : Scalar.isNaN threshold = true ∨ f.threshold < threshold
  · rw [lowerThreshold_of_ignored hignored]
  · rw [lowerThreshold_of_not_ignored hignored, nodes, nodes]
    refine le_trans (le_of_eq (Multiset.coe_eq_coe.mpr ((h.toList_fathomFrom threshold).map _))) ?_
    exact Multiset.coe_le.mpr (List.filter_sublist.map OpenNode.node).subperm

/-- Lowering the threshold keeps a frontier consistent. -/
theorem Consistent.lowerThreshold [Scalar.Ordered α] (h : f.Consistent) (threshold : α) :
    (f.lowerThreshold threshold).2.Consistent := by
  by_cases hignored : Scalar.isNaN threshold = true ∨ f.threshold < threshold
  · rw [lowerThreshold_of_ignored hignored]
    exact h
  · rw [lowerThreshold_of_not_ignored hignored]
    exact h.fathomFrom threshold

/-- Lowering the threshold counts the nodes that it closes. -/
theorem Consistent.size_lowerThreshold [Scalar.Ordered α] (h : f.Consistent) (threshold : α) :
    (f.lowerThreshold threshold).2.fathomed - f.fathomed + (f.lowerThreshold threshold).2.size
      = f.size := by
  by_cases hignored : Scalar.isNaN threshold = true ∨ f.threshold < threshold
  · rw [lowerThreshold_of_ignored hignored, Nat.sub_self, Nat.zero_add]
  · rw [lowerThreshold_of_not_ignored hignored]
    show (f.fathomFrom threshold).fathomed - f.fathomed + (f.fathomFrom threshold).size = f.size
    rw [h.fathomed_fathomFrom, Nat.add_sub_cancel_left, (h.fathomFrom threshold).size_eq_length,
      (h.toList_fathomFrom threshold).length_eq, h.size_eq_length]
    exact (List.length_eq_length_filter_add _).symm

/-- Lowering the threshold gives out no id. -/
@[simp] theorem nextId_lowerThreshold (f : Frontier α) (threshold : α) :
    (f.lowerThreshold threshold).2.nextId = f.nextId := by
  unfold lowerThreshold
  split <;> rfl

/-- Lowering the threshold raises the lowest score of the open nodes only past that of the fathomed
ones, which it answers. -/
theorem Consistent.lowest_lowerThreshold [Scalar.Ordered α] (h : f.Consistent) (threshold : α)
    {y : α} (hy : f.lowestScore ≤ y) :
    (f.lowerThreshold threshold).1 ≤ y ∨ (f.lowerThreshold threshold).2.lowestScore ≤ y := by
  by_cases hignored : Scalar.isNaN threshold = true ∨ f.threshold < threshold
  · rw [lowerThreshold_of_ignored hignored]
    exact .inr hy
  · rw [lowerThreshold_of_not_ignored hignored]
    have hlowest := (f.fathomFrom threshold).isLowest_lowestScore
    rcases f.isLowest_lowestScore.attained with ⟨n, hn, heq⟩ | ⟨heq, -⟩
    · rw [← heq] at hy
      have hdef := Scalar.Ordered.isNaN_left_of_le hy
      -- the node of the lowest score is fathomed or stays open
      cases hdom : (f.withThreshold threshold).dominates n.score with
      | true =>
        have hlow := (h.isLowest_fathomFrom threshold).le n.score ⟨n, hn, hdom, rfl⟩ hdef
        exact .inl (Scalar.Ordered.le_trans hlow hy)
      | false =>
        have hmem := (h.toList_fathomFrom threshold).mem_iff.mpr
          (List.mem_filter.mpr ⟨hn, by rw [hdom]; rfl⟩)
        exact .inr (Scalar.Ordered.le_trans (hlowest.le n.score ⟨n, hmem, rfl⟩ hdef) hy)
    · rw [heq] at hy
      exact .inr (Scalar.Ordered.le_trans (Scalar.Ordered.le_infinity hlowest.defined) hy)

/-- Lowering the threshold refuses no node. -/
@[simp] theorem lowestRefused_lowerThreshold (f : Frontier α) (threshold : α) :
    (f.lowerThreshold threshold).2.lowestRefused = f.lowestRefused := by
  unfold lowerThreshold
  split <;> rfl

/-- Changing the selection gives out no id. -/
@[simp] theorem nextId_setSelection (f : Frontier α) (selection : NodeSelection) :
    (f.setSelection selection).nextId = f.nextId := by
  unfold setSelection
  split <;> rfl

/-- Nor does it refuse a node. -/
@[simp] theorem lowestRefused_setSelection (f : Frontier α) (selection : NodeSelection) :
    (f.setSelection selection).lowestRefused = f.lowestRefused := by
  unfold setSelection
  split <;> rfl

omit [Scalar α] in
/-- Keeping clear of an id that was given out before changes nothing. -/
theorem reserveIds_of_lt {id : Nat} (h : id < f.nextId) : f.reserveIds id = f := by
  rw [reserveIds, Nat.max_eq_left (Nat.le_trans (Nat.min_le_left _ _) h)]

end Frontier

/-! ## The points of a problem -/

/-- The feasible points of a problem and their values. -/
structure Problem (α : Type) [Scalar α] where
  /-- The feasible points. -/
  points : Set (List α)
  /-- The objective. -/
  value : List α → α
  /-- The objective is defined at the feasible points. -/
  defined : ∀ x ∈ points, Scalar.isNaN (value x) = false

/-- The node holds the point, and its score is a bound on it. -/
structure Node.Guards (n : Node α) (p : Problem α) (x : List α) : Prop where
  /-- The point is in the box. -/
  box : n.box.Contains x
  /-- The score is a bound on the point. -/
  score : n.score ≤ p.value x

namespace Frontier

variable {f g : Frontier α} {n : OpenNode α} {p : Problem α} {x : List α}

/-- An open node holds the point, or the score of a refused one is a bound on it. -/
def Holds (f : Frontier α) (p : Problem α) (x : List α) : Prop :=
  (∃ n ∈ f.nodes, n.Guards p x) ∨ f.lowestRefused ≤ p.value x

/-- Taking a node out loses no point, except for those it holds itself. -/
theorem Holds.pop (hx : f.Holds p x) (h : f.Consistent) (hpop : f.pop? = some (n, g)) :
    n.node.Guards p x ∨ g.Holds p x := by
  rcases hx with ⟨m, hm, hguards⟩ | hrefused
  · rw [h.nodes_pop hpop, Multiset.mem_cons] at hm
    rcases hm with rfl | hm
    · exact .inl hguards
    · exact .inr (.inl ⟨m, hm, hguards⟩)
  · obtain ⟨slot, -, -, rfl⟩ := pop?_eq_some hpop
    exact .inr (.inr hrefused)

variable [Scalar.Ordered α]

/-- Offering a node loses no point. -/
theorem Holds.insert (hx : f.Holds p x) (h : f.Consistent) (n : OpenNode α) :
    (f.insert n).2.Holds p x := by
  rcases hx with ⟨m, hm, hguards⟩ | hrefused
  · exact .inl ⟨m, h.mem_nodes_insert n hm, hguards⟩
  · exact .inr (f.lowestRefused_insert_le n hrefused)

/-- Offering a node that holds a point makes the frontier hold it. -/
theorem holds_insert (h : f.Consistent) (hn : n.node.Guards p x) : (f.insert n).2.Holds p x := by
  rcases h.mem_or_refused_insert n with hmem | hrefused
  · exact .inl ⟨n.node, hmem, hn⟩
  · exact .inr (Scalar.Ordered.le_trans hrefused hn.score)

/-- Lowering the threshold loses no point, except for those that the lowest fathomed score is a
bound on. -/
theorem Holds.lowerThreshold (hx : f.Holds p x) (h : f.Consistent) (threshold : α) :
    (f.lowerThreshold threshold).1 ≤ p.value x ∨ (f.lowerThreshold threshold).2.Holds p x := by
  by_cases hignored : Scalar.isNaN threshold = true ∨ f.threshold < threshold
  · rw [lowerThreshold_of_ignored hignored]
    exact .inr hx
  · rw [lowerThreshold_of_not_ignored hignored]
    rcases hx with ⟨m, hm, hguards⟩ | hrefused
    · obtain ⟨k, hk, rfl⟩ := mem_nodes.mp hm
      cases hdom : (f.withThreshold threshold).dominates k.score with
      | true =>
        have hlow := (h.isLowest_fathomFrom threshold).le k.score ⟨k, hk, hdom, rfl⟩
          (Scalar.Ordered.isNaN_left_of_le hguards.score)
        exact .inl (Scalar.Ordered.le_trans hlow hguards.score)
      | false =>
        have hmem := (h.toList_fathomFrom threshold).mem_iff.mpr
          (List.mem_filter.mpr ⟨hk, by rw [hdom]; rfl⟩)
        exact .inr (.inl ⟨k.node, mem_nodes.mpr ⟨k, hmem, rfl⟩, hguards⟩)
    · exact .inr (.inr hrefused)

/-- The answer to lowering the threshold is defined. -/
theorem Consistent.isNaN_lowerThreshold (h : f.Consistent) (threshold : α) :
    Scalar.isNaN (f.lowerThreshold threshold).1 = false := by
  by_cases hignored : Scalar.isNaN threshold = true ∨ f.threshold < threshold
  · rw [lowerThreshold_of_ignored hignored]
    exact Scalar.Ordered.isNaN_infinity
  · rw [lowerThreshold_of_not_ignored hignored]
    exact (h.isLowest_fathomFrom threshold).defined

/-- A bound on a point that a frontier holds. -/
theorem Holds.lowest_le (hx : f.Holds p x) :
    f.lowestScore ≤ p.value x ∨ f.lowestRefused ≤ p.value x := by
  rcases hx with ⟨m, hm, hguards⟩ | hrefused
  · obtain ⟨k, hk, rfl⟩ := mem_nodes.mp hm
    have hlow := f.isLowest_lowestScore.le k.score ⟨k, hk, rfl⟩
      (Scalar.Ordered.isNaN_left_of_le hguards.score)
    exact .inl (Scalar.Ordered.le_trans hlow hguards.score)
  · exact .inr hrefused

end Frontier

end BranchBound
