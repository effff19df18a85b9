import BranchBound.Proofs.Frontier.Nodes
import BranchBound.Proofs.Scalar.Congruence

/-! # Open nodes score below the threshold

A frontier takes no node that its threshold dominates and fathoms those that a lower threshold
dominates. So its open nodes score below the threshold as long as the tolerances stay what they are
and no score is undefined.

* **`Frontier.SameLimits f g`** — from `f` to `g` neither the threshold nor a tolerance changed;
  handing nodes in and out changes none of them.
* **`Frontier.Below`** — every open node scores below the threshold under the tolerances.
  `Consistent.below_insert`, `Consistent.below_pop` and `Consistent.below_lowerThreshold` keep
  it. -/

namespace BranchBound.Frontier

variable {α : Type} [Scalar α] {f g h : Frontier α} {n : OpenNode α}

/-! ## Limits -/

/-- The threshold and the tolerances are the same. -/
structure SameLimits (f g : Frontier α) : Prop where
  /-- The threshold is the same. -/
  threshold : g.threshold = f.threshold
  /-- So is the relative tolerance. -/
  relTolerance : g.relTolerance = f.relTolerance
  /-- So is the absolute tolerance. -/
  absTolerance : g.absTolerance = f.absTolerance

omit [Scalar α] in
/-- A frontier has the limits that it has. -/
theorem SameLimits.refl (f : Frontier α) : f.SameLimits f := ⟨rfl, rfl, rfl⟩

omit [Scalar α] in
/-- Limits that are the same twice are the same. -/
theorem SameLimits.trans (hfg : f.SameLimits g) (hgh : g.SameLimits h) : f.SameLimits h where
  threshold := hgh.threshold.trans hfg.threshold
  relTolerance := hgh.relTolerance.trans hfg.relTolerance
  absTolerance := hgh.absTolerance.trans hfg.absTolerance

/-- The threshold under the tolerances is the same as well. -/
theorem SameLimits.adjustedThreshold (hfg : f.SameLimits g) :
    g.adjustedThreshold = f.adjustedThreshold := by
  rw [Frontier.adjustedThreshold, Frontier.adjustedThreshold, hfg.threshold, hfg.relTolerance,
    hfg.absTolerance]

/-- Frontiers of the same limits dominate the same scores. -/
theorem SameLimits.dominates (hfg : f.SameLimits g) (score : α) :
    g.dominates score = f.dominates score := by
  rw [Frontier.dominates, Frontier.dominates, hfg.adjustedThreshold]

omit [Scalar α] in
/-- Keeping clear of an id changes no limit. -/
theorem sameLimits_reserveIds (f : Frontier α) (id : Nat) : f.SameLimits (f.reserveIds id) :=
  ⟨rfl, rfl, rfl⟩

/-- Offering a node changes no limit. -/
theorem sameLimits_insert (f : Frontier α) (n : OpenNode α) : f.SameLimits (f.insert n).2 := by
  unfold insert
  split <;> exact ⟨rfl, rfl, rfl⟩

/-- Taking a node out changes no limit. -/
theorem sameLimits_pop (hpop : f.pop? = some (n, g)) : f.SameLimits g := by
  obtain ⟨slot, -, -, rfl⟩ := pop?_eq_some hpop
  exact ⟨rfl, rfl, rfl⟩

/-- Changing the selection changes no limit. -/
theorem sameLimits_setSelection (f : Frontier α) (selection : NodeSelection) :
    f.SameLimits (f.setSelection selection) := by
  unfold setSelection
  split <;> exact ⟨rfl, rfl, rfl⟩

/-- Lowering the threshold changes no other limit. -/
theorem sameLimits_lowerThreshold {threshold : α}
    (hlower : ¬ (Scalar.isNaN threshold = true ∨ f.threshold < threshold)) :
    (f.withThreshold threshold).SameLimits (f.lowerThreshold threshold).2 := by
  rw [lowerThreshold_of_not_ignored hlower]
  exact ⟨rfl, rfl, rfl⟩

/-! ## Nodes -/

/-- A node that is not dominated becomes open, and none is refused. -/
theorem Consistent.insert_of_not_dominates (hf : f.Consistent) (hn : f.dominates n.score = false) :
    (f.insert n).2.nodes = n.node ::ₘ f.nodes
      ∧ (f.insert n).2.lowestRefused = f.lowestRefused := by
  rw [Frontier.insert_of_not_dominates hn, nodes, nodes, Multiset.cons_coe, ← List.map_cons]
  exact ⟨Multiset.coe_eq_coe.mpr ((hf.toList_place n).map _), rfl⟩

variable [Scalar.Ordered α]

/-- Every open node scores below the threshold under the tolerances. -/
def Below (f : Frontier α) : Prop := ∀ m ∈ f.nodes, m.score < f.adjustedThreshold

omit [Scalar.Ordered α] in
/-- Fewer nodes under the same limits score below the threshold as well. -/
theorem Below.of_le (hf : f.Below) (hlimits : f.SameLimits g) (hnodes : g.nodes ≤ f.nodes) :
    g.Below := by
  intro m hm
  rw [hlimits.adjustedThreshold]
  exact hf m (Multiset.mem_of_le hnodes hm)

/-- A score below the threshold is one that is not dominated. -/
theorem lt_adjustedThreshold_iff {score : α} (hscore : Scalar.isNaN score = false)
    (hlimit : Scalar.isNaN f.adjustedThreshold = false) :
    score < f.adjustedThreshold ↔ f.dominates score = false := by
  rw [dominates, decide_eq_false_iff_not]
  exact ⟨Scalar.not_le_of_lt, Scalar.lt_of_not_le hlimit hscore⟩

/-- Offering a node of a defined score leaves the open nodes below the threshold. -/
theorem Consistent.below_insert (hf : f.Consistent) (hbelow : f.Below)
    (hlimit : Scalar.isNaN f.adjustedThreshold = false)
    (hscore : Scalar.isNaN n.score = false) : (f.insert n).2.Below := by
  have hlimits := f.sameLimits_insert n
  cases hdom : f.dominates n.score with
  | true =>
    refine hbelow.of_le hlimits (le_of_eq ?_)
    rw [insert_of_dominates hdom]
    rfl
  | false =>
    intro m hm
    rw [hlimits.adjustedThreshold]
    rw [(hf.insert_of_not_dominates hdom).1, Multiset.mem_cons] at hm
    rcases hm with rfl | hm
    · exact (lt_adjustedThreshold_iff hscore hlimit).mpr hdom
    · exact hbelow m hm

omit [Scalar.Ordered α] in
/-- Taking a node out leaves the others below the threshold. -/
theorem Consistent.below_pop (hf : f.Consistent) (hbelow : f.Below)
    (hpop : f.pop? = some (n, g)) : g.Below := by
  refine hbelow.of_le (sameLimits_pop hpop) ?_
  rw [hf.nodes_pop hpop]
  exact Multiset.le_cons_self _ _

/-- Lowering the threshold leaves the open nodes below it, unless the tolerances make it
undefined. -/
theorem Consistent.below_lowerThreshold {threshold : α} (hf : f.Consistent) (hbelow : f.Below)
    (hlower : ¬ (Scalar.isNaN threshold = true ∨ f.threshold < threshold))
    (hlimit : Scalar.isNaN (f.withThreshold threshold).adjustedThreshold = false) :
    (f.lowerThreshold threshold).2.Below := by
  rw [lowerThreshold_of_not_ignored hlower]
  intro m hm
  obtain ⟨k, hk, rfl⟩ := mem_nodes.mp hm
  obtain ⟨hopen, hdom⟩ := List.mem_filter.mp ((hf.toList_fathomFrom threshold).mem_iff.mp hk)
  rw [Bool.not_eq_true'] at hdom
  have hdef := Scalar.Ordered.isNaN_left_of_le
    (Scalar.le_of_lt (hbelow k.node (mem_nodes.mpr ⟨k, hopen, rfl⟩)))
  exact (lt_adjustedThreshold_iff hdef hlimit).mpr hdom

end BranchBound.Frontier
