import BranchBound.Proofs.Search.Balance
import BranchBound.Proofs.Search.Lineage

/-! # The open nodes are those that are spared

A node that is put into the tree becomes open unless it is dominated, and a better point fathoms the
open nodes that it dominates. So whatever happened to a search, none of its open nodes is dominated,
undefined scores or not, and a report leaves open what the last threshold spares of the nodes that
were open before and of those it brings.

* **`Frontier.Spares`** — the nodes that a frontier does not dominate.
* **`Frontier.Refills`** — how the open nodes change while no limit moves.
* **`Search.Abreast`** — the frontier keeps up with the incumbent; `Reachable.abreast` says that it
  does so in every state of a search.
* **`Abreast.offer`**, **`Abreast.record`** — what stays open once a point or a report came in. -/

namespace BranchBound

variable {α : Type} [Scalar α]

/-! ## Frontiers -/

namespace Frontier

variable {f g h : Frontier α} {n : OpenNode α} {m : Node α}

/-- A node is not dominated. -/
def Spares (f : Frontier α) (n : Node α) : Prop := f.dominates n.score = false

instance (f : Frontier α) : DecidablePred f.Spares :=
  fun n => inferInstanceAs (Decidable (f.dominates n.score = false))

/-- Frontiers of the same limits spare the same nodes. -/
theorem SameLimits.spares_iff (hfg : f.SameLimits g) : g.Spares m ↔ f.Spares m := by
  rw [Spares, Spares, hfg.dominates]

/-- Offering a node opens it unless it is dominated. -/
theorem Consistent.nodes_insert (hf : f.Consistent) (n : OpenNode α) :
    (f.insert n).2.nodes = Multiset.filter f.Spares {n.node} + f.nodes := by
  by_cases hspares : f.Spares n.node
  · rw [Multiset.filter_singleton, if_pos hspares, Multiset.singleton_add]
    exact (hf.insert_of_not_dominates hspares).1
  · have hdom : f.dominates n.score = true := Bool.of_not_eq_false hspares
    rw [Multiset.filter_singleton, if_neg hspares, Multiset.empty_eq_zero, Multiset.zero_add,
      insert_of_dominates hdom]
    rfl

/-- Lowering the threshold leaves the open nodes that it spares. -/
theorem Consistent.nodes_lowerThreshold {threshold : α} (hf : f.Consistent)
    (hlower : ¬ (Scalar.isNaN threshold = true ∨ f.threshold < threshold)) :
    (f.lowerThreshold threshold).2.nodes
      = f.nodes.filter (f.lowerThreshold threshold).2.Spares := by
  rw [lowerThreshold_of_not_ignored hlower, nodes, nodes, Multiset.filter_coe, List.filter_map]
  refine Multiset.coe_eq_coe.mpr (((hf.toList_fathomFrom threshold).map _).trans (.of_eq ?_))
  refine congrArg _ (List.filter_congr fun m _ => ?_)
  -- the threshold that is in force afterwards is the one that fathoms
  show (!(f.withThreshold threshold).dominates m.score)
    = decide ((f.withThreshold threshold).dominates m.score = false)
  cases (f.withThreshold threshold).dominates m.score <;> rfl

/-- From one frontier to another no limit moved, and the nodes that were opened are not
dominated. -/
structure Refills (f g : Frontier α) : Prop where
  /-- The limits are the same. -/
  limits : f.SameLimits g
  /-- A node that is open now was open before or is not dominated. -/
  nodes : ∀ m ∈ g.nodes, m ∈ f.nodes ∨ f.Spares m

/-- A frontier of the same limits and nodes, or fewer. -/
theorem Refills.of_le (hlimits : f.SameLimits g) (hnodes : g.nodes ≤ f.nodes) : f.Refills g :=
  ⟨hlimits, fun _ hm => .inl (Multiset.mem_of_le hnodes hm)⟩

/-- A frontier does so with what it has. -/
theorem Refills.refl (f : Frontier α) : f.Refills f := .of_le (.refl f) le_rfl

/-- Opening some nodes that are not dominated. -/
theorem Refills.of_add {opened : Multiset (Node α)} (hlimits : f.SameLimits g)
    (hnodes : g.nodes = opened.filter f.Spares + f.nodes) : f.Refills g := by
  refine ⟨hlimits, fun m hm => ?_⟩
  rw [hnodes, Multiset.mem_add, Multiset.mem_filter] at hm
  exact hm.symm.imp_right And.right

end Frontier

/-! ## Branching -/

namespace Brancher

variable {b c : Brancher α} {parent : Node α} {point : List α} {objective : α}
  {outcome : Branching}

/-- Branching opens the nodes that it makes unless they are dominated. -/
theorem Branched.nodes [Scalar.Ordered α] (h : Branched b parent point objective outcome c)
    (hb : b.frontier.Consistent) : c.frontier.nodes
      = (b.opened parent objective outcome).filter b.frontier.Spares + b.frontier.nodes := by
  cases h with
  | dropped => rw [opened, Multiset.filter_zero, Multiset.zero_add]
  | requeued => exact hb.nodes_insert _
  | @split i v hv down up d hsplit =>
    have hd := split_consistent hsplit hb
    have hids : b.frontier.SameLimits d.frontier ∧ d.frontier.nodes = b.frontier.nodes := by
      rw [split_brancher hsplit]
      exact ⟨⟨rfl, rfl, rfl⟩, rfl⟩
    obtain ⟨hdown, hup⟩ := split_nodes hsplit
    have hopened :
        b.opened parent objective (.split i down.id up.id) = {down.node} + {up.node} := by
      rw [opened, hv, OpenNode.id, OpenNode.id, hdown, hup]
      rfl
    -- opening one child does not change what becomes of the other
    have hlimits := hids.1.trans (d.frontier.sameLimits_insert down)
    rw [offer_frontier, offer_frontier, (hd.insert down).nodes_insert, hd.nodes_insert, hopened,
      Multiset.filter_add, hids.2, Multiset.filter_congr fun _ _ => hlimits.spares_iff,
      Multiset.filter_congr fun _ _ => hids.1.spares_iff, ← Multiset.add_assoc,
      Multiset.add_comm (Multiset.filter _ {up.node})]

/-- It closes no node. -/
theorem Branched.le_nodes [Scalar.Ordered α] (h : Branched b parent point objective outcome c)
    (hb : b.frontier.Consistent) : b.frontier.nodes ≤ c.frontier.nodes := by
  rw [h.nodes hb]
  exact Multiset.le_add_left _ _

/-- No limit moves. -/
theorem Branched.refills [Scalar.Ordered α] (h : Branched b parent point objective outcome c)
    (hb : b.frontier.Consistent) : b.frontier.Refills c.frontier :=
  .of_add h.sameLimits (h.nodes hb)

end Brancher

/-! ## Searches -/

namespace Search

variable {s t : Search α} {r : Report α} {stage : Stage}

/-- The frontier is up with the incumbent: it fathoms against its value, and no open node is
dominated. -/
structure Abreast (s : Search α) : Prop extends s.InStep where
  /-- The frontier spares its open nodes. -/
  spared : ∀ m ∈ s.brancher.frontier.nodes, s.brancher.frontier.Spares m

/-- It stays so while nodes come and go. -/
theorem Abreast.refill (h : s.Abreast) (hsettings : t.settings = s.settings)
    (hincumbent : t.incumbent = s.incumbent)
    (hrefills : s.brancher.frontier.Refills t.brancher.frontier) : t.Abreast where
  toInStep := h.of_limits hsettings hincumbent hrefills.limits
  spared := fun m hm => hrefills.limits.spares_iff.mpr ((hrefills.nodes m hm).elim (h.spared m) id)

/-- It stays so as long as neither the frontier nor the incumbent changes. -/
theorem Abreast.of_eq (h : s.Abreast) (hsettings : t.settings = s.settings)
    (hincumbent : t.incumbent = s.incumbent)
    (hfrontier : t.brancher.frontier = s.brancher.frontier) : t.Abreast :=
  h.refill hsettings hincumbent (hfrontier ▸ .refl _)

section Ordered

variable [Scalar.Ordered α]

/-- Acting on a report moves no limit. -/
theorem refills_settle (hs : s.brancher.frontier.Consistent) (r : Report α) :
    s.brancher.frontier.Refills (s.settle r).2.brancher.frontier := by
  rcases hsettle : s.settle r with ⟨e | stage, t⟩
  · rw [(settle_error hsettle).1]
    exact .refl _
  · cases settlement hsettle with
    | fathomed =>
      rw [(s.countFathomed_frame r).1]
      exact .refl _
    | twice => exact .refl _
    | branched _ _ hb =>
      rw [(s.requeued_branched r _ _).1]
      exact (Brancher.branch_cases hb).2.refills hs

/-- Neither does it close a node. -/
theorem le_nodes_settle (hs : s.brancher.frontier.Consistent) (r : Report α) :
    s.brancher.frontier.nodes ≤ (s.settle r).2.brancher.frontier.nodes := by
  rcases hsettle : s.settle r with ⟨e | stage, t⟩
  · rw [(settle_error hsettle).1]
  · cases settlement hsettle with
    | fathomed => rw [(s.countFathomed_frame r).1]
    | twice => exact le_rfl
    | branched _ _ hb =>
      rw [(s.requeued_branched r _ _).1]
      exact (Brancher.branch_cases hb).2.le_nodes hs

/-- A search keeps up with the points that are offered to it, and what stays open is what the new
threshold spares. -/
theorem Abreast.offer (h : s.Abreast) (hs : s.brancher.frontier.Consistent) (c : Candidate α) :
    (s.offer c).2.Abreast ∧ (s.offer c).2.brancher.frontier.nodes
      = s.brancher.frontier.nodes.filter (s.offer c).2.brancher.frontier.Spares := by
  by_cases hlt : c.value < s.incumbent.value
  · have hnodes := hs.nodes_lowerThreshold (h.not_ignored hlt)
    have hadopt : (s.adopt c).Abreast := ⟨h.adopt hlt, fun m hm => by
      change m ∈ (s.brancher.frontier.lowerThreshold c.value).2.nodes at hm
      rw [hnodes] at hm
      exact Multiset.of_mem_filter hm⟩
    rw [offer_of_lt hlt, brancher_noteDiscarded]
    exact ⟨hadopt.of_eq (settings_noteDiscarded _ _) (incumbent_noteDiscarded _)
      (congrArg Brancher.frontier (brancher_noteDiscarded _)), hnodes⟩
  · rw [offer_of_not_lt hlt]
    exact ⟨h, (Multiset.filter_eq_self.mpr h.spared).symm⟩

/-- A search keeps up with the reports that are recorded, and what stays open is what the threshold
spares afterwards. -/
theorem Abreast.record (h : s.Abreast) (hs : s.brancher.frontier.Consistent) (r : Report α) :
    (s.record r).2.Abreast ∧ (s.record r).2.brancher.frontier.nodes
      = s.brancher.frontier.nodes.filter (s.record r).2.brancher.frontier.Spares := by
  have hcounted : (s.counted r).Abreast := h.of_eq rfl rfl rfl
  have haccount : (s.account r).Abreast ∧ (s.account r).brancher.frontier.nodes
      = s.brancher.frontier.nodes.filter (s.account r).brancher.frontier.Spares := by
    rw [account_eq]
    split
    · exact hcounted.offer hs _
    · exact ⟨hcounted, (Multiset.filter_eq_self.mpr h.spared).symm⟩
  -- confirming the node leaves the frontier alone
  have hfrontier : (s.record r).2.brancher.frontier = (s.account r).brancher.frontier :=
    (confirm_frontier (s.account r).brancher r.node.id r.node).1
  rw [hfrontier]
  exact ⟨haccount.1.of_eq rfl rfl hfrontier, haccount.2⟩

/-- A search keeps up with whatever is done to it. -/
theorem Abreast.perform (h : s.Abreast) (hs : s.brancher.frontier.Consistent) (op : Op α) :
    (s.perform op).Abreast := by
  have hsettings := (s.alike_perform op).settings
  cases op with
  | offer c => exact (h.offer hs c).1
  | record r => exact (h.record hs r).1
  | settle r => exact h.refill hsettings (s.settle_frame r).2 (refills_settle hs r)
  | apply r =>
    have hrecord := (h.record hs r).1
    have hconsistent := (s.keeps_record hs r).consistent
    show (s.apply r).2.Abreast
    -- the report is recorded, and settled if that went well
    rcases s.apply_cases r with ⟨e, -, happly⟩ | ⟨-, happly⟩ <;> rw [happly]
    · exact hrecord
    · exact hrecord.refill ((s.record r).2.alike_settle r).settings
        ((s.record r).2.settle_frame r).2 (refills_settle hconsistent r)
  | atTime | countBranched | countDropped => exact h.of_eq rfl rfl rfl
  | countFathomed r =>
    exact h.of_eq hsettings (s.countFathomed_frame r).2
      (congrArg Brancher.frontier (s.countFathomed_frame r).1)
  | next =>
    refine h.refill hsettings rfl ?_
    show s.brancher.frontier.Refills s.brancher.next.2.frontier
    rcases s.brancher.next_cases with ⟨-, hnext⟩ | ⟨n, f, hpop, hnext⟩ <;> rw [hnext]
    · exact .refl _
    · refine .of_le (Frontier.sameLimits_pop hpop) ?_
      rw [hs.nodes_pop hpop]
      exact Multiset.le_cons_self _ _
  | cancel id => exact h.of_eq hsettings rfl (s.brancher.frontier_cancel id)
  | insertEvaluated n =>
    refine h.refill hsettings rfl ?_
    rw [Search.perform]
    rcases s.insertEvaluated_cases n with hsame | hqueued
    · rw [hsame]
      exact .refl _
    · rw [hqueued]
      exact .of_add ((Frontier.sameLimits_reserveIds _ _).trans (Frontier.sameLimits_insert _ _))
        ((hs.reserveIds n.id).nodes_insert _)
  | strongChildren r =>
    obtain ⟨id, hfrontier, -⟩ := s.brancher.allChildren_frontier r.node r.point
    refine h.refill hsettings rfl ?_
    show s.brancher.frontier.Refills (s.brancher.allChildren r.node r.point).2.frontier
    rw [hfrontier]
    exact .of_le ⟨rfl, rfl, rfl⟩ le_rfl

end Ordered

/-- In every state of a search the frontier is up with the incumbent. -/
theorem Reachable.abreast [Scalar.Congruent α] (h : Reachable s) : s.Abreast := by
  induction h with
  | new hstart =>
    have hagrees := Agrees.new hstart
    refine ⟨hagrees.toInStep, fun m hm => ?_⟩
    rw [Frontier.Spares, Frontier.dominates, decide_eq_false_iff_not]
    exact Scalar.not_le_of_lt (hagrees.below m hm)
  | perform hs op ih => exact ih.perform hs.consistent op

end Search

end BranchBound
