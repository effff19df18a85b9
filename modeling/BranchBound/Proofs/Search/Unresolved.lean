import BranchBound.Proofs.Search.Balance

/-! # The scores that a search leaves unresolved

The bound of a search is the lowest of the scores that it has not resolved: those of the open nodes,
of the nodes that were refused and of those that were discarded. Opening a node adds its score to
them, wherever the node ends up; a better point moves the scores of the nodes that it fathoms from
one place to another and adds none. So what a report adds is known from the report, and the bound
afterwards follows from the bound before.

* **`Frontier.bound_le_iff`** — the scores of a frontier.
* **`Search.Leaves s t scores`** — from `s` to `t` these scores were added.
* **`Report.left`**, **`Search.leaves_apply`** — what a report adds. -/

namespace BranchBound

variable {α : Type} [Scalar α] [Scalar.Ordered α]

/-! ## Frontiers -/

namespace Frontier

variable {f g h : Frontier α} {n : OpenNode α} {scores more : Multiset α} {y : α}

/-- The lowest score of the open nodes and of the refused ones. -/
def bound (f : Frontier α) : α := Scalar.least f.lowestScore f.lowestRefused

/-- The lowest score of the open nodes is at most what one of them is at most; without any, it is
infinity. -/
theorem lowestScore_le_iff :
    f.lowestScore ≤ y ↔ (∃ m ∈ f.nodes, m.score ≤ y) ∨ Scalar.infinity ≤ y := by
  have hlowest := f.isLowest_lowestScore
  constructor
  · intro hy
    rcases hlowest.attained with ⟨k, hk, heq⟩ | ⟨heq, -⟩
    · rw [← heq] at hy
      exact .inl ⟨k.node, mem_nodes.mpr ⟨k, hk, rfl⟩, hy⟩
    · rw [heq] at hy
      exact .inr hy
  · rintro (⟨m, hm, hy⟩ | hy)
    · obtain ⟨k, hk, rfl⟩ := mem_nodes.mp hm
      exact Scalar.Ordered.le_trans
        (hlowest.le _ ⟨k, hk, rfl⟩ (Scalar.Ordered.isNaN_left_of_le hy)) hy
    · exact Scalar.Ordered.le_trans (Scalar.Ordered.le_infinity hlowest.defined) hy

/-- The bound of a frontier is at most what one of its nodes or the lowest score of the refused
nodes is at most. -/
theorem bound_le_iff : f.bound ≤ y
    ↔ ((∃ m ∈ f.nodes, m.score ≤ y) ∨ Scalar.infinity ≤ y) ∨ f.lowestRefused ≤ y := by
  rw [bound, Scalar.least_le_iff, lowestScore_le_iff]

/-- The scores of one frontier are those of another and some more. -/
def Leaves (f g : Frontier α) (scores : Multiset α) : Prop :=
  ∀ y, g.bound ≤ y ↔ f.bound ≤ y ∨ ∃ x ∈ scores, x ≤ y

omit [Scalar.Ordered α] in
/-- Scores that are added twice over. -/
theorem Leaves.trans (hfg : f.Leaves g scores) (hgh : g.Leaves h more) :
    f.Leaves h (scores + more) := by
  intro y
  rw [hgh y, hfg y, or_assoc]
  simp only [Multiset.mem_add, or_and_right, exists_or]

/-- Offering a node adds its score, whether the node is taken or refused. -/
theorem Consistent.leaves_insert (hf : f.Consistent) (n : OpenNode α) :
    f.Leaves (f.insert n).2 {n.score} := by
  intro y
  rw [bound_le_iff, bound_le_iff]
  simp only [Multiset.mem_singleton, exists_eq_left]
  cases hdom : f.dominates n.score with
  | true =>
    rw [insert_of_dominates hdom]
    show ((∃ m ∈ f.nodes, m.score ≤ y) ∨ _) ∨ Scalar.least f.lowestRefused n.score ≤ y ↔ _
    simp only [Scalar.least_le_iff, or_assoc]
  | false =>
    obtain ⟨hnodes, hrefused⟩ := hf.insert_of_not_dominates hdom
    rw [hnodes, hrefused]
    simp only [Multiset.mem_cons, exists_eq_or_imp, OpenNode.score, or_comm, or_left_comm]

/-- Taking a node out takes its score away. -/
theorem Consistent.bound_pop (hf : f.Consistent) (hpop : f.pop? = some (n, g)) :
    f.bound ≤ y ↔ n.score ≤ y ∨ g.bound ≤ y := by
  obtain ⟨slot, -, -, hg⟩ := pop?_eq_some hpop
  have hrefused : g.lowestRefused = f.lowestRefused := by rw [hg]
  rw [bound_le_iff, bound_le_iff, hf.nodes_pop hpop, hrefused]
  simp only [Multiset.mem_cons, exists_eq_or_imp, OpenNode.score, or_assoc]

/-- Lowering the threshold moves scores from the open nodes to the score that it answers. -/
theorem Consistent.bound_lowerThreshold (hf : f.Consistent) (threshold : α) :
    (f.lowerThreshold threshold).1 ≤ y ∨ (f.lowerThreshold threshold).2.bound ≤ y
      ↔ f.bound ≤ y := by
  have hle := hf.nodes_lowerThreshold_le threshold
  constructor
  · rintro (hy | hy)
    · -- a threshold that does not lower the one in force fathoms nothing
      by_cases hignored : Scalar.isNaN threshold = true ∨ f.threshold < threshold
      · rw [lowerThreshold_of_ignored hignored] at hy
        exact bound_le_iff.mpr (.inl (.inr hy))
      · rw [lowerThreshold_of_not_ignored hignored] at hy
        -- the answer is the score of an open node, or the lowest refused one
        rcases (hf.isLowest_fathomFrom threshold).attained with ⟨k, hk, -, heq⟩ | ⟨heq, -⟩
        · rw [← heq] at hy
          exact bound_le_iff.mpr (.inl (.inl ⟨k.node, mem_nodes.mpr ⟨k, hk, rfl⟩, hy⟩))
        · rw [heq] at hy
          exact bound_le_iff.mpr (.inl (.inr hy))
    · rw [bound_le_iff, lowestRefused_lowerThreshold] at hy
      exact bound_le_iff.mpr (hy.imp_left (.imp_left fun ⟨m, hm, hmy⟩ =>
        ⟨m, Multiset.mem_of_le hle hm, hmy⟩))
  · intro hy
    rw [bound, Scalar.least_le_iff] at hy ⊢
    rw [lowestRefused_lowerThreshold]
    rcases hy with hopen | hrefused
    · exact (hf.lowest_lowerThreshold threshold hopen).imp_right .inl
    · exact .inr (.inr hrefused)

end Frontier

/-! ## Branching -/

namespace Brancher

variable {b c : Brancher α} {parent : Node α} {point : List α} {objective : α}
  {outcome : Branching}

/-- The scores of the nodes that branching opens: that of the node, or those that the children
inherit. -/
def Branching.scores (score inherited : α) : Branching → Multiset α
  | .dropped => 0
  | .requeued => {score}
  | .split .. => {inherited, inherited}

/-- Branching a node adds these scores, whether the nodes are taken or refused. -/
theorem Branched.leaves (h : Branched b parent point objective outcome c)
    (hb : b.frontier.Consistent) : b.frontier.Leaves c.frontier
      (outcome.scores parent.score (b.rounded parent objective).score) := by
  cases h with
  | dropped =>
    intro y
    simp [Branching.scores]
  | requeued => exact hb.leaves_insert _
  | @split i v hv down up d hsplit =>
    have hd := split_consistent hsplit hb
    obtain ⟨hdown, hup⟩ := split_nodes hsplit
    -- naming the parts leaves the scores alone
    have hnamed : b.frontier.Leaves d.frontier 0 := by
      intro y
      rw [split_brancher hsplit]
      simp [Frontier.bound_le_iff, Frontier.nodes, Frontier.toList, Frontier.nodeAt?]
    have hboth := (hnamed.trans (hd.leaves_insert down)).trans ((hd.insert down).leaves_insert up)
    rw [OpenNode.score, OpenNode.score, hdown, hup] at hboth
    exact hboth

end Brancher

/-! ## Reports -/

namespace Report

variable {r : Report α} {stage : Stage} {x : α}

/-- The score that the children of the node inherit. -/
def inherited (r : Report α) : α :=
  if Scalar.isNaN r.lowerBound then r.node.score else Scalar.greatest r.node.score r.lowerBound

/-- The scores that are left unresolved by a report whose node ends in a stage. -/
def left (r : Report α) : Stage → Multiset α
  | .fathomed .valueDominated => {r.node.score}
  | .dropped | .fixed => {r.node.score}
  | .branched => {r.inherited, r.inherited}
  | _ => 0

/-- None of them is below the score of the node. -/
theorem le_of_mem_left (hdef : Scalar.isNaN r.node.score = false) (hx : x ∈ r.left stage) :
    r.node.score ≤ x := by
  have hrefl := Scalar.Ordered.le_refl hdef
  have hinherited : r.node.score ≤ r.inherited := by
    unfold inherited
    split
    · exact hrefl
    · exact Scalar.le_greatest_left hdef
  unfold left at hx
  split at hx <;> simp only [Multiset.insert_eq_cons, Multiset.mem_cons, Multiset.mem_singleton,
    Multiset.notMem_zero, or_self] at hx
  all_goals
    rw [hx]
    assumption

end Report

/-! ## Searches -/

namespace Search

variable {s t u : Search α} {r : Report α} {scores more : Multiset α} {y : α}

/-- From one state of a search to another these scores were added to the unresolved ones. -/
def Leaves (s t : Search α) (scores : Multiset α) : Prop :=
  ∀ y, t.provenBound none ≤ y ↔ s.provenBound none ≤ y ∨ ∃ x ∈ scores, x ≤ y

/-- The bound of a search is at most what that of its frontier or the score of the discarded nodes
is at most. -/
theorem provenBound_none_le_iff :
    s.provenBound none ≤ y ↔ s.brancher.frontier.bound ≤ y ∨ s.discarded ≤ y := by
  rw [provenBound_le_iff, Frontier.bound, Scalar.least_le_iff]
  simp only [reduceCtorEq, false_and, exists_false, or_false]
  tauto

omit [Scalar.Ordered α] in
/-- Nothing is added by doing nothing. -/
theorem Leaves.refl (s : Search α) : s.Leaves s 0 := by
  intro y
  simp

omit [Scalar.Ordered α] in
/-- Scores that are added twice over. -/
theorem Leaves.trans (hst : s.Leaves t scores) (htu : t.Leaves u more) :
    s.Leaves u (scores + more) := by
  intro y
  rw [htu y, hst y, or_assoc]
  simp only [Multiset.mem_add, or_and_right, exists_or]

/-- The frontier adds what it adds. -/
theorem Leaves.of_frontier (h : s.brancher.frontier.Leaves t.brancher.frontier scores)
    (hdiscarded : t.discarded = s.discarded) : s.Leaves t scores := by
  intro y
  rw [provenBound_none_le_iff, provenBound_none_le_iff, h y, hdiscarded, or_right_comm]

/-- Nothing is added as long as the frontier and the score of the discarded nodes are the same. -/
theorem Leaves.of_eq (hfrontier : t.brancher.frontier = s.brancher.frontier)
    (hdiscarded : t.discarded = s.discarded) : s.Leaves t 0 := by
  intro y
  rw [provenBound_none_le_iff, provenBound_none_le_iff, hfrontier, hdiscarded]
  simp

/-- A score that is kept is added; an undefined one is at most nothing anyway. -/
theorem leaves_noteDiscarded (s : Search α) (score : α) :
    s.Leaves (s.noteDiscarded score) {score} := by
  intro y
  simp only [Multiset.mem_singleton, exists_eq_left]
  unfold noteDiscarded
  split
  · next hnan =>
    refine ⟨.inl, fun h => h.resolve_right fun hy => ?_⟩
    rw [Scalar.Ordered.isNaN_left_of_le hy] at hnan
    cases hnan
  · rw [provenBound_none_le_iff, provenBound_none_le_iff]
    show _ ∨ Scalar.least s.discarded score ≤ y ↔ _
    rw [Scalar.least_le_iff, or_assoc]

/-- Offering a point adds nothing: the scores of the nodes that it fathoms are kept. -/
theorem leaves_offer (hs : s.brancher.frontier.Consistent) (c : Candidate α) :
    s.Leaves (s.offer c).2 0 := by
  by_cases hlt : c.value < s.incumbent.value
  · rw [offer_of_lt hlt]
    intro y
    rw [leaves_noteDiscarded _ _ y, provenBound_none_le_iff, provenBound_none_le_iff,
      ← hs.bound_lowerThreshold c.value]
    simp only [Multiset.mem_singleton, exists_eq_left, Multiset.notMem_zero, false_and,
      exists_false, or_false]
    show ((s.brancher.frontier.lowerThreshold c.value).2.bound ≤ y ∨ s.discarded ≤ y)
      ∨ (s.brancher.frontier.lowerThreshold c.value).1 ≤ y ↔ _
    tauto
  · rw [offer_of_not_lt hlt]
    exact .refl s

/-- Recording a report adds nothing. -/
theorem leaves_record (hs : s.brancher.frontier.Consistent) (r : Report α) :
    s.Leaves (s.record r).2 0 := by
  have hcounted : s.Leaves (s.counted r) 0 := .of_eq rfl rfl
  have haccount : s.Leaves (s.account r) 0 := by
    rw [account_eq]
    split
    · exact hcounted.trans (leaves_offer (s := s.counted r) hs _)
    · exact hcounted
  have hconfirm : (s.account r).Leaves (s.record r).2 0 :=
    .of_eq (confirm_frontier (s.account r).brancher r.node.id r.node).1 rfl
  exact haccount.trans hconfirm

/-- Acting on a report adds the scores that it leaves. -/
theorem leaves_settle {stage : Stage} (hs : s.brancher.frontier.Consistent)
    (hsettle : s.settle r = (.ok stage, t)) : s.Leaves t (r.left stage) := by
  cases settlement hsettle with
  | @fathomed reason hstage =>
    have hcounted : s.Leaves { s with stats.fathomed := s.stats.fathomed + 1 } 0 := .of_eq rfl rfl
    unfold countFathomed
    dsimp only
    -- a node that is fathomed for its value leaves its score; the other reasons leave none
    by_cases hdominated : reason = .valueDominated
    · rw [if_pos (by rw [hstage, hdominated]), hdominated]
      exact hcounted.trans (leaves_noteDiscarded _ _)
    · rw [if_neg (by rw [hstage]; exact fun h => hdominated (Stage.fathomed.inj h))]
      have hnone : r.left (.fathomed reason) = 0 := by
        cases reason <;> first | rfl | exact absurd rfl hdominated
      rw [hnone]
      exact hcounted
  | twice => exact .of_eq rfl rfl
  | @branched _ _ outcome b hbranch =>
    have hfrontier := (Brancher.branch_cases hbranch).2.leaves hs
    cases outcome with
    | dropped =>
      have hdropped : s.Leaves ({ s with brancher := b } : Search α).countDropped 0 :=
        .of_frontier hfrontier rfl
      exact hdropped.trans (leaves_noteDiscarded _ _)
    | requeued => exact .of_frontier hfrontier rfl
    | split => exact .of_frontier hfrontier rfl

/-- So does taking it in. -/
theorem leaves_apply {stage : Stage} (hs : s.brancher.frontier.Consistent)
    (happly : s.apply r = (.ok stage, t)) : s.Leaves t (r.left stage) := by
  have hrecord := (leaves_record hs r).trans
    (leaves_settle (s.keeps_record hs r).consistent (apply_ok happly).2)
  rwa [Multiset.zero_add] at hrecord

/-- An incumbent to which the point of a report was offered is at most what it or the point is at
most. -/
theorem adopt_le_iff {i : Incumbent α} (hdef : Scalar.isNaN i.value = false) :
    (i.adopt r).value ≤ y ↔ i.value ≤ y ∨ ∃ c ∈ r.candidate, c.value ≤ y := by
  constructor
  · intro hy
    rcases i.adopt_cases r with ⟨c, hc, -, hadopt⟩ | ⟨-, hadopt⟩ <;> rw [hadopt] at hy
    · exact .inr ⟨c, hc, hy⟩
    · exact .inl hy
  · rintro (hy | ⟨c, hc, hy⟩)
    · exact adopt_le r hy
    · rcases i.adopt_cases r with ⟨d, hd, -, hadopt⟩ | ⟨hnot, hadopt⟩ <;> rw [hadopt]
      · cases hc.symm.trans hd
        exact hy
      · have hle := Scalar.le_of_not_lt (Scalar.Ordered.isNaN_left_of_le hy) hdef (hnot c hc)
        exact Scalar.Ordered.le_trans hle hy

/-- The bound of a search together with its incumbent: a report adds its point and the scores that
it leaves, and nothing else. -/
theorem best_apply_le_iff {stage : Stage} (hs : s.brancher.frontier.Consistent)
    (hdef : Scalar.isNaN s.incumbent.value = false) (happly : s.apply r = (.ok stage, t))
    (outLowest : Option α) : Scalar.least (t.provenBound outLowest) t.incumbent.value ≤ y
      ↔ Scalar.least (s.provenBound outLowest) s.incumbent.value ≤ y
        ∨ (∃ c ∈ r.candidate, c.value ≤ y) ∨ ∃ x ∈ r.left stage, x ≤ y := by
  have hincumbent := s.incumbent_apply r
  rw [happly] at hincumbent
  have hbound : t.provenBound outLowest ≤ y
      ↔ s.provenBound outLowest ≤ y ∨ ∃ x ∈ r.left stage, x ≤ y := by
    cases outLowest with
    | none => exact leaves_apply hs happly y
    | some score =>
      rw [provenBound_some_le_iff, provenBound_some_le_iff, leaves_apply hs happly y, or_right_comm]
  rw [Scalar.least_le_iff, Scalar.least_le_iff, hbound, hincumbent, adopt_le_iff hdef]
  simp only [or_assoc, or_comm, or_left_comm]

/-- Queuing a node adds its score. -/
theorem leaves_insertEvaluated {n : Node α} {taken : Bool} (hs : s.brancher.frontier.Consistent)
    (hinsert : s.insertEvaluated n = (.ok taken, t)) : s.Leaves t {n.score} := by
  obtain rfl := eq_of_insertEvaluated_ok hinsert
  exact .of_frontier ((hs.reserveIds n.id).leaves_insert (s.brancher.toOpen n .unsplit)) rfl

end Search

end BranchBound
