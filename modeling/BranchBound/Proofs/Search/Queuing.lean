import BranchBound.Proofs.Brancher.Comparing
import BranchBound.Proofs.Node.Barren
import BranchBound.Proofs.Node.Conforming
import BranchBound.Proofs.Scalar.Reversal
import BranchBound.Proofs.Search.Lineage
import BranchBound.Proofs.Search.Refusing

/-! # Best bound first

A search that hands out the node of the best bound first ranks its open nodes by the negations of
their bounds. The ranks are set when nodes become open and never looked at again, so they have to be
right in all the places where nodes become open: for the children of a node, for a single point that
is queued once more, for the children that strong branching keeps. The root is ranked otherwise, but
it is alone. As long as no bound below the last one that was handed out comes in, the nodes come out
in the order of their bounds.

* **`Brancher.Queues low b`** — the open nodes are ranked by their bounds, none of which is below
  `low`; every operation on a report whose score is not below `low` keeps this.
* **`Brancher.Ready`** — so it is, or a single node is open; `Ready.next` says that the next node
  has the lowest bound then.
* **`Serial.queues_round`** — a round makes the bound of its node the new `low`.
* **`Serial.pops_in_order`** — the nodes are handed out in the order of their bounds. -/

namespace BranchBound

variable {σ α : Type} [Scalar α]

/-! ## The order of a frontier -/

namespace Frontier

variable {f g : Frontier α} {m n : OpenNode α}

/-- Offering a node does not change which one comes out first. -/
theorem selection_insert (f : Frontier α) (n : OpenNode α) :
    (f.insert n).2.selection = f.selection := by
  unfold insert
  split <;> rfl

/-- Lowering the threshold does not either. -/
theorem selection_lowerThreshold (f : Frontier α) (threshold : α) :
    (f.lowerThreshold threshold).2.selection = f.selection := by
  unfold lowerThreshold
  split <;> rfl

/-- Setting the selection sets it. -/
theorem selection_setSelection (f : Frontier α) (selection : NodeSelection) :
    (f.setSelection selection).selection = selection := by
  unfold setSelection
  split
  · next h => exact h
  · rfl

variable [Scalar.Ordered α]

/-- A node that comes out and is not above those that stay has the lowest score. -/
theorem Consistent.score_beq_lowestScore (hf : f.Consistent) (hpop : f.pop? = some (n, g))
    (hdef : Scalar.isNaN n.score = false) (hle : ∀ m ∈ g.members, n.score ≤ m.score) :
    (n.score == f.lowestScore) = true := by
  have hlowest := isLowest_lowestScore f
  have hperm := hf.toList_pop hpop
  have hn : n ∈ f.toList := hperm.mem_iff.mpr List.mem_cons_self
  refine Scalar.Ordered.beq_iff_le_ge.mpr ⟨?_, hlowest.le _ ⟨n, hn, rfl⟩ hdef⟩
  rcases hlowest.attained with ⟨m, hm, heq⟩ | ⟨hinfinity, -⟩
  · rw [← heq]
    rcases List.mem_cons.mp (hperm.mem_iff.mp hm) with rfl | hm
    · exact Scalar.Ordered.le_refl hdef
    · exact hle m hm
  · rw [hinfinity]
    exact Scalar.Ordered.le_infinity hdef

omit [Scalar.Ordered α] in
/-- A node that comes out first and is ranked by its bound is not above those that stay, if they are
ranked by theirs. -/
theorem Consistent.score_le_of_pop [Scalar.Reversing α] (hf : f.Consistent)
    (hselection : f.selection = .bestBound) (hpop : f.pop? = some (n, g))
    (hranked : ∀ m ∈ f.members, m.selectionScore = -m.score)
    (hdef : ∀ m ∈ f.members, Scalar.isNaN m.score = false) (hm : m ∈ g.members) :
    n.score ≤ m.score := by
  have hmembers := hf.members_pop hpop
  have hn : n ∈ f.members := hmembers ▸ Multiset.mem_cons_self n _
  have hmf : m ∈ f.members := hmembers ▸ Multiset.mem_cons_of_mem hm
  have hprefers := hf.not_prefers_of_pop hpop (Multiset.mem_coe.mp hm)
  rw [hselection, NodeSelection.bestBound_not_prefers, hranked m hmf, hranked n hn] at hprefers
  refine Scalar.le_of_order_neg (hdef m hmf) (hdef n hn) fun hgt => ?_
  rw [hgt] at hprefers
  rcases hprefers with hlt | ⟨heq, -⟩
  · cases hlt
  · cases heq

end Frontier

/-! ## Ranks by bounds -/

namespace Brancher

variable {low score : α} {b c : Brancher α} {n parent : Node α} {m : OpenNode α}

/-- The best bound comes first, and no open node has a bound below a given one. -/
structure Bounded (low : α) (b : Brancher α) : Prop where
  /-- The frontier is consistent. -/
  consistent : b.frontier.Consistent
  /-- The node of the highest rank comes out first. -/
  selection : b.frontier.selection = .bestBound
  /-- Nodes that become open are ranked by their bounds. -/
  scoring : b.scoring = .lowBoundFirst
  /-- No bound is below the given one. -/
  low_le : ∀ m ∈ b.frontier.members, low ≤ m.score

/-- Besides, the open nodes are ranked by their bounds. -/
structure Queues (low : α) (b : Brancher α) : Prop extends Bounded low b where
  /-- The ranks are the negated bounds. -/
  ranked : ∀ m ∈ b.frontier.members, m.selectionScore = -m.score

/-- The next node to come out is that of the lowest bound: the open nodes are ranked by their
bounds, or there is one at most. -/
structure Ready (low : α) (b : Brancher α) : Prop extends Bounded low b where
  /-- The ranks are the negated bounds, unless a node is alone. -/
  ranked : (∀ m ∈ b.frontier.members, m.selectionScore = -m.score)
    ∨ ∃ root, b.frontier.members ≤ {root}

/-- Where nodes are ranked by their bounds, the next one is that of the lowest bound. -/
theorem Queues.ready (h : b.Queues low) : b.Ready low :=
  ⟨h.toBounded, .inl h.ranked⟩

/-- Open nodes may be closed, as long as the order stays what it is. -/
theorem Queues.of_le (h : b.Queues low) (hconsistent : c.frontier.Consistent)
    (hselection : c.frontier.selection = b.frontier.selection) (hscoring : c.scoring = b.scoring)
    (hle : c.frontier.members ≤ b.frontier.members) : c.Queues low :=
  ⟨⟨hconsistent, hselection.trans h.selection, hscoring.trans h.scoring,
    fun m hm => h.low_le m (Multiset.mem_of_le hle hm)⟩,
    fun m hm => h.ranked m (Multiset.mem_of_le hle hm)⟩

/-- Giving out an id changes no rank. -/
theorem Queues.withNextId (h : b.Queues low) (id : Nat) :
    { b with frontier.nextId := id }.Queues low :=
  h.of_le (h.consistent.of_eq rfl rfl rfl rfl) rfl rfl (le_refl _)

/-- As a node becomes open, it is ranked by its bound. -/
theorem Queues.selectionScore_toOpen (h : b.Queues low) (n : Node α) (history : History α) :
    (b.toOpen n history).selectionScore = -n.score := by
  show b.selectionScore n = _
  rw [selectionScore, h.scoring]

variable [Scalar.Ordered α]

/-- The given bound may be lowered. -/
theorem Queues.mono (h : b.Queues score) (hle : low ≤ score) : b.Queues low :=
  { h with low_le := fun m hm => Scalar.Ordered.le_trans hle (h.low_le m hm) }

/-- A node may be offered whose bound is not below the given one and sets its rank. -/
theorem Queues.offer (h : b.Queues low) (hlow : low ≤ m.score)
    (hranked : m.selectionScore = -m.score) : (b.offer m).2.Queues low := by
  have hle := h.consistent.members_insert_le m
  refine ⟨⟨h.consistent.insert m, (Frontier.selection_insert _ _).trans h.selection, h.scoring,
    fun k hk => ?_⟩, fun k hk => ?_⟩ <;>
    rcases Multiset.mem_cons.mp (Multiset.mem_of_le hle hk) with rfl | hk
  · exact hlow
  · exact h.low_le k hk
  · exact hranked
  · exact h.ranked k hk

/-- A node that was evaluated before may be queued. -/
theorem Queues.insertNode (h : b.Queues low) (hlow : low ≤ n.score) :
    (b.insertNode n).2.Queues low := by
  rcases hinsert : b.insertNode n with ⟨answer, c⟩
  rcases insertScored_cases hinsert with ⟨_, -, -, rfl⟩ | ⟨-, rfl⟩
  · exact h
  · have hreserved : { b with frontier := b.frontier.reserveIds n.id }.Queues low :=
      h.withNextId _
    exact hreserved.offer (m := b.toOpen n .unsplit) hlow (h.selectionScore_toOpen n .unsplit)

/-- The bound of a node that is branched is not lowered. -/
theorem low_le_rounded (hlow : low ≤ parent.score) (objective : α) :
    low ≤ (b.rounded parent objective).score := by
  show low ≤ if _ then _ else _
  split
  · exact hlow
  · have hdef := Scalar.Ordered.isNaN_right_of_le hlow
    exact Scalar.Ordered.le_trans hlow (Scalar.le_greatest_left hdef)

/-- A node may be branched whose bound is not below the given one. -/
theorem Branched.queues {point : List α} {objective : α} {outcome : Branching}
    (hbranched : Branched b parent point objective outcome c) (h : b.Queues low)
    (hlow : low ≤ parent.score) : c.Queues low := by
  cases hbranched with
  | dropped => exact h
  | requeued => exact h.offer hlow (h.selectionScore_toOpen _ _)
  | @split i v hv down up d hsplit =>
    have hd : d.Queues low := by
      rw [split_brancher hsplit]
      exact h.withNextId _
    -- the children inherit a score that is not below that of the node
    have hscore := low_le_rounded (b := b) hlow objective
    have hdown : down.selectionScore = -down.score ∧ low ≤ down.score := by
      cases hsplit
      exact ⟨h.selectionScore_toOpen _ _, hscore⟩
    have hup : up.selectionScore = -up.score ∧ low ≤ up.score := by
      cases hsplit
      exact ⟨h.selectionScore_toOpen _ _, hscore⟩
    exact (hd.offer hdown.2 hdown.1).offer hup.2 hup.1

omit [Scalar.Ordered α] in
/-- The children of a node in every dimension become open only if they are queued later. -/
theorem Queues.allChildren (h : b.Queues low) {point : List α} {nodes : List (Node α)}
    (hall : b.allChildren parent point = (.ok nodes, c)) : c.Queues low := by
  rw [(handsOut_allChildren hall).unchanged]
  exact h.of_le (h.consistent.of_eq rfl rfl rfl rfl) rfl rfl (le_refl _)

omit [Scalar.Ordered α] in
/-- Confirming a node opens none. -/
theorem Queues.confirm (h : b.Queues low) (id : Nat) (n : Node α) :
    (b.confirm id n).2.Queues low := by
  obtain ⟨_, _, hconfirm⟩ := b.confirm_frame id n
  rw [hconfirm]
  exact h.of_le h.consistent rfl rfl (le_refl _)

/-- Neither does lowering the threshold. -/
theorem Queues.lowerThreshold (h : b.Queues low) (threshold : α) :
    (b.lowerThreshold threshold).2.Queues low :=
  h.of_le (h.consistent.lowerThreshold threshold) (Frontier.selection_lowerThreshold _ _) rfl
    (h.consistent.members_lowerThreshold_le threshold)

end Brancher

/-! ## Searches -/

namespace Search

variable {low : α} {s t : Search α} {r : Report α} {n : Node α} {stage : Stage} {answer : Bool}

section Ordered

variable [Scalar.Ordered α]

/-- Recording a report opens no node. -/
theorem queues_record (h : s.brancher.Queues low) (r : Report α) :
    (s.record r).2.brancher.Queues low := by
  have haccount : (s.account r).brancher.Queues low := by
    rw [account_eq]
    split
    · next c _ =>
      by_cases hlt : c.value < (s.counted r).incumbent.value
      · rw [offer_of_lt hlt, brancher_noteDiscarded]
        exact h.lowerThreshold c.value
      · rw [offer_of_not_lt hlt]
        exact h
    · exact h
  exact haccount.confirm r.node.id r.node

omit [Scalar.Ordered α] in
/-- Neither does counting a fathomed node. -/
theorem queues_countFathomed (h : s.brancher.Queues low) (r : Report α) :
    (s.countFathomed r).brancher.Queues low :=
  (s.countFathomed_frame r).1 ▸ h

/-- Acting on a recorded report opens nodes whose bounds are not below that of the report. -/
theorem queues_settle (h : s.brancher.Queues low) (hlow : low ≤ r.node.score)
    (hsettle : s.settle r = (.ok stage, t)) : t.brancher.Queues low := by
  cases settlement hsettle with
  | fathomed => exact queues_countFathomed h r
  | twice => exact h
  | branched _ _ hb =>
    rw [(s.requeued_branched r _ _).1]
    exact (Brancher.branch_cases hb).2.queues h hlow

/-- So does taking in a report. -/
theorem queues_apply (h : s.brancher.Queues low) (hlow : low ≤ r.node.score)
    (happly : s.apply r = (.ok stage, t)) : t.brancher.Queues low :=
  queues_settle (queues_record h r) hlow (apply_ok happly).2

/-- And so does queuing a node that was evaluated. -/
theorem queues_insertEvaluated (h : s.brancher.Queues low) (hlow : low ≤ n.score)
    (hinsert : s.insertEvaluated n = (.ok answer, t)) : t.brancher.Queues low := by
  obtain ⟨-, rfl⟩ := Prod.mk.inj hinsert
  exact h.insertNode hlow

end Ordered

/-- The node that is handed out has the lowest bound, and no open node has a lower one then. -/
theorem ready_next [Scalar.Reversing α] (h : s.brancher.Ready low)
    (hnext : s.next = (.ok n, t)) :
    low ≤ n.score ∧ (n.score == s.openBound none) = true ∧ t.brancher.Queues n.score := by
  obtain ⟨m, f, hpop, rfl, rfl⟩ := Async.next_ok hnext
  have hmembers := h.consistent.members_pop hpop
  have hlow : low ≤ m.score := h.low_le m (hmembers ▸ Multiset.mem_cons_self m _)
  have hdef := Scalar.Ordered.isNaN_right_of_le hlow
  have hstays : ∀ k ∈ f.members, m.score ≤ k.score ∧ k.selectionScore = -k.score := by
    intro k hk
    rcases h.ranked with hranked | ⟨root, honly⟩
    · refine ⟨h.consistent.score_le_of_pop h.selection hpop hranked
        (fun j hj => Scalar.Ordered.isNaN_right_of_le (h.low_le j hj)) hk, hranked k ?_⟩
      exact hmembers ▸ Multiset.mem_cons_of_mem hk
    · -- a node that is alone leaves none behind
      rw [hmembers] at honly
      have hcard := Multiset.card_le_card honly
      rw [Multiset.card_cons, Multiset.card_singleton] at hcard
      rw [Multiset.card_eq_zero.mp (Nat.le_zero.mp (Nat.le_of_succ_le_succ hcard))] at hk
      exact absurd hk (Multiset.notMem_zero k)
  refine ⟨hlow, h.consistent.score_beq_lowestScore hpop hdef fun k hk => (hstays k hk).1,
    ⟨⟨h.consistent.pop hpop, ?_, h.scoring, fun k hk => (hstays k hk).1⟩,
      fun k hk => (hstays k hk).2⟩⟩
  obtain ⟨slot, -, -, rfl⟩ := Frontier.pop?_eq_some hpop
  exact h.selection

/-- At the start the root is the only node. -/
theorem ready_new [Scalar.Ordered α] {vars : List (Variable α)} {settings : Settings α}
    (hselection : settings.selection = .bestBound) (hscoring : settings.scoring = .lowBoundFirst)
    (hstart : Search.new vars settings = .ok s) : s.brancher.Ready (-Scalar.infinity) := by
  obtain ⟨valid, -, rfl⟩ := new_eq hstart
  have hf := Brancher.consistent_opening valid settings
  have hempty : (Brancher.opening valid settings).frontier.members = 0 :=
    Multiset.map_eq_zero.mp (Brancher.nodes_opening valid settings)
  have hmembers := hf.members_insert_le ⟨Node.root valid, 0, .unsplit⟩
  rw [hempty] at hmembers
  refine ⟨⟨hf.insert _, ?_, hscoring, fun m hm => ?_⟩, .inr ⟨_, hmembers⟩⟩
  · rw [Frontier.selection_insert]
    exact (Frontier.selection_setSelection _ _).trans hselection
  · rw [Multiset.mem_singleton.mp (Multiset.mem_of_le hmembers hm)]
    have hdef : Scalar.isNaN (-Scalar.infinity : α) = false :=
      Scalar.Ordered.isNaN_left_of_le
        (Scalar.Ordered.neg_infinity_le Scalar.Ordered.isNaN_infinity)
    exact Scalar.Ordered.le_refl hdef

end Search

/-! ## Rounds -/

namespace Serial

variable {low : α} {solvers : Solvers σ α} {run after last : Run σ α} {n m : Node α}
  {r : Report α} {nodes : List (Node α)} {reports : List (Report α)} {stage : Stage}

/-- In the next round a node is handed out. -/
def Pops (solvers : Solvers σ α) (run : Run σ α) (n : Node α) : Prop :=
  (now solvers run).check none = none ∧ ∃ t, (now solvers run).next = (.ok n, t)

section Ordered

variable [Scalar.Ordered α]

/-- Processing a node does not lower its bound. -/
theorem low_le_of_returns {cutoff : Cutoff α} {before left : σ}
    (hs : solvers.Tighten Node.Rebounded) (hlow : low ≤ n.score)
    (h : (processNode solvers n cutoff).Returns before r left) : low ≤ r.node.score :=
  Scalar.Ordered.le_trans hlow
    (Report.concludes_of_returns hs (Scalar.Ordered.isNaN_right_of_le hlow) h).score_le

/-- Processing children opens no node, and lowers no bound. -/
theorem queues_evaluate (hs : solvers.Tighten Node.Rebounded)
    (h : run.search.brancher.Queues low) (hlow : ∀ c ∈ nodes, low ≤ c.score)
    (hevaluate : (evaluate solvers nodes).exec run = (.ok reports, after)) :
    after.search.brancher.Queues low ∧ ∀ r ∈ reports, low ≤ r.node.score := by
  induction nodes generalizing run reports with
  | nil =>
    cases hevaluate
    exact ⟨h, fun r hr => absurd hr List.not_mem_nil⟩
  | cons n rest ih =>
    obtain ⟨r, memory, others, hreturns, -, hrest, rfl⟩ := evaluate_cons_ok hevaluate
    obtain ⟨hn, hlower⟩ := List.forall_mem_cons.mp hlow
    obtain ⟨hafter, hothers⟩ := ih (Search.queues_record h r) hlower hrest
    exact ⟨hafter, List.forall_mem_cons.mpr ⟨low_le_of_returns hs hn hreturns, hothers⟩⟩

/-- A child may be kept whose bound is not below the given one. -/
theorem queues_keep (h : run.search.brancher.Queues low) (hlow : low ≤ r.node.score)
    (hkeep : (keep r : Work σ α Unit).exec run = (.ok (), after)) :
    after.search.brancher.Queues low := by
  rcases keep_ok hkeep with ⟨-, taken, hinsert⟩ | ⟨-, hcount⟩
  · exact Search.queues_insertEvaluated h hlow hinsert
  · rw [hcount]
    exact Search.queues_countFathomed h r

/-- Strong branching keeps children whose bounds are not below that of their parent. -/
theorem queues_strongBranch (hs : solvers.Tighten Node.Rebounded)
    (h : run.search.brancher.Queues low) (hlow : low ≤ r.node.score)
    (hstrong : (strongBranch solvers r).exec run = (.ok stage, after)) :
    after.search.brancher.Queues low := by
  obtain ⟨nodes, b, reports, evaluated, -, hall, hevaluate, hkeep⟩ := strongBranch_ok hstrong
  have hchildren : ∀ c ∈ nodes, low ≤ c.score := by
    intro c hc
    obtain ⟨box, id, rfl⟩ := Brancher.exists_child_of_allChildren hall hc
    exact hlow
  obtain ⟨hevaluated, hreports⟩ :=
    queues_evaluate hs ((Search.queues_record h r).allChildren hall) hchildren hevaluate
  rcases keepBest_ok hkeep with ⟨-, hdropped⟩ | ⟨q, hq, first, second, hfirst, hsecond, hbranched⟩
  · rw [hdropped]
    exact hevaluated
  · obtain ⟨hdown, hup⟩ := mem_of_mem_pairs hq
    rw [hbranched]
    exact queues_keep (queues_keep hevaluated (hreports _ hdown) hfirst) (hreports _ hup) hsecond

/-- However a node is concluded, no bound comes in below that of its report. -/
theorem queues_conclude (hs : solvers.Tighten Node.Rebounded) {depth : Nat}
    (h : run.search.brancher.Queues low) (hlow : low ≤ r.node.score)
    (hconclude : (conclude solvers depth r).exec run = (.ok stage, after)) :
    after.search.brancher.Queues low := by
  rcases conclude_ok hconclude with happly | ⟨-, -, hstrong⟩
  · exact Search.queues_apply h hlow happly
  · exact queues_strongBranch hs h hlow hstrong

end Ordered

variable [Scalar.Reversing α]

/-- A round hands out the node of the lowest bound, and no bound comes in below that. -/
theorem queues_round (hs : solvers.Tighten Node.Rebounded) (h : run.search.brancher.Ready low)
    (hround : (round solvers).exec run = (.ok none, after)) :
    ∃ n t, (now solvers run).next = (.ok n, t) ∧ low ≤ n.score
      ∧ after.search.brancher.Queues n.score := by
  have hrounded := exec_round solvers run
  rw [hround] at hrounded
  cases hrounded with
  | @next n t r memory stage _ hnext hprocess hconclude =>
    obtain ⟨hlow, -, ht⟩ := Search.ready_next (s := now solvers run) h hnext
    have hn := Scalar.Ordered.le_refl (Scalar.Ordered.isNaN_right_of_le hlow)
    exact ⟨n, t, hnext, hlow,
      queues_conclude hs ht (low_le_of_returns hs hn hprocess) hconclude⟩

/-- No bound comes in below one that was reached. -/
theorem queues_rounds (hs : solvers.Tighten Node.Rebounded) (h : run.search.brancher.Queues low)
    (hrounds : Rounds solvers run last) : last.search.brancher.Queues low := by
  induction hrounds with
  | refl => exact h
  | tail _ hround ih =>
    obtain ⟨n, t, -, hlow, hafter⟩ := queues_round hs ih.ready hround
    exact hafter.mono hlow

/-- Before every round of a search that takes the best bound first, the next node to come out is
that of the lowest bound. -/
theorem ready_rounds {vars : List (Variable α)} {settings : Settings α} {start : Search α}
    {memory : σ} (hselection : settings.selection = .bestBound)
    (hscoring : settings.scoring = .lowBoundFirst) (hs : solvers.Tighten Node.Rebounded)
    (hstart : Search.new vars settings = .ok start)
    (hrounds : Rounds solvers ⟨start, memory⟩ run) :
    run.search.brancher.Ready (-Scalar.infinity) := by
  have hready := Search.ready_new hselection hscoring hstart
  rcases hrounds.cases_head with rfl | ⟨first, hround, hrest⟩
  · exact hready
  · obtain ⟨n, t, -, hlow, hfirst⟩ := queues_round hs hready hround
    exact (queues_rounds hs (hfirst.mono hlow) hrest).ready

/-- The search hands out its nodes in the order of their bounds: each node that is handed out has
the lowest bound of all open nodes, and no node that is handed out later has a lower one. -/
theorem pops_in_order {vars : List (Variable α)} {settings : Settings α} {start : Search α}
    {memory : σ} (hselection : settings.selection = .bestBound)
    (hscoring : settings.scoring = .lowBoundFirst) (hs : solvers.Tighten Node.Rebounded)
    (hstart : Search.new vars settings = .ok start)
    (hrounds : Rounds solvers ⟨start, memory⟩ run) (hn : Pops solvers run n) :
    (n.score == (now solvers run).openBound none) = true
      ∧ ∀ after later m, (round solvers).exec run = (.ok none, after) →
        Rounds solvers after later → Pops solvers later m → n.score ≤ m.score := by
  have hready := ready_rounds hselection hscoring hs hstart hrounds
  obtain ⟨-, t, hnext⟩ := hn
  obtain ⟨-, hlowest, -⟩ := Search.ready_next (s := now solvers run) hready hnext
  refine ⟨hlowest, fun after later m hround hlater hm => ?_⟩
  obtain ⟨k, u, hk, -, hafter⟩ := queues_round hs hready hround
  obtain rfl : k = n := Except.ok.inj (congrArg Prod.fst (hk.symm.trans hnext))
  obtain ⟨-, v, hpop⟩ := hm
  exact (Search.ready_next (s := now solvers later) (queues_rounds hs hafter hlater).ready hpop).1

/-! ## A sample search -/

section Sample

omit [Scalar.Reversing α]

/-- The run after so many rounds. -/
def afterRounds (solvers : Solvers σ α) (run : Run σ α) : ℕ → Run σ α
  | 0 => run
  | k + 1 => ((round solvers).exec (afterRounds solvers run k)).2

/-- A node is handed out if the search goes on and has one. -/
theorem pops_of_next (hcheck : (now solvers run).check none = none)
    (hnext : (now solvers run).next.1 = .ok n) : Pops solvers run n :=
  ⟨hcheck, (now solvers run).next.2, Prod.ext hnext rfl⟩

/-- One round more leads to the next of these runs. -/
theorem exec_afterRounds {k : ℕ}
    (h : ((round solvers).exec (afterRounds solvers run k)).1.toOption = some none) :
    (round solvers).exec (afterRounds solvers run k)
      = (.ok none, afterRounds solvers run (k + 1)) := by
  obtain ⟨status, hok, rfl⟩ := exists_eq_ok ⟨none, h, rfl⟩
  exact Prod.ext hok rfl

/-- Rounds that do not end the search lead from one of these runs to a later one. -/
theorem rounds_afterRounds {j k : ℕ} (hle : j ≤ k)
    (h : ∀ i < k, ((round solvers).exec (afterRounds solvers run i)).1.toOption = some none) :
    Rounds solvers (afterRounds solvers run j) (afterRounds solvers run k) := by
  induction k, hle using Nat.le_induction with
  | base => exact .refl
  | succ k _ ih =>
    exact (ih fun i hi => h i (Nat.lt_succ_of_lt hi)).tail (exec_afterRounds (h k k.lt_succ_self))

/-- Solvers that bound a node by its lower end. -/
def risingSolvers : Solvers Unit (Extended ℚ) := .barren id fun n => some (n.box.lowerAt 0)

/-- They leave boxes as they are. -/
theorem tighten_risingSolvers : risingSolvers.Tighten Node.Rebounded where
  preprocess h := by
    obtain ⟨-, rfl⟩ := Prod.mk.inj (Call.returns_pure h)
    exact ⟨_, rfl⟩
  postprocess h := by
    obtain ⟨-, rfl⟩ := Prod.mk.inj (Call.returns_pure h)
    exact ⟨_, rfl⟩

/-- The root is branched strongly. -/
def risingSettings : Settings (Extended ℚ) := { Settings.standard with strongDepth := 1 }

/-- The fifth node that is handed out has the bound zero, the seventh one the bound two. -/
theorem exists_risingRun : ∃ start ∈ (Search.new Async.sampleVars risingSettings).toOption,
    (∀ i < 6, ((round risingSolvers).exec (afterRounds risingSolvers ⟨start, ()⟩ i)).1.toOption
      = some none)
    ∧ (now risingSolvers (afterRounds risingSolvers ⟨start, ()⟩ 4)).check none = none
    ∧ (∃ n ∈ (now risingSolvers (afterRounds risingSolvers ⟨start, ()⟩ 4)).next.1.toOption,
      n.score = 0)
    ∧ (now risingSolvers (afterRounds risingSolvers ⟨start, ()⟩ 6)).check none = none
    ∧ ∃ m ∈ (now risingSolvers (afterRounds risingSolvers ⟨start, ()⟩ 6)).next.1.toOption,
      m.score = .point 2 := by
  decide +kernel

/-- They come in the order of their bounds. -/
theorem pops_in_order_risingSolvers : ∃ start run after later n m,
    Search.new Async.sampleVars risingSettings = .ok start
      ∧ Rounds risingSolvers ⟨start, ()⟩ run ∧ Pops risingSolvers run n
      ∧ (round risingSolvers).exec run = (.ok none, after)
      ∧ Rounds risingSolvers after later ∧ Pops risingSolvers later m
      ∧ n.score = 0 ∧ m.score = .point 2
      ∧ (n.score == (now risingSolvers run).openBound none) = true ∧ n.score ≤ m.score := by
  obtain ⟨start, hstart, hrounds, hgoes, hn, hgoesOn, hm⟩ := exists_eq_ok exists_risingRun
  obtain ⟨n, hfirst, hnscore⟩ := exists_eq_ok hn
  obtain ⟨m, hsecond, hmscore⟩ := exists_eq_ok hm
  -- four rounds, the one that hands out the first node, and one more
  have hbefore : Rounds risingSolvers ⟨start, ()⟩ (afterRounds risingSolvers ⟨start, ()⟩ 4) :=
    rounds_afterRounds (j := 0) (Nat.zero_le 4) fun i hi => hrounds i (hi.trans (by decide))
  have hround : (round risingSolvers).exec (afterRounds risingSolvers ⟨start, ()⟩ 4)
      = (.ok none, afterRounds risingSolvers ⟨start, ()⟩ 5) :=
    exec_afterRounds (hrounds 4 (by decide))
  have hlater : Rounds risingSolvers (afterRounds risingSolvers ⟨start, ()⟩ 5)
      (afterRounds risingSolvers ⟨start, ()⟩ 6) := rounds_afterRounds (by decide) hrounds
  have hpops := pops_of_next hgoes hfirst
  have hpopsLater := pops_of_next hgoesOn hsecond
  obtain ⟨hlowest, hinOrder⟩ := pops_in_order rfl rfl tighten_risingSolvers hstart hbefore hpops
  exact ⟨start, _, _, _, n, m, hstart, hbefore, hpops, hround, hlater, hpopsLater, hnscore,
    hmscore, hlowest, hinOrder _ _ m hround hlater hpopsLater⟩

end Sample

end Serial

end BranchBound
