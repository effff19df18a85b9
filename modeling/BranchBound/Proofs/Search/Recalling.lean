import BranchBound.Proofs.Search.Exhaustion

/-! # What is remembered of nodes

Of a node that is open, and then of one that is out, the search remembers the score and the history
of the node. A report can be recorded if its node is waited for and the history of the node names a
variable, which all histories do. Scores are inherited: what is said of the scores of all nodes is
kept as long as it is said of the nodes that are queued.

* **`Brancher.exists_split`** — when a node is split.
* **`Search.Recalls P s`** — `P` is true of the remembered scores, and the histories name variables.
* **`Recalls.record_ok`** — the reports on nodes that are waited for can be recorded.
* **`Recalls.next`**, **`Recalls.record`**, **`Recalls.branched`**, **`Recalls.strongChildren`**,
  **`Recalls.insertEvaluated`** — what the operations keep.
* **`Search.Fruitless P s`** — no point was found besides; the operations keep that as well, as long
  as reports bring none. -/

namespace BranchBound

variable {α : Type} [Scalar α]

namespace Waiting

omit [Scalar α] in
/-- The nodes that are waited for stay so when one more is handed out. -/
theorem mem_ids_insert {w : Waiting α} {id other : Nat} {entry : HandedOut α} :
    other ∈ (w.insert id entry).ids ↔ other = id ∨ other ∈ w.ids := by
  rw [ids_insert, List.mem_cons, List.mem_filter, decide_eq_true_eq]
  tauto

omit [Scalar α] in
/-- The nodes that are waited for stay so when another one comes back. -/
theorem mem_ids_erase {w : Waiting α} {id other : Nat} :
    other ∈ (w.erase id).ids ↔ other ∈ w.ids ∧ other ≠ id := by
  rw [ids_erase, List.mem_filter, decide_eq_true_eq]

end Waiting

namespace Brancher

variable {b c : Brancher α} {parent : Node α} {point : List α} {objective tolerance : α}
  {outcome : Branching} {e : Nat × HandedOut α} {i : Nat} {v : Variable α}

/-- Branching waits for no node. -/
theorem Branched.waiting (h : Branched b parent point objective outcome c) :
    c.waiting = b.waiting := by
  cases h with
  | dropped => rfl
  | requeued => rfl
  | @split i v hv down up d hsplit =>
    show d.waiting = b.waiting
    rw [split_brancher hsplit]

/-- Branching teaches nothing. -/
theorem Branched.pseudocosts (h : Branched b parent point objective outcome c) :
    c.pseudocosts = b.pseudocosts := by
  cases h with
  | dropped => rfl
  | requeued => rfl
  | @split i v hv down up d hsplit =>
    show d.pseudocosts = b.pseudocosts
    rw [split_brancher hsplit]

/-- What is remembered once the children in every dimension were handed out is what was remembered
before and what is remembered of them. -/
theorem mem_waiting_allChildren (he : e ∈ (b.allChildren parent point).2.waiting) :
    e.2.score = parent.score ∧ e.2.history.Known b.vars.length ∨ e ∈ b.waiting := by
  refine allChildren_frame (motive := fun c => ∀ e ∈ c.waiting,
    e.2.score = parent.score ∧ e.2.history.Known b.vars.length ∨ e ∈ b.waiting) parent point
    (fun _ he => .inr he) ?_ e he
  intro d i v down up c hv hsplit hd e he
  obtain ⟨hdown, hup⟩ := split_nodes hsplit
  obtain ⟨hdownKnown, hupKnown⟩ :=
    split_histories hsplit (List.getElem?_eq_some_iff.mp hv).1
  rw [handOut_split hsplit] at he
  rcases Waiting.mem_insert he with rfl | he
  · exact .inl ⟨by rw [OpenNode.score, hup]; rfl, hupKnown⟩
  · rcases Waiting.mem_insert he with rfl | he
    · exact .inl ⟨by rw [OpenNode.score, hdown]; rfl, hdownKnown⟩
    · exact hd e he

/-- A node that is wide enough is split in the dimension that is chosen. -/
theorem exists_split (point : List α) (objective tolerance : α)
    (hdim : b.dimensionFault? parent = none)
    (hfull : (roundDiscrete b.vars parent.box).isEmpty = false)
    (hpoint : (roundDiscrete b.vars parent.box).isPoint = false)
    (hwide : b.isBelowTolerance (roundDiscrete b.vars parent.box) tolerance = false)
    (hchoose : b.choose (roundDiscrete b.vars parent.box) point = some i)
    (hv : b.vars[i]? = some v) :
    ∃ k l c, b.branch parent point objective tolerance = (.ok (.split i k l), c) := by
  have hok : ∃ outcome c, b.branch parent point objective tolerance = (.ok outcome, c) :=
    exists_branch_eq_ok hdim fun _ _ _ => ⟨i, v, hchoose, hv⟩
  obtain ⟨outcome, c, hbranch⟩ := hok
  have hjustified := branch_justified hbranch
  -- each of the other outcomes contradicts one of the conditions
  cases outcome with
  | dropped =>
    rcases hjustified with hempty | ⟨-, hbelow⟩
    · exact absurd (hempty.symm.trans hfull) (by decide)
    · exact absurd (hbelow.symm.trans hwide) (by decide)
  | requeued => exact absurd (hjustified.2.symm.trans hpoint) (by decide)
  | split j k l =>
    obtain rfl := Option.some.inj (hchoose.symm.trans hjustified.2.2)
    exact ⟨k, l, c, hbranch⟩

end Brancher

namespace Search

variable {s t : Search α} {n : Node α} {r : Report α} {P : α → Prop} {b : Brancher α} {i k l : Nat}

/-- Something is true of the remembered scores of the nodes that are open or out, and their
histories name variables. -/
structure Recalls (P : α → Prop) (s : Search α) : Prop where
  /-- The frontier is consistent. -/
  consistent : s.brancher.frontier.Consistent
  /-- The nodes that are open. -/
  opened : ∀ m ∈ s.brancher.frontier.members,
    P m.score ∧ m.history.Known s.brancher.vars.length
  /-- The nodes that are out. -/
  waited : ∀ e ∈ s.brancher.waiting,
    P e.2.score ∧ e.2.history.Known s.brancher.vars.length

/-- A report that brings no point leaves the frontier and the incumbent as they are. -/
theorem record_of_candidate_none (h : r.candidate = none) :
    (s.record r).2.brancher.frontier = s.brancher.frontier
      ∧ (s.record r).2.incumbent = s.incumbent := by
  have haccount : s.account r = s.counted r := by rw [account_eq, h]
  refine ⟨(confirm_frontier (s.account r).brancher r.node.id r.node).1.trans ?_, ?_⟩
  · rw [haccount]
    rfl
  · show (s.account r).incumbent = _
    rw [haccount]
    rfl

/-- A report that can be recorded, and whose node is split then, is taken in. -/
theorem apply_eq_branched (hrecord : (s.record r).1 = .ok ()) (hstage : r.stage = .postprocessed)
    (hpoint : r.node.box.isPoint = false)
    (hbranch : (s.record r).2.brancher.branch r.node r.point r.lowerBound
      (s.record r).2.settings.sizeTolerance = (.ok (.split i k l), b)) :
    s.apply r = (.ok .branched, (s.record r).2.branched r b (.split i k l)) := by
  have honce : ¬ (r.node.box.isPoint = true ∧ r.node.id ∈ (s.record r).2.requeued) := by
    rw [hpoint]
    exact fun h => Bool.false_ne_true h.1
  rw [apply_of_record hrecord]
  exact (Settlement.branched hstage honce hbranch).settle_eq

variable [Scalar.Ordered α]

/-- A search recalls the score of its root. -/
theorem Recalls.new {vars : List (Variable α)} {settings : Settings α}
    (hstart : Search.new vars settings = .ok s) (hP : P (-Scalar.infinity)) : s.Recalls P := by
  obtain ⟨-, -, -, f, hf, hnodes, -, hfrontier⟩ := new_ok hstart
  have hempty : f.members = 0 := Multiset.map_eq_zero.mp hnodes
  have hmembers := hf.members_insert_le ⟨Node.root s.brancher.vars, 0, .unsplit⟩
  rw [hempty, ← hfrontier] at hmembers
  refine ⟨hfrontier ▸ hf.insert _, fun m hm => ?_, fun e he => ?_⟩
  · rw [Multiset.mem_singleton.mp (Multiset.mem_of_le hmembers hm)]
    exact ⟨hP, nofun⟩
  · rw [(new_frame hstart).2.1] at he
    cases he

/-- What is remembered of a node that is handed out was so before. -/
theorem Recalls.next (h : s.Recalls P) (hnext : s.next = (.ok n, t)) :
    t.Recalls P ∧ P n.score ∧ n.id ∈ t.brancher.waiting.ids
      ∧ s.brancher.frontier.nodes = n ::ₘ t.brancher.frontier.nodes
      ∧ ∀ id ∈ s.brancher.waiting.ids, id ∈ t.brancher.waiting.ids := by
  obtain ⟨m, f, hpop, rfl, rfl⟩ := Async.next_ok hnext
  have hmembers := h.consistent.members_pop hpop
  have hm := h.opened m (hmembers ▸ Multiset.mem_cons_self _ _)
  refine ⟨⟨h.consistent.pop hpop, fun k hk => h.opened k (hmembers ▸ Multiset.mem_cons_of_mem hk),
    fun e he => ?_⟩, hm.1, Waiting.mem_ids_insert.mpr (.inl rfl), h.consistent.nodes_pop hpop,
    fun id hid => Waiting.mem_ids_insert.mpr (.inr hid)⟩
  rcases Waiting.mem_insert he with rfl | he
  · exact hm
  · exact h.waited e he

/-- A report on a node that is waited for can be recorded, and the other nodes are still waited
for. -/
theorem Recalls.record_ok (h : s.Recalls P) (hid : r.node.id ∈ s.brancher.waiting.ids) :
    (s.record r).1 = .ok ()
      ∧ (s.record r).2.brancher.waiting = s.brancher.waiting.erase r.node.id := by
  have hwaiting := (s.account_frame r).1
  have hvars : (s.account r).brancher.vars = s.brancher.vars :=
    (confirm_frontier (s.account r).brancher r.node.id r.node).2.symm.trans
      (s.keeps_record h.consistent r).vars
  rcases Brancher.confirm_cases (b := (s.account r).brancher)
    (by rw [hwaiting, hvars]; exact fun e he => (h.waited e he).2) r.node.id r.node
    with ⟨-, _, hconfirm⟩ | ⟨hnot, -⟩
  · refine ⟨?_, ?_⟩
    · show ((s.account r).brancher.confirm r.node.id r.node).1 = .ok ()
      rw [hconfirm]
    · show ((s.account r).brancher.confirm r.node.id r.node).2.waiting = _
      rw [hconfirm, ← hwaiting]
  · rw [hwaiting] at hnot
    exact absurd hid hnot

/-- Recording a report forgets a node at most. -/
theorem Recalls.record (h : s.Recalls P) (r : Report α) : (s.record r).2.Recalls P := by
  have hkeeps := s.keeps_record h.consistent r
  refine ⟨hkeeps.consistent, fun m hm => ?_, fun e he => ?_⟩ <;> rw [hkeeps.vars]
  · exact h.opened m (Multiset.mem_of_le (members_record_le h.consistent r) hm)
  · refine h.waited e ?_
    rw [← (s.account_frame r).1]
    have he : e ∈ ((s.account r).brancher.confirm r.node.id r.node).2.waiting := he
    rcases hconfirm : (s.account r).brancher.confirm r.node.id r.node with ⟨answer, c⟩
    rw [hconfirm] at he
    cases Brancher.confirm_exit hconfirm with
    | unknown => exact he
    | unsplit | stray | learned => exact (List.mem_filter.mp he).1

/-- A search whose brancher has branched a node recalls the scores that come of it. -/
theorem Recalls.branched (h : s.Recalls P) {b : Brancher α} {outcome : Brancher.Branching}
    (hbranched : Brancher.Branched s.brancher r.node r.point r.lowerBound outcome b)
    (hopened : ∀ m ∈ s.brancher.opened r.node r.lowerBound outcome, P m.score) :
    (s.branched r b outcome).Recalls P := by
  obtain ⟨new, hmembers, hnew, hknown⟩ := hbranched.members_le h.consistent
  rw [← hnew] at hopened
  obtain ⟨hbrancher, -⟩ := s.requeued_branched r b outcome
  refine ⟨?_, fun m hm => ?_, fun e he => ?_⟩ <;> rw [hbrancher] at *
  · exact hbranched.consistent h.consistent
  · rw [hbranched.vars]
    rcases Multiset.mem_add.mp (Multiset.mem_of_le hmembers hm) with hm | hm
    · exact ⟨hopened m.node (Multiset.mem_map_of_mem _ hm), hknown m hm⟩
    · exact h.opened m hm
  · rw [hbranched.vars]
    rw [hbranched.waiting] at he
    exact h.waited e he

omit [Scalar.Ordered α] in
/-- The children in every dimension are waited for, and inherit what is said of the score of their
parent. -/
theorem Recalls.strongChildren (h : s.Recalls P) (hP : P r.node.score) :
    (s.strongChildren r).2.Recalls P := by
  obtain ⟨_, hfrontier, hvars⟩ := s.brancher.allChildren_frontier r.node r.point
  refine ⟨?_, fun m hm => ?_, fun e he => ?_⟩ <;>
    simp only [Search.strongChildren, hfrontier, hvars] at *
  · exact h.consistent.withNextId _
  · exact h.opened m hm
  · rcases Brancher.mem_waiting_allChildren he with ⟨hscore, hknown⟩ | he
    · exact ⟨hscore ▸ hP, hknown⟩
    · exact h.waited e he

/-- Queuing a node that was evaluated recalls its score. -/
theorem Recalls.insertEvaluated (h : s.Recalls P) (hP : P n.score) :
    (s.insertEvaluated n).2.Recalls P := by
  rcases s.insertEvaluated_cases n with hsame | hqueued
  · rw [hsame]
    exact h
  · rw [hqueued]
    have hreserved := h.consistent.reserveIds n.id
    refine ⟨hreserved.insert _, fun m hm => ?_, h.waited⟩
    rcases Multiset.mem_cons.mp (Multiset.mem_of_le (hreserved.members_insert_le _) hm)
      with rfl | hm
    · exact ⟨hP, nofun⟩
    · exact h.opened m hm

/-! ## Searches that find no point -/

/-- Besides what is true of the remembered scores, no point was found, and no node is of no
interest. -/
structure Fruitless (P : α → Prop) (s : Search α) : Prop extends Recalls P s where
  /-- There is no incumbent. -/
  incumbent : s.incumbent.value = Scalar.infinity
  /-- There is no threshold. -/
  threshold : s.brancher.frontier.threshold = Scalar.infinity

omit [Scalar.Ordered α] in
/-- No point is known at the start. -/
theorem Fruitless.new [Scalar.Congruent α] {vars : List (Variable α)} {settings : Settings α}
    (hstart : Search.new vars settings = .ok s) (hP : P (-Scalar.infinity)) : s.Fruitless P := by
  have hnone : s.incumbent.value = Scalar.infinity := by
    rw [(new_frame hstart).1]
    rfl
  exact ⟨.new hstart hP, hnone, (Agrees.new hstart).threshold.trans hnone⟩

omit [Scalar.Ordered α] in
/-- Only a score that is infinite is of no interest. -/
theorem Fruitless.live [Scalar.Congruent α] (h : s.Fruitless P) {score : α}
    (hscore : ¬ Scalar.infinity ≤ score) :
    s.brancher.frontier.dominates score = false ∧ s.cutoff.dominates score = false := by
  have hadjusted : ∀ rel abs : α, toleranceAdjusted Scalar.infinity rel abs = Scalar.infinity := by
    intro rel abs
    rw [toleranceAdjusted, Scalar.Congruent.isFinite_infinity]
    rfl
  constructor
  · rw [Frontier.dominates, Frontier.adjustedThreshold, h.threshold, hadjusted]
    exact decide_eq_false hscore
  · show decide (toleranceAdjusted s.incumbent.value _ _ ≤ score) = false
    rw [h.incumbent, hadjusted]
    exact decide_eq_false hscore

/-- Handing out a node finds no point. -/
theorem Fruitless.next (h : s.Fruitless P) (hnext : s.next = (.ok n, t)) : t.Fruitless P := by
  refine ⟨(h.toRecalls.next hnext).1, ?_, ?_⟩ <;> obtain ⟨m, f, hpop, -, rfl⟩ := Async.next_ok hnext
  · exact h.incumbent
  · exact (Frontier.sameLimits_pop hpop).threshold.trans h.threshold

/-- A report may bring none. -/
theorem Fruitless.record (h : s.Fruitless P) (hnone : r.candidate = none) :
    (s.record r).2.Fruitless P := by
  obtain ⟨hfrontier, hincumbent⟩ := record_of_candidate_none (s := s) hnone
  exact ⟨h.toRecalls.record r, by rw [hincumbent, h.incumbent], by rw [hfrontier, h.threshold]⟩

/-- Branching a node finds no point. -/
theorem Fruitless.branched (h : s.Fruitless P) {b : Brancher α} {outcome : Brancher.Branching}
    (hbranched : Brancher.Branched s.brancher r.node r.point r.lowerBound outcome b)
    (hopened : ∀ m ∈ s.brancher.opened r.node r.lowerBound outcome, P m.score) :
    (s.branched r b outcome).Fruitless P := by
  refine ⟨h.toRecalls.branched hbranched hopened, ?_, ?_⟩
  · cases outcome with
    | requeued | split => exact h.incumbent
    | dropped =>
      show (Search.noteDiscarded _ _).incumbent.value = _
      rw [incumbent_noteDiscarded]
      exact h.incumbent
  · rw [(s.requeued_branched r b outcome).1]
    exact hbranched.sameLimits.threshold.trans h.threshold

omit [Scalar.Ordered α] in
/-- Nor does making the children in every dimension. -/
theorem Fruitless.strongChildren (h : s.Fruitless P) (hP : P r.node.score) :
    (s.strongChildren r).2.Fruitless P := by
  obtain ⟨_, hfrontier, -⟩ := s.brancher.allChildren_frontier r.node r.point
  refine ⟨h.toRecalls.strongChildren hP, h.incumbent, ?_⟩
  show (s.brancher.allChildren r.node r.point).2.frontier.threshold = _
  rw [hfrontier]
  exact h.threshold

/-- Nor does queuing a node. -/
theorem Fruitless.insertEvaluated (h : s.Fruitless P) (hP : P n.score) :
    (s.insertEvaluated n).2.Fruitless P := by
  refine ⟨h.toRecalls.insertEvaluated hP, h.incumbent, ?_⟩
  rcases s.insertEvaluated_cases n with hsame | hqueued
  · rw [hsame]
    exact h.threshold
  · rw [hqueued]
    exact (Frontier.sameLimits_insert _ _).threshold.trans h.threshold

omit [Scalar.Ordered α] in
/-- Nor does counting a fathomed one. -/
theorem Fruitless.countFathomed (h : s.Fruitless P) (r : Report α) :
    (s.countFathomed r).Fruitless P := by
  obtain ⟨hbrancher, hincumbent⟩ := s.countFathomed_frame r
  refine ⟨⟨?_, ?_, ?_⟩, ?_, ?_⟩ <;> first | rw [hbrancher] | rw [hincumbent]
  · exact h.consistent
  · exact h.opened
  · exact h.waited
  · exact h.incumbent
  · exact h.threshold

end Search

end BranchBound
