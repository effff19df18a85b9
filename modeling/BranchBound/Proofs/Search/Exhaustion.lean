import BranchBound.Proofs.Brancher.Charges
import BranchBound.Proofs.Search.Waiting
import Mathlib.Algebra.Order.BigOperators.Group.Multiset

/-! # Searches over whole numbers come to an end

A search whose variables are all discrete cannot go on for ever. Every open node can pay for its
own processing and for that of all nodes that come of it (`Node.charge`), so the nodes that are
processed and what the open ones can still pay for keep within the limit set by the root.

* **`Search.Charged`** — processed nodes and the charges of the open ones keep within a limit.
  `Charged.next` and `Charged.apply` say so of handing out a node and of taking in its report, which
  succeeds.
* **`Serial.exec_round_charged`** — a round ends the search or keeps the limit; it does not fail.
* **`Serial.search_exhausts`** — a search over whole numbers ends without an error after it
  processed fewer nodes than three times the whole points of its domain. -/

namespace BranchBound

variable {σ α : Type} [Scalar α]

namespace Search

variable {s t : Search α} {r : Report α} {stage : Stage}

/-- Recording a report opens no node. -/
theorem members_record_le (hs : s.brancher.frontier.Consistent) (r : Report α) :
    (s.record r).2.brancher.frontier.members ≤ s.brancher.frontier.members := by
  have hfrontier : (s.record r).2.brancher.frontier = (s.account r).brancher.frontier :=
    (confirm_frontier (s.account r).brancher r.node.id r.node).1
  rw [hfrontier, account_eq]
  split
  · next c _ =>
    by_cases hlt : c.value < (s.counted r).incumbent.value
    · rw [offer_of_lt hlt, brancher_noteDiscarded]
      exact hs.members_lowerThreshold_le c.value
    · rw [offer_of_not_lt hlt]
      exact le_refl _
  · exact le_refl _

/-! ## Charges -/

/-- A search over whole numbers whose processed nodes, and those that the open ones can pay for,
keep within a limit. -/
structure Charged (s : Search α) (limit : Nat) : Prop where
  /-- The frontier is consistent. -/
  consistent : s.brancher.frontier.Consistent
  /-- The variables have whole bounds. -/
  vars : ∀ v ∈ s.brancher.vars, v.IsGrid
  /-- So have the open nodes. -/
  grids : ∀ m ∈ s.brancher.frontier.members, m.node.box.IsGrid s.brancher.vars
  /-- They come out of splits in dimensions that there are. -/
  histories : ∀ m ∈ s.brancher.frontier.members, m.history.Known s.brancher.vars.length
  /-- The processed nodes and the charges keep within the limit. -/
  processed : s.stats.processed
    + (s.brancher.frontier.members.map fun m => m.node.charge s.requeued).sum ≤ limit

variable {left limit : Nat} {n : Node α}

/-- The charges depend on the tree, the noted ids and the number of processed nodes. -/
theorem Charged.of_eq (h : s.Charged limit) (hbrancher : t.brancher = s.brancher)
    (hrequeued : t.requeued = s.requeued) (hprocessed : t.stats.processed = s.stats.processed) :
    t.Charged limit := by
  refine ⟨?_, ?_, ?_, ?_, ?_⟩ <;> simp only [hbrancher, hrequeued, hprocessed]
  · exact h.consistent
  · exact h.vars
  · exact h.grids
  · exact h.histories
  · exact h.processed

/-- The limit may be raised. -/
theorem Charged.mono (h : s.Charged left) (hle : left ≤ limit) : s.Charged limit :=
  ⟨h.consistent, h.vars, h.grids, h.histories, h.processed.trans hle⟩

/-- Open nodes may be closed. -/
theorem Charged.sum_le {others members : Multiset (OpenNode α)} (hle : others ≤ members)
    (requeued : List Nat) :
    (others.map fun m => m.node.charge requeued).sum
      ≤ (members.map fun m => m.node.charge requeued).sum := by
  obtain ⟨rest, rfl⟩ := Multiset.le_iff_exists_add.mp hle
  rw [Multiset.map_add, Multiset.sum_add]
  exact Nat.le_add_right _ _

variable [Scalar.Discrete α]

/-- A node that is handed out takes what it can pay for out of the limit. -/
theorem Charged.next (h : s.Charged limit) (hnext : s.next = (.ok n, t)) :
    n.box.IsGrid t.brancher.vars
      ∧ ∃ left, left + n.charge t.requeued = limit ∧ t.Charged left := by
  obtain ⟨m, f, hpop, rfl, rfl⟩ := Async.next_ok hnext
  have hmembers := h.consistent.members_pop hpop
  have hmem : m ∈ s.brancher.frontier.members := hmembers ▸ Multiset.mem_cons_self _ _
  have hrest : ∀ k ∈ f.members, k ∈ s.brancher.frontier.members := fun k hk =>
    hmembers ▸ Multiset.mem_cons_of_mem hk
  have hprocessed := h.processed
  rw [hmembers, Multiset.map_cons, Multiset.sum_cons] at hprocessed
  refine ⟨h.grids m hmem, limit - m.node.charge s.requeued, ?_, ?_⟩
  · show limit - m.node.charge s.requeued + m.node.charge s.requeued = limit
    omega
  · refine ⟨h.consistent.pop hpop, h.vars, fun k hk => h.grids k (hrest k hk),
      fun k hk => h.histories k (hrest k hk), ?_⟩
    show s.stats.processed + (f.members.map fun m => m.node.charge s.requeued).sum ≤ _
    omega

/-- Recording a report counts a processed node. -/
theorem Charged.record (h : s.Charged left) (r : Report α) :
    (s.record r).2.Charged (left + 1) := by
  have hkeeps := s.keeps_record h.consistent r
  have hmembers := members_record_le h.consistent r
  have hrest := fun {k} hk => Multiset.mem_of_le (a := k) hmembers hk
  refine ⟨hkeeps.consistent, hkeeps.vars ▸ h.vars, fun k hk => ?_, fun k hk => ?_, ?_⟩
  · exact hkeeps.vars ▸ h.grids k (hrest hk)
  · exact hkeeps.vars ▸ h.histories k (hrest hk)
  · have hprocessed := h.processed
    have hsum := Charged.sum_le hmembers s.requeued
    rw [processed_record, hkeeps.requeued]
    omega

/-- A search whose brancher has branched a node pays for the nodes that came of it. -/
theorem Charged.branched (h : s.Charged left) {b : Brancher α}
    {outcome : Brancher.Branching}
    (hbranched : Brancher.Branched s.brancher r.node r.point r.lowerBound outcome b)
    (hgrids : ∀ m ∈ s.brancher.opened r.node r.lowerBound outcome, m.box.IsGrid s.brancher.vars)
    (hcharge : left + ((s.brancher.opened r.node r.lowerBound outcome).map
      (Node.charge (outcome.noted r.node.id s.requeued))).sum ≤ limit) :
    (s.branched r b outcome).Charged limit := by
  obtain ⟨new, hmembers, hnew, hknown⟩ := hbranched.members_le h.consistent
  obtain ⟨hbrancher, hrequeued⟩ := s.requeued_branched r b outcome
  have hcases : ∀ m ∈ b.frontier.members, m ∈ new ∨ m ∈ s.brancher.frontier.members := fun m hm =>
    Multiset.mem_add.mp (Multiset.mem_of_le hmembers hm)
  refine ⟨?_, ?_, ?_, ?_, ?_⟩ <;> rw [hbrancher]
  · exact hbranched.consistent h.consistent
  · exact hbranched.vars ▸ h.vars
  · rw [hbranched.vars]
    intro m hm
    rcases hcases m hm with hm | hm
    · exact hgrids m.node (hnew ▸ Multiset.mem_map_of_mem _ hm)
    · exact h.grids m hm
  · rw [hbranched.vars]
    intro m hm
    rcases hcases m hm with hm | hm
    · exact hknown m hm
    · exact h.histories m hm
  · rw [processed_branched, hrequeued]
    have hsum := Charged.sum_le hmembers (outcome.noted r.node.id s.requeued)
    rw [Multiset.map_add, Multiset.sum_add] at hsum
    rw [← hnew, Multiset.map_map] at hcharge
    -- ids that were noted lower the charges of the nodes that were open before
    have hold : (s.brancher.frontier.members.map fun m =>
          m.node.charge (outcome.noted r.node.id s.requeued)).sum
        ≤ (s.brancher.frontier.members.map fun m => m.node.charge s.requeued).sum := by
      refine Multiset.sum_map_le_sum_map _ _ fun m hm => Node.charge_anti (h.grids m hm) ?_
      cases outcome with
      | requeued => exact List.subset_cons_self _ _
      | dropped | split => exact List.Subset.refl _
    have hbefore := h.processed
    dsimp only [Function.comp_def] at hcharge
    omega

/-- Acting on the recorded report of a part of a grid succeeds and pays with what the grid can. -/
theorem Charged.settle (h : s.Charged (left + 1))
    (hn : n.box.IsGrid s.brancher.vars) (hid : r.node.id = n.id) (hbox : r.node.box.Shrunk n.box)
    (hends : r.Ends)
    (hfull : r.stage = .postprocessed → r.node.box.isEmpty = false) :
    ∃ stage t, s.settle r = (.ok stage, t) ∧ t.Charged (left + n.charge s.requeued) := by
  have hpos : left + 1 ≤ left + n.charge s.requeued := Nat.add_le_add_left (n.charge_pos hn) _
  have hfathomed : ∀ {reason}, r.stage = .fathomed reason →
      ∃ stage t, s.settle r = (.ok stage, t) ∧ t.Charged (left + n.charge s.requeued) := by
    intro reason hstage
    have hsettle := (Settlement.fathomed (s := s) hstage).settle_eq
    exact ⟨_, _, hsettle, (h.mono hpos).of_eq (s.countFathomed_frame r).1
      ((Keeps.refl h.consistent).countFathomed r).requeued (processed_settle hsettle)⟩
  cases hends with
  | settled reason hstage => exact hfathomed hstage
  | dominated hstage => exact hfathomed hstage
  | opened hstage =>
    by_cases honce : r.node.box.isPoint = true ∧ r.node.id ∈ s.requeued
    · -- a single point that was evaluated twice opens nothing, and its own charge is left over
      exact ⟨_, _, (Settlement.twice hstage honce.1 honce.2).settle_eq,
        (h.mono hpos).of_eq rfl rfl rfl⟩
    · obtain ⟨outcome, b, hbranch, hrounded, hwide⟩ := Brancher.exists_branch h.vars hn hbox
        (hfull hstage) r.point r.lowerBound s.settings.sizeTolerance
      have hbranched := (Brancher.branch_cases hbranch).2
      obtain ⟨hgrids, hcharge⟩ := Brancher.charge_opened h.vars hn hid hbox (hfull hstage) honce
        hbranched hrounded hwide
      have hcharged : (s.branched r b outcome).Charged (left + n.charge s.requeued) :=
        h.branched hbranched hgrids (by omega)
      exact ⟨_, _, (Settlement.branched hstage honce hbranch).settle_eq, hcharged⟩

/-- Recording the report of a node succeeds if only this node is waited for. -/
theorem record_ok_of_next (h : s.Charged limit) (hwaiting : s.brancher.waiting = [])
    (hnext : s.next = (.ok n, t)) (hid : r.node.id = n.id) : (t.record r).1 = .ok () := by
  obtain ⟨m, f, hpop, rfl, rfl⟩ := Async.next_ok hnext
  have hmem : m ∈ s.brancher.frontier.members :=
    h.consistent.members_pop hpop ▸ Multiset.mem_cons_self _ _
  generalize ht : ({ s with brancher := { s.brancher with
    frontier := f
    waiting := s.brancher.waiting.insert m.id ⟨m.score, m.history⟩ } } : Search α) = t
  have hout : (t.account r).brancher.waiting = [(m.id, ⟨m.score, m.history⟩)] := by
    rw [(t.account_frame r).1, ← ht, hwaiting]
    rfl
  have hconsistent : t.brancher.frontier.Consistent := by
    rw [← ht]
    exact h.consistent.pop hpop
  have hvars : (t.account r).brancher.vars = s.brancher.vars := by
    have hconfirm := (confirm_frontier (t.account r).brancher r.node.id r.node).2
    have hrecord := (t.keeps_record hconsistent r).vars
    rw [← hconfirm]
    refine hrecord.trans ?_
    rw [← ht]
  have hknown : ∀ e ∈ (t.account r).brancher.waiting,
      e.2.history.Known (t.account r).brancher.vars.length := by
    rw [hout, hvars]
    intro e he
    rw [List.mem_singleton.mp he]
    exact h.histories m hmem
  -- confirming fails for an unknown node, or where the history names no variable
  show ((t.account r).brancher.confirm r.node.id r.node).1 = .ok ()
  rcases Brancher.confirm_cases hknown r.node.id r.node with ⟨-, _, hconfirm⟩ | ⟨hnot, -⟩
  · rw [hconfirm]
  · refine absurd ?_ hnot
    rw [hout, hid]
    exact List.mem_cons_self

/-- Taking in the report of a node that was handed out succeeds and keeps the limit. -/
theorem Charged.apply (h : s.Charged limit)
    (hwaiting : s.brancher.waiting = []) (hnext : s.next = (.ok n, t)) (hid : r.node.id = n.id)
    (hbox : r.node.box.Shrunk n.box) (hends : r.Ends)
    (hfull : r.stage = .postprocessed → r.node.box.isEmpty = false) :
    ∃ stage u, t.apply r = (.ok stage, u) ∧ u.Charged limit := by
  obtain ⟨hn, left, hleft, ht⟩ := h.next hnext
  have hrecord := record_ok_of_next h hwaiting hnext hid
  have hkeeps := t.keeps_record ht.consistent r
  obtain ⟨stage, u, hsettle, hu⟩ :=
    (ht.record r).settle (n := n) (hkeeps.vars.symm ▸ hn) hid hbox hends hfull
  -- what was left and what the node pays with make up the limit again
  rw [hkeeps.requeued, hleft] at hu
  refine ⟨stage, u, ?_, hu⟩
  rw [apply_of_record hrecord, hsettle]

/-- A search starts within the limit that is set by the whole points of its domain. -/
theorem Charged.new {vars : List (Variable α)} {settings : Settings α}
    {start : Search α} (hstart : Search.new vars settings = .ok start)
    (hvars : ∀ v ∈ vars, v.Moderate) :
    start.Charged (3 * (Node.root start.brancher.vars).box.wholePoints.ncard - 1) := by
  obtain ⟨hvalid, hprocessed, hrequeued, f, hf, hnodes, -, hfrontier⟩ := new_ok hstart
  have hgrids : ∀ v ∈ start.brancher.vars, v.IsGrid := by
    intro v hv
    obtain ⟨u, hu, hvalidated⟩ := hvalid v hv
    exact (hvars u hu).isGrid hvalidated
  have hroot := Variable.isGrid_root hgrids
  have hempty : f.members = 0 := Multiset.map_eq_zero.mp hnodes
  have hmembers := hf.members_insert_le ⟨Node.root start.brancher.vars, 0, .unsplit⟩
  rw [hempty, ← hfrontier] at hmembers
  -- the root is the only node there can be
  have honly := fun {m} hm => Multiset.mem_singleton.mp (Multiset.mem_of_le (a := m) hmembers hm)
  refine ⟨hfrontier ▸ hf.insert _, hgrids, fun m hm => ?_, fun m hm => ?_, ?_⟩
  · rw [honly hm]
    exact hroot
  · rw [honly hm]
    exact nofun
  · have hsum := Charged.sum_le hmembers start.requeued
    rw [Multiset.map_cons, Multiset.sum_cons, Multiset.map_zero, Multiset.sum_zero] at hsum
    have hcharge := Node.charge_le start.requeued hroot
    dsimp only at hsum
    omega

end Search

/-! ## Rounds -/

/-- Nodes of one id may shrink time and again, whatever their scores are. -/
theorem Node.composes_shrunk [Scalar.Ordered α] :
    Node.Composes fun m n : Node α => m.id = n.id ∧ m.box.Shrunk n.box where
  refl n := ⟨rfl, .refl n.box⟩
  trans h k := ⟨h.1.trans k.1, h.2.trans k.2⟩
  score n _ := ⟨rfl, .refl n.box⟩

namespace Serial

variable {solvers : Solvers σ α} {run after : Run σ α} {limit : Nat}

/-- A round of a search that goes on processes its next node and does what follows. -/
theorem exec_round_conclude {n : Node α} {t : Search α} {r : Report α} {memory : σ}
    (hcheck : (now solvers run).check none = none) (hnext : (now solvers run).next = (.ok n, t))
    (hprocess : (processNode solvers n run.search.cutoff).Returns run.memory r memory)
    {stage : Stage} {after : Run σ α}
    (hconclude : (conclude solvers n.depth r).exec ⟨t, memory⟩ = (.ok stage, after)) :
    (round solvers).exec run = (.ok none, after) := by
  have hlook : (run.search.atTime (solvers.clock run.memory)).check none = none := hcheck
  have htake : (run.search.atTime (solvers.clock run.memory)).next = (.ok n, t) := hnext
  have hcall : Id.run (StateT.run (ExceptT.run (processNode solvers n
      (run.search.atTime (solvers.clock run.memory)).cutoff)) run.memory) = (.ok r, memory) :=
    hprocess
  simp only [round, Work.exec_bind, Work.exec_modify, Work.exec_search, hlook]
  simp only [Work.exec_onSearch, Work.exec_onSolvers, htake, Except.mapError, hcall, hconclude]
  rfl

/-- If the node is too deep for strong branching, what follows is that the report on it is taken
in. -/
theorem exec_round_apply {n : Node α} {t : Search α} {r : Report α} {memory : σ}
    (hdeep : run.search.settings.strongDepth ≤ n.depth)
    (hcheck : (now solvers run).check none = none) (hnext : (now solvers run).next = (.ok n, t))
    (hprocess : (processNode solvers n run.search.cutoff).Returns run.memory r memory)
    {stage : Stage} {u : Search α} (happly : t.apply r = (.ok stage, u)) :
    (round solvers).exec run = (.ok none, ⟨u, memory⟩) := by
  have hdepth : t.settings.strongDepth ≤ n.depth := by
    rw [(Search.next_frame hnext).2.2.1]
    exact hdeep
  refine exec_round_conclude hcheck hnext hprocess (?_ : _ = (Except.ok stage, _))
  rw [exec_conclude hdepth, happly]
  rfl

variable [Scalar.Discrete α]

/-- A round between whose ends no node is waited for ends the search or keeps the limit. -/
theorem exec_round_charged (h : run.search.Charged limit)
    (hwaiting : run.search.brancher.waiting = []) (hstrong : run.search.settings.strongDepth = 0)
    (hreliable : solvers.Reliable) (hdefined : solvers.Defined)
    (hs : solvers.Tighten Node.Shrunk) :
    (∃ status, (now solvers run).check none = some status
        ∧ (round solvers).exec run = (.ok (some status), ⟨now solvers run, run.memory⟩))
      ∨ ∃ after, (round solvers).exec run = (.ok none, after) ∧ after.search.Charged limit := by
  have hnow : (now solvers run).Charged limit := h.of_eq rfl rfl rfl
  cases hcheck : (now solvers run).check none with
  | some status => exact .inl ⟨status, rfl, exec_round_over hcheck⟩
  | none =>
    obtain ⟨n, t, hnext⟩ := Async.exists_next hnow.consistent (Search.isEmpty_eq_false hcheck)
    -- solvers that are defined give a report on the node, which applies to it
    obtain ⟨r, memory, hprocess, -⟩ :=
      processNode_returns hreliable hdefined n run.search.cutoff run.memory
    obtain ⟨hid, hbox⟩ := processNode_related Node.composes_shrunk
      (hs.mono fun m n hmn => ⟨hmn.id, hmn.box⟩) hprocess
    obtain ⟨stage, u, happly, hu⟩ := hnow.apply hwaiting hnext hid hbox
      (processNode_ends hprocess)
      fun hopen => (processNode_opened (hs.mono fun m n hmn => hmn.score) hprocess hopen).nonempty
    exact .inr ⟨_, exec_round_apply (hstrong.trans_le (Nat.zero_le _)) hcheck hnext hprocess happly,
      hu⟩

/-- Rounds keep the limit and the settings. -/
theorem charged_rounds (h : run.search.Charged limit) (hwaiting : run.search.brancher.waiting = [])
    (hstrong : run.search.settings.strongDepth = 0) (hreliable : solvers.Reliable)
    (hdefined : solvers.Defined) (hs : solvers.Tighten Node.Shrunk)
    (hrounds : Rounds solvers run after) :
    after.search.Charged limit ∧ after.search.settings = run.search.settings := by
  induction hrounds with
  | refl => exact ⟨h, rfl⟩
  | @tail mid last hmid hround ih =>
    obtain ⟨hcharged, hsettings⟩ := ih
    have hlater := (later_round solvers mid).2
    rw [hround] at hlater
    refine ⟨?_, hlater.trans hsettings⟩
    -- a round that is followed by others did not end the search
    rcases exec_round_charged hcharged (waiting_rounds hmid hwaiting)
      (by rw [hsettings]; exact hstrong) hreliable hdefined hs with
      ⟨status, -, hended⟩ | ⟨next, hnext, hkept⟩
    · cases hround.symm.trans hended
    · cases hround.symm.trans hnext
      exact hkept

omit [Scalar.Discrete α] in
/-- A search that nothing limits goes on until no node is open. -/
theorem size_of_check {s : Search α} {status : Status} (hplain : s.settings.Plain)
    (hupper : s.settings.targetUpper = none) (hlower : s.settings.targetLower = none)
    (hnodes : s.stats.processed < s.settings.maxNodes) (hcheck : s.check none = some status) :
    s.brancher.frontier.size = 0 := by
  by_contra hsize
  have hgoes : s.check none = none := by
    rw [Search.check_eq_none_iff hplain, hupper, hlower]
    exact ⟨fun hnone => hsize hnone.1, nofun, nofun, hnodes⟩
  cases hcheck.symm.trans hgoes

/-- A search without strong branching, whose variables are discrete and not far from zero, ends
without an error after it processed fewer nodes than three times the whole points of its domain,
whatever its limits are, if its solvers answer, bound nodes by defined values and do nothing but
shrink boxes when they tighten a node. If nothing limits the search it goes on until no node is
open. -/
theorem search_exhausts {vars : List (Variable α)} {settings : Settings α} {start : Search α}
    {memory : σ} (hstart : Search.new vars settings = .ok start)
    (hvars : ∀ v ∈ vars, v.Moderate) (hstrong : settings.strongDepth = 0)
    (hreliable : solvers.Reliable) (hdefined : solvers.Defined)
    (hs : solvers.Tighten Node.Shrunk) :
    ∃ status after, search solvers ⟨start, memory⟩ = (.ok status, after)
      ∧ after.search.stats.processed
        ≤ 3 * (Node.root start.brancher.vars).box.wholePoints.ncard - 1
      ∧ (settings.Plain → settings.targetUpper = none → settings.targetLower = none →
        3 * (Node.root start.brancher.vars).box.wholePoints.ncard ≤ settings.maxNodes →
        after.search.brancher.frontier.size = 0) := by
  obtain ⟨-, hwaiting, hsettings⟩ := Search.new_frame hstart
  have hdepth : start.settings.strongDepth = 0 := by rw [hsettings, hstrong]
  have hcharged := Search.Charged.new hstart hvars
  have hpos := (Variable.isGrid_root hcharged.vars).ncard_pos
  -- the last round either fails, which the charges exclude, or finds that the search is over
  obtain ⟨last, after, hrounds, hends⟩ := exists_last_round solvers ⟨start, memory⟩
  obtain ⟨hlast, hkept⟩ := charged_rounds hcharged hwaiting hdepth hreliable hdefined hs hrounds
  rw [hsettings] at hkept
  rcases exec_round_charged hlast (waiting_rounds hrounds hwaiting) (by rw [hkept, hstrong])
    hreliable hdefined hs with ⟨status, hcheck, hover⟩ | ⟨next, hnext, -⟩
  · rcases hends with ⟨_, hround, hsearch⟩ | ⟨_, hround, -⟩ <;> cases hround.symm.trans hover
    have hprocessed : last.search.stats.processed
        ≤ 3 * (Node.root start.brancher.vars).box.wholePoints.ncard - 1 :=
      (Nat.le_add_right _ _).trans hlast.processed
    refine ⟨status, _, hsearch, hprocessed, fun hplain hupper hlower hnodes => ?_⟩
    have hnow : (now solvers last).settings = settings := hkept
    refine size_of_check (hnow ▸ hplain) (hnow ▸ hupper) (hnow ▸ hlower) ?_ hcheck
    rw [hnow]
    exact Nat.lt_of_le_of_lt hprocessed (by omega)
  · rcases hends with ⟨_, hround, -⟩ | ⟨_, hround, -⟩ <;> cases hround.symm.trans hnext

/-- The sample solvers shrink no box. -/
theorem shrunk_sampleSolvers : Async.sampleSolvers.Tighten Node.Shrunk where
  preprocess h := by
    obtain ⟨-, rfl⟩ := Prod.mk.inj (Call.returns_pure h)
    exact ⟨rfl, rfl, rfl, .refl _⟩
  postprocess h := by
    obtain ⟨-, rfl⟩ := Prod.mk.inj (Call.returns_pure h)
    exact ⟨rfl, rfl, rfl, .refl _⟩

/-- The domain of the sample search. -/
theorem exists_sampleStart : ∃ start ∈ (Search.new Async.sampleVars .standard).toOption,
    (Node.root start.brancher.vars).box.lower = [0]
      ∧ (Node.root start.brancher.vars).box.upper = [.point 2] := by
  decide +kernel

/-- It has three whole points at most. -/
theorem ncard_sampleStart_le {b : Box (Extended ℚ)} (hlower : b.lower = [0])
    (hupper : b.upper = [.point 2]) : b.wholePoints.ncard ≤ 3 := by
  -- a whole point has one coordinate between zero and two
  have hsubset : b.wholePoints ⊆ ((Finset.Icc (0 : ℤ) 2).image fun z => [z] : Finset (List ℤ)) := by
    rintro x ⟨-, hx⟩
    have hlength := hx.lower_length
    rw [hlower, List.length_map] at hlength
    obtain ⟨z, rfl⟩ := List.length_eq_one_iff.mp hlength.symm
    have hle := hx.lower_le 0 Nat.one_pos
    have hge := hx.le_upper 0 Nat.one_pos
    rw [Box.getD_map_ofInt Nat.one_pos, Extended.ofInt_eq] at hle hge
    rw [Box.lowerAt, hlower] at hle
    rw [Box.upperAt, hupper] at hge
    have hlow : (0 : ℚ) ≤ z := Extended.point_le_point.mp hle
    have hhigh : (z : ℚ) ≤ 2 := Extended.point_le_point.mp hge
    refine Finset.mem_coe.mpr (Finset.mem_image.mpr ⟨z, Finset.mem_Icc.mpr ⟨?_, ?_⟩, rfl⟩)
    · exact_mod_cast hlow
    · exact_mod_cast hhigh
  calc b.wholePoints.ncard
      ≤ ((Finset.Icc (0 : ℤ) 2).image fun z => [z]).card := by
        rw [← Set.ncard_coe_finset]
        exact Set.ncard_le_ncard hsubset (Finset.finite_toSet _)
    _ ≤ (Finset.Icc (0 : ℤ) 2).card := Finset.card_image_le
    _ = 3 := rfl

/-- The sample search processes eight nodes at most until no node is open. -/
theorem search_exhausts_sampleVars : ∃ start status after,
    Search.new Async.sampleVars .standard = .ok start
      ∧ search Async.sampleSolvers ⟨start, ()⟩ = (.ok status, after)
      ∧ after.search.stats.processed ≤ 8 ∧ after.search.brancher.frontier.size = 0 := by
  obtain ⟨start, hstart, hlower, hupper⟩ := exists_eq_ok exists_sampleStart
  have hvars : ∀ v ∈ Async.sampleVars, v.Moderate := by
    intro v hv
    rw [List.mem_singleton.mp hv]
    exact ⟨rfl, by decide +kernel, by decide +kernel⟩
  obtain ⟨status, after, hsearch, hprocessed, hexhausted⟩ := search_exhausts hstart hvars rfl
    Async.reliable_sampleSolvers Async.defined_sampleSolvers shrunk_sampleSolvers
  have hpoints := ncard_sampleStart_le hlower hupper
  have hnodes : 3 * (Node.root start.brancher.vars).box.wholePoints.ncard
      ≤ (Settings.standard : Settings (Extended ℚ)).maxNodes := by
    have hmax : (Settings.standard : Settings (Extended ℚ)).maxNodes = 1000000 := rfl
    omega
  exact ⟨start, status, after, hstart, hsearch, by omega,
    hexhausted ⟨rfl, rfl, rfl, rfl⟩ rfl rfl hnodes⟩

end Serial

end BranchBound
