import BranchBound.Proofs.Node.Opening
import BranchBound.Proofs.Search.Agreement
import BranchBound.Proofs.Search.Failing

/-! # The nodes of a serial search are accounted for

A search without strong branching makes two nodes of every node that it splits, and one of every
node that it queues once more. Every node is open until it is processed, unless a better point
fathoms it in the tree before. So the counters of the search and the size of its tree balance
between any two rounds.

The balance needs that the tree refuses no node. It refuses those that are dominated, and processing
lets no dominated node come up for branching, because the cutoff and the tree agree
(`Search.Agrees`).

* **`Search.Books s out unsettled`** — the books of a search with some nodes out and some recorded
  ones that are not settled; each operation moves a node from one column to another.
* **`Search.Balanced`** — the balance between two rounds.
* **`Serial.balanced_rounds`** — every search is balanced after any rounds. -/

namespace BranchBound

variable {σ α : Type} [Scalar α]

/-! ## Branching -/

namespace Brancher

variable {b c : Brancher α} {parent : Node α} {point : List α} {objective : α}
  {outcome : Branching}

/-- The nodes that branching puts into the tree if none is refused. -/
def opened (b : Brancher α) (parent : Node α) (objective : α) : Branching → Multiset (Node α)
  | .dropped => 0
  | .requeued => {{ parent with box := roundDiscrete b.vars parent.box }}
  | .split i down up =>
      let whole := b.rounded parent objective
      b.vars[i]?.elim 0 fun v =>
        {child whole (parts v.kind whole.box i).1 down, child whole (parts v.kind whole.box i).2 up}

/-- They depend on the variables alone. -/
theorem opened_congr (h : c.vars = b.vars) (parent : Node α) (objective : α) (outcome : Branching) :
    c.opened parent objective outcome = b.opened parent objective outcome := by
  unfold opened rounded
  rw [h]

/-- How many they are. -/
def Branching.count : Branching → Nat
  | .dropped => 0
  | .requeued => 1
  | .split .. => 2

/-- They are as many. -/
theorem Branched.card_opened (h : Branched b parent point objective outcome c) :
    (b.opened parent objective outcome).card = outcome.count := by
  cases h with
  | dropped => rfl
  | requeued => rfl
  | split hv =>
    rw [opened, hv]
    rfl

/-- What a child inherits is at most the score of its parent, if the objective value of the
relaxation is. -/
theorem score_rounded_le [Scalar.Ordered α] (b : Brancher α)
    (hobjective : objective ≤ parent.score) :
    (b.rounded parent objective).score ≤ parent.score := by
  show (if Scalar.isNaN objective then parent.score
    else Scalar.greatest parent.score objective) ≤ parent.score
  have hrefl := Scalar.Ordered.le_refl (Scalar.Ordered.isNaN_right_of_le hobjective)
  split
  · exact hrefl
  · exact Scalar.greatest_le hrefl hobjective

/-- Branching a node that is not dominated, nor by the objective value of its relaxation, puts all
nodes into the tree. -/
theorem Branched.nodes_of_live [Scalar.Ordered α]
    (h : Branched b parent point objective outcome c) (hb : b.frontier.Consistent)
    (hscore : b.frontier.dominates parent.score = false) (hobjective : objective ≤ parent.score) :
    c.frontier.nodes = b.opened parent objective outcome + b.frontier.nodes
      ∧ c.frontier.lowestRefused = b.frontier.lowestRefused := by
  cases h with
  | dropped => exact ⟨(Multiset.zero_add _).symm, rfl⟩
  | requeued =>
    rw [opened, Multiset.singleton_add]
    exact hb.insert_of_not_dominates
      (n := b.toOpen { parent with box := roundDiscrete b.vars parent.box } .unsplit) hscore
  | @split i v hv down up d hsplit =>
    have hd := split_consistent hsplit hb
    have hids : b.frontier.SameLimits d.frontier ∧ d.frontier.nodes = b.frontier.nodes
        ∧ d.frontier.lowestRefused = b.frontier.lowestRefused := by
      rw [split_brancher hsplit]
      exact ⟨⟨rfl, rfl, rfl⟩, rfl, rfl⟩
    -- a child that scores at most what its parent does is no more dominated than the parent
    have hinherited : d.frontier.dominates (b.rounded parent objective).score = false := by
      rw [hids.1.dominates]
      rw [Frontier.dominates, decide_eq_false_iff_not] at hscore ⊢
      exact fun hdominated =>
        hscore (Scalar.Ordered.le_trans hdominated (b.score_rounded_le hobjective))
    obtain ⟨hdown, hup⟩ := split_nodes hsplit
    have hdownlive : d.frontier.dominates down.score = false := by
      rw [OpenNode.score, hdown]
      exact hinherited
    have huplive : (d.frontier.insert down).2.dominates up.score = false := by
      rw [(d.frontier.sameLimits_insert down).dominates, OpenNode.score, hup]
      exact hinherited
    obtain ⟨hfirst, hfirstRefused⟩ := hd.insert_of_not_dominates hdownlive
    obtain ⟨hsecond, hsecondRefused⟩ := (hd.insert down).insert_of_not_dominates huplive
    refine ⟨?_, ?_⟩
    · rw [offer_frontier, offer_frontier, hsecond, hfirst, hids.2.1, opened, hv, OpenNode.id,
        OpenNode.id, hdown, hup]
      exact Multiset.cons_swap _ _ _
    · rw [offer_frontier, offer_frontier, hsecondRefused, hfirstRefused, hids.2.2]

end Brancher

/-! ## Books -/

namespace Search

variable {s t u : Search α} {r : Report α} {n : Node α} {stage : Stage} {out unsettled : Nat}

/-- The books of a search balance, given the number of nodes that are out and of nodes that are
recorded but not settled, and no node was refused. -/
structure Books (s : Search α) (out unsettled : Nat) : Prop where
  /-- A processed node was fathomed, split, queued once more or dropped, or it is not settled. -/
  processed : s.stats.processed
    = s.stats.fathomed + s.stats.branched + s.stats.fixed + s.stats.dropped + unsettled
  /-- The root and the nodes that were made since are processed, open, out or fathomed in the
  tree. -/
  nodes : 1 + 2 * s.stats.branched + s.stats.fixed
    = s.stats.processed + s.brancher.frontier.size + s.stats.pruned + out
  /-- The tree refused no node. -/
  lowestRefused : s.brancher.frontier.lowestRefused = Scalar.infinity

/-- The books depend on the counters and the frontier. -/
theorem Books.of_eq (h : s.Books out unsettled) (hstats : t.stats = s.stats)
    (hfrontier : t.brancher.frontier = s.brancher.frontier) : t.Books out unsettled := by
  refine ⟨?_, ?_, ?_⟩ <;> simp only [hstats, hfrontier]
  · exact h.processed
  · exact h.nodes
  · exact h.lowestRefused

/-- Keeping a score does not matter for the books. -/
theorem Books.noteDiscarded (h : s.Books out unsettled) (score : α) :
    (s.noteDiscarded score).Books out unsettled :=
  h.of_eq (s.stats_noteDiscarded score) (congrArg Brancher.frontier (brancher_noteDiscarded score))

/-- Handing out a node moves it from the open ones to those that are out. -/
theorem Books.next [Scalar.Ordered α] (h : s.Books out unsettled)
    (hs : s.brancher.frontier.Consistent) (hnext : s.next = (.ok n, t)) :
    t.Books (out + 1) unsettled := by
  obtain ⟨m, f, hpop, rfl, rfl⟩ := Async.next_ok hnext
  have hsize : s.brancher.frontier.size = f.size + 1 := by
    rw [← hs.card_nodes, ← (hs.pop hpop).card_nodes, hs.nodes_pop hpop, Multiset.card_cons]
  obtain ⟨slot, -, -, hf⟩ := Frontier.pop?_eq_some hpop
  refine ⟨h.processed, ?_, ?_⟩
  · have hnodes := h.nodes
    show 1 + 2 * s.stats.branched + s.stats.fixed
      = s.stats.processed + f.size + s.stats.pruned + (out + 1)
    omega
  · show f.lowestRefused = Scalar.infinity
    rw [hf]
    exact h.lowestRefused

/-- Offering a point moves the nodes it dominates from the open ones to those that are fathomed in
the tree. -/
theorem Books.offer [Scalar.Ordered α] (h : s.Books out unsettled)
    (hs : s.brancher.frontier.Consistent) (c : Candidate α) :
    (s.offer c).2.Books out unsettled := by
  by_cases hlt : c.value < s.incumbent.value
  · rw [offer_of_lt hlt]
    have hadopt : (s.adopt c).Books out unsettled := by
      refine ⟨h.processed, ?_, ?_⟩
      · -- what the frontier fathoms is what its size drops by
        have hnodes := h.nodes
        have hsize := hs.size_lowerThreshold c.value
        show 1 + 2 * s.stats.branched + s.stats.fixed = s.stats.processed
          + (s.brancher.frontier.lowerThreshold c.value).2.size
          + (s.stats.pruned + ((s.brancher.frontier.lowerThreshold c.value).2.fathomed
            - s.brancher.frontier.fathomed)) + out
        omega
      · show (s.brancher.frontier.lowerThreshold c.value).2.lowestRefused = Scalar.infinity
        rw [Frontier.lowestRefused_lowerThreshold]
        exact h.lowestRefused
    exact hadopt.noteDiscarded _
  · rw [offer_of_not_lt hlt]
    exact h

/-- Recording a report moves a node from those that are out to those that are not settled. -/
theorem Books.record [Scalar.Ordered α] (h : s.Books (out + 1) unsettled)
    (hs : s.brancher.frontier.Consistent) (r : Report α) :
    (s.record r).2.Books out (unsettled + 1) := by
  -- the node is processed from now on instead of out, and no fate is counted for it yet
  have hcounted : (s.counted r).Books out (unsettled + 1) := by
    refine ⟨?_, ?_, h.lowestRefused⟩
    · have hprocessed := h.processed
      show s.stats.processed + 1 = s.stats.fathomed + s.stats.branched + s.stats.fixed
        + s.stats.dropped + (unsettled + 1)
      omega
    · have hnodes := h.nodes
      show 1 + 2 * s.stats.branched + s.stats.fixed
        = s.stats.processed + 1 + s.brancher.frontier.size + s.stats.pruned + out
      omega
  have haccount : (s.account r).Books out (unsettled + 1) := by
    rw [account_eq]
    split
    · exact hcounted.offer hs _
    · exact hcounted
  exact haccount.of_eq rfl (confirm_frontier (s.account r).brancher r.node.id r.node).1

/-- Counting a fathomed node settles it. -/
theorem Books.countFathomed (h : s.Books out (unsettled + 1)) (r : Report α) :
    (s.countFathomed r).Books out unsettled := by
  have hcounted :
      ({ s with stats.fathomed := s.stats.fathomed + 1 } : Search α).Books out unsettled := by
    refine ⟨?_, h.nodes, h.lowestRefused⟩
    have hprocessed := h.processed
    show s.stats.processed = s.stats.fathomed + 1 + s.stats.branched + s.stats.fixed
      + s.stats.dropped + unsettled
    omega
  unfold Search.countFathomed
  dsimp only
  split
  · exact hcounted.noteDiscarded _
  · exact hcounted

/-- A search whose brancher has branched a node has settled it, if all nodes were put into the
tree. -/
theorem Books.branched [Scalar.Ordered α] (h : s.Books out (unsettled + 1))
    (hs : s.brancher.frontier.Consistent) {b : Brancher α} {outcome : Brancher.Branching}
    (hb : b.frontier.Consistent) {opened : Multiset (Node α)} (hcard : opened.card = outcome.count)
    (hopened : b.frontier.nodes = opened + s.brancher.frontier.nodes)
    (hrefused : b.frontier.lowestRefused = s.brancher.frontier.lowestRefused) (r : Report α) :
    (s.branched r b outcome).Books out unsettled := by
  have hsize : b.frontier.size = outcome.count + s.brancher.frontier.size := by
    rw [← hb.card_nodes, ← hs.card_nodes, hopened, Multiset.card_add, hcard]
  have hlowest : b.frontier.lowestRefused = Scalar.infinity := hrefused.trans h.lowestRefused
  have hprocessed := h.processed
  have hnodes := h.nodes
  -- one of the counters goes up by one, and the tree grows by as many nodes as the outcome says
  cases outcome with
  | requeued =>
    refine ⟨?_, ?_, hlowest⟩
    · show s.stats.processed = s.stats.fathomed + s.stats.branched + (s.stats.fixed + 1)
        + s.stats.dropped + unsettled
      omega
    · show 1 + 2 * s.stats.branched + (s.stats.fixed + 1)
        = s.stats.processed + b.frontier.size + s.stats.pruned + out
      rw [Brancher.Branching.count] at hsize
      omega
  | dropped =>
    have hdropped : ({ s with brancher := b } : Search α).countDropped.Books out unsettled := by
      refine ⟨?_, ?_, hlowest⟩
      · show s.stats.processed = s.stats.fathomed + s.stats.branched + s.stats.fixed
          + (s.stats.dropped + 1) + unsettled
        omega
      · show 1 + 2 * s.stats.branched + s.stats.fixed
          = s.stats.processed + b.frontier.size + s.stats.pruned + out
        rw [Brancher.Branching.count] at hsize
        omega
    exact hdropped.noteDiscarded _
  | split =>
    refine ⟨?_, ?_, hlowest⟩
    · show s.stats.processed = s.stats.fathomed + (s.stats.branched + 1) + s.stats.fixed
        + s.stats.dropped + unsettled
      omega
    · show 1 + 2 * (s.stats.branched + 1) + s.stats.fixed
        = s.stats.processed + b.frontier.size + s.stats.pruned + out
      rw [Brancher.Branching.count] at hsize
      omega

/-- Acting on a recorded report settles its node, if no dominated node has to be branched. -/
theorem Books.settle [Scalar.Ordered α] (h : s.Books out (unsettled + 1))
    (hs : s.brancher.frontier.Consistent)
    (hlive : r.stage = .postprocessed →
      s.brancher.frontier.dominates r.node.score = false ∧ r.lowerBound ≤ r.node.score)
    (hsettle : s.settle r = (.ok stage, t)) : t.Books out unsettled := by
  cases settlement hsettle with
  | fathomed => exact h.countFathomed r
  | twice =>
    have hprocessed := h.processed
    refine ⟨?_, h.nodes, h.lowestRefused⟩
    show s.stats.processed = s.stats.fathomed + 1 + s.stats.branched + s.stats.fixed
      + s.stats.dropped + unsettled
    omega
  | branched hopen _ hbranch =>
    -- the frontier refuses no part of a node that is not dominated
    obtain ⟨hscore, hbound⟩ := hlive hopen
    obtain ⟨-, hbranched⟩ := Brancher.branch_cases hbranch
    obtain ⟨hopened, hrefused⟩ := hbranched.nodes_of_live hs hscore hbound
    exact h.branched hs (hbranched.consistent hs) hbranched.card_opened hopened hrefused r

/-- The node of a report that is split gives way to the two parts of it, if it is not dominated. -/
theorem nodes_settle_branched [Scalar.Ordered α] (hs : s.brancher.frontier.Consistent)
    (hlive : r.stage = .postprocessed →
      s.brancher.frontier.dominates r.node.score = false ∧ r.lowerBound ≤ r.node.score)
    (hsettle : s.settle r = (.ok .branched, t)) :
    ∃ i down up, (s.brancher.opened r.node r.lowerBound (.split i down up)).card = 2
      ∧ t.brancher.frontier.nodes = s.brancher.opened r.node r.lowerBound (.split i down up)
        + s.brancher.frontier.nodes := by
  generalize hstage : Stage.branched = stage at hsettle
  cases settlement hsettle with
  | fathomed | twice => cases hstage
  | @branched hopen _ outcome b hbranch =>
    obtain ⟨hscore, hbound⟩ := hlive hopen
    obtain ⟨-, hbranched⟩ := Brancher.branch_cases hbranch
    obtain ⟨hopened, -⟩ := hbranched.nodes_of_live hs hscore hbound
    cases outcome with
    | dropped | requeued => cases hstage
    | split i down up => exact ⟨i, down, up, hbranched.card_opened, hopened⟩

/-- The cutoff after a report was recorded is the one that its processing ended with. -/
theorem cutoff_record (s : Search α) (r : Report α) :
    (s.record r).2.cutoff = Report.tightened s.cutoff r.candidate := by
  have hincumbent : (s.record r).2.incumbent = s.incumbent.adopt r := (s.account_frame r).2
  rw [cutoff, hincumbent, (s.counted_record r).2, Incumbent.adopt]
  cases r.candidate with
  | none => rfl
  | some c =>
    dsimp only [Incumbent.offer, Report.tightened, Cutoff.tighten, cutoff]
    split <;> rfl

/-! ## Between two rounds -/

/-- A search without strong branching between two rounds: no node is out, and all are settled. -/
structure Settled (s : Search α) : Prop where
  /-- The incumbent, the frontier and the cutoff agree. -/
  agrees : s.Agrees
  /-- The books balance. -/
  books : s.Books 0 0
  /-- No node is waited for. -/
  waiting : s.brancher.waiting = []
  /-- Strong branching is off. -/
  strongDepth : s.settings.strongDepth = 0

/-- What the clock shows does not matter. -/
theorem Settled.atTime (h : s.Settled) (d : Duration) : (s.atTime d).Settled :=
  ⟨h.agrees.of_eq rfl rfl rfl, h.books.of_eq rfl rfl, h.waiting, h.strongDepth⟩

variable [Scalar.Congruent α] {solvers : Solvers σ α} {memory after : σ}

/-- A node that comes up for branching in a round is not dominated once its report was recorded. -/
theorem Settled.live (h : s.Settled) (hs : solvers.Tighten Node.Rebounded)
    (hnext : s.next = (.ok n, t))
    (hprocess : (processNode solvers n s.cutoff).Returns memory r after)
    (hopen : r.stage = .postprocessed) :
    (t.record r).2.brancher.frontier.dominates r.node.score = false
      ∧ r.lowerBound ≤ r.node.score := by
  have ht := h.agrees.next hnext
  have hopened := processNode_opened
    (hs.mono fun m n hmn => by obtain ⟨box, rfl⟩ := hmn; rfl) hprocess hopen
  refine ⟨?_, hopened.bound_le⟩
  -- processing compared the score with the cutoff that the tree has to agree with by now
  rw [← (ht.record r).dominates, cutoff_record, (next_frame hnext).1]
  exact hopened.dominates

/-- A round leads from one such state to another. -/
theorem Settled.apply (h : s.Settled) (hs : solvers.Tighten Node.Rebounded)
    (hnext : s.next = (.ok n, t))
    (hprocess : (processNode solvers n s.cutoff).Returns memory r after)
    (happly : t.apply r = (.ok stage, u)) : u.Settled := by
  have hlive := h.live hs hnext hprocess
  have ht := h.agrees.next hnext
  have hagrees := ht.apply (r := r) fun hopen => Scalar.Ordered.isNaN_right_of_le (hlive hopen).2
  have hsettings := (t.counted_apply r).2
  rw [happly] at hagrees hsettings
  obtain ⟨-, hsettle⟩ := apply_ok happly
  have hrecorded := (h.books.next h.agrees.consistent hnext).record ht.consistent r
  refine ⟨hagrees, hrecorded.settle (t.keeps_record ht.consistent r).consistent hlive hsettle,
    ?_, ?_⟩
  · -- solvers that change nothing but bounds keep the id, so that the report confirms the node
    have hid : r.node.id = n.id :=
      processNode_related (R := fun m n => m.id = n.id)
        ⟨fun _ => rfl, fun hlm hmn => hlm.trans hmn, fun _ _ => rfl⟩
        (hs.mono fun m n hmn => by obtain ⟨box, rfl⟩ := hmn; rfl) hprocess
    rw [waiting_apply happly, hid]
    obtain ⟨m, f, -, rfl, rfl⟩ := Async.next_ok hnext
    show Waiting.erase (Waiting.insert s.brancher.waiting m.id ⟨m.score, m.history⟩) m.node.id = []
    rw [h.waiting]
    simp [Waiting.erase, Waiting.insert, OpenNode.id]
  · rw [hsettings, (next_frame hnext).2.2.1, h.strongDepth]

/-- The tree of a search at its start holds the root and has refused no node. -/
theorem nodes_new {vars : List (Variable α)} {settings : Settings α}
    (hstart : Search.new vars settings = .ok s) :
    s.brancher.frontier.nodes = {Node.root s.brancher.vars}
      ∧ s.brancher.frontier.lowestRefused = Scalar.infinity := by
  obtain ⟨valid, -, rfl⟩ := new_eq hstart
  -- there is no threshold yet that could refuse the root
  have hlive : (Brancher.opening valid settings).frontier.dominates (Node.root valid).score
      = false := by
    rw [Frontier.dominates, Frontier.adjustedThreshold, Brancher.threshold_opening,
      toleranceAdjusted, Scalar.Congruent.isFinite_infinity, decide_eq_false_iff_not]
    exact Scalar.not_le_of_lt Scalar.Congruent.neg_infinity_lt
  obtain ⟨hnodes, hrefusals⟩ := (Brancher.consistent_opening valid settings).insert_of_not_dominates
    (n := ⟨Node.root valid, 0, .unsplit⟩) hlive
  rw [Brancher.nodes_opening] at hnodes
  exact ⟨hnodes, hrefusals.trans (Brancher.lowestRefused_opening valid settings)⟩

/-- A search starts in such a state if strong branching is off. -/
theorem Settled.new {vars : List (Variable α)} {settings : Settings α}
    (hstart : Search.new vars settings = .ok s) (hstrong : settings.strongDepth = 0) :
    s.Settled := by
  obtain ⟨-, hwaiting, hsettings⟩ := new_frame hstart
  have hagrees := Agrees.new hstart
  refine ⟨hagrees, ?_, hwaiting, by rw [hsettings, hstrong]⟩
  obtain ⟨hopened, hrefused⟩ := nodes_new hstart
  have hsize : s.brancher.frontier.size = 1 := by
    rw [← hagrees.consistent.card_nodes, hopened, Multiset.card_singleton]
  obtain ⟨valid, -, rfl⟩ := new_eq hstart
  refine ⟨rfl, ?_, hrefused⟩
  show 1 + 2 * 0 + 0 = 0 + Frontier.size _ + 0 + 0
  rw [hsize]

/-- The books of a search without strong branching between two rounds. -/
structure Balanced (s : Search α) : Prop where
  /-- No node is waited for. -/
  waiting : s.brancher.waiting = []
  /-- A processed node was fathomed, split, queued once more or dropped. -/
  processed : s.stats.processed
    = s.stats.fathomed + s.stats.branched + s.stats.fixed + s.stats.dropped
  /-- The root and the nodes that were made since are processed, open or fathomed in the tree. -/
  nodes : 1 + 2 * s.stats.branched + s.stats.fixed
    = s.stats.processed + s.brancher.frontier.size + s.stats.pruned
  /-- The tree refused no node. -/
  lowestRefused : s.brancher.frontier.lowestRefused = Scalar.infinity

omit [Scalar.Congruent α] in
/-- A search is balanced between two rounds. -/
theorem Settled.balanced (h : s.Settled) : s.Balanced :=
  ⟨h.waiting, h.books.processed, h.books.nodes, h.books.lowestRefused⟩

end Search

/-! ## Rounds -/

namespace Serial

variable {solvers : Solvers σ α} {run after : Run σ α}

/-- Without strong branching, a round that does not end the search hands out a node, processes it
and takes in the report. -/
theorem exec_round_ok (h : run.search.settings.strongDepth = 0)
    (hround : (round solvers).exec run = (.ok none, after)) :
    ∃ n t r stage, (now solvers run).next = (.ok n, t)
      ∧ (processNode solvers n run.search.cutoff).Returns run.memory r after.memory
      ∧ t.apply r = (.ok stage, after.search) := by
  have hrounded := exec_round solvers run
  rw [hround] at hrounded
  cases hrounded with
  | @next n t r memory stage last hnext hprocess hconclude =>
    have hstrong : t.settings.strongDepth = 0 := by
      rw [(Search.next_frame hnext).2.2.1]
      exact h
    rw [exec_conclude (hstrong.trans_le (Nat.zero_le _))] at hconclude
    rcases happly : t.apply r with ⟨e | final, u⟩ <;> rw [happly] at hconclude <;> cases hconclude
    exact ⟨n, t, r, stage, hnext, hprocess, happly⟩

variable [Scalar.Congruent α]

/-- Rounds lead from one settled state to another. -/
theorem settled_rounds (hs : solvers.Tighten Node.Rebounded) (h : run.search.Settled)
    (hrounds : Rounds solvers run after) : after.search.Settled := by
  induction hrounds with
  | refl => exact h
  | @tail mid last _ hround ih =>
    -- a round sets the clock before it hands out a node
    obtain ⟨n, t, r, stage, hnext, hprocess, happly⟩ := exec_round_ok ih.strongDepth hround
    exact (ih.atTime (solvers.clock mid.memory)).apply hs hnext hprocess happly

/-- A search without strong branching, whose solvers change nothing but bounds when they tighten a
node, is balanced after any rounds: no node is waited for, every processed node met one of four
fates, and every node that was made is processed, open or was fathomed in the tree. The tree refuses
no node, so a node that is branched next gives way to exactly two. -/
theorem balanced_rounds {vars : List (Variable α)} {settings : Settings α} {start : Search α}
    {memory : σ} (hstart : Search.new vars settings = .ok start)
    (hstrong : settings.strongDepth = 0) (hs : solvers.Tighten Node.Rebounded)
    (hrounds : Rounds solvers ⟨start, memory⟩ run) :
    run.search.Balanced
      ∧ ∀ n t r u left, (now solvers run).next = (.ok n, t) →
        (processNode solvers n run.search.cutoff).Returns run.memory r left →
        t.apply r = (.ok .branched, u) →
        ∃ i down up, (t.brancher.opened r.node r.lowerBound (.split i down up)).card = 2
          ∧ u.brancher.frontier.nodes = t.brancher.opened r.node r.lowerBound (.split i down up)
            + (t.record r).2.brancher.frontier.nodes := by
  have hsettled := settled_rounds hs (Search.Settled.new hstart hstrong) hrounds
  refine ⟨hsettled.balanced, fun n t r u left hnext hprocess happly => ?_⟩
  have hnow : (now solvers run).Settled := hsettled.atTime (solvers.clock run.memory)
  have ht := Search.consistent_perform hnow.agrees.consistent .next
  rw [Search.perform, hnext] at ht
  -- recording the report leaves the variables alone, and so the parts that are opened
  have hkeeps := t.keeps_record ht r
  obtain ⟨i, down, up, hcard, hnodes⟩ := Search.nodes_settle_branched hkeeps.consistent
    (hnow.live hs hnext hprocess) (Search.apply_ok happly).2
  rw [Brancher.opened_congr hkeeps.vars] at hcard hnodes
  exact ⟨i, down, up, hcard, hnodes⟩

/-- The first round of the sample search splits the root. -/
theorem exists_sampleRound : ∃ start ∈ (Search.new Async.sampleVars .standard).toOption,
    ∃ status ∈ ((round Async.sampleSolvers).exec ⟨start, ()⟩).1.toOption, status = none
      ∧ ((round Async.sampleSolvers).exec ⟨start, ()⟩).2.search.stats.branched = 1 := by
  decide +kernel

/-- The sample solvers leave nodes as they are. -/
theorem tighten_sampleSolvers : Async.sampleSolvers.Tighten Node.Rebounded where
  preprocess h := by
    obtain ⟨-, rfl⟩ := Prod.mk.inj (Call.returns_pure h)
    exact ⟨_, rfl⟩
  postprocess h := by
    obtain ⟨-, rfl⟩ := Prod.mk.inj (Call.returns_pure h)
    exact ⟨_, rfl⟩

/-- After the first round of the sample search the books are balanced. -/
theorem balanced_sampleRound : ∃ start run, Search.new Async.sampleVars .standard = .ok start
    ∧ Rounds Async.sampleSolvers ⟨start, ()⟩ run ∧ run.search.stats.branched = 1
    ∧ run.search.Balanced := by
  obtain ⟨start, hstart, hround⟩ := exists_eq_ok exists_sampleRound
  obtain ⟨status, hanswer, rfl, hbranched⟩ := exists_eq_ok hround
  have hrounds : Rounds Async.sampleSolvers ⟨start, ()⟩
      ((round Async.sampleSolvers).exec ⟨start, ()⟩).2 := .single (Prod.ext hanswer rfl)
  exact ⟨start, _, hstart, hrounds, hbranched,
    (balanced_rounds hstart rfl tighten_sampleSolvers hrounds).1⟩

end Serial

end BranchBound
