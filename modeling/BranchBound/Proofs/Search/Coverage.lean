import BranchBound.Proofs.Brancher.Branching
import BranchBound.Proofs.Node.Processing
import BranchBound.Search.State

/-! # A search accounts for every point

A search accounts for a feasible point if its incumbent is as good, if an open node holds the point
under a valid score, or if the score of some node that left the search unresolved is a bound on it
(`Search.Covers`). The operations of a search keep this, and taking in the report on a node makes
the search account for all that the report accounts for.

* **`Search.Covers p s x`** — the search accounts for a point.
* **`Search.Settlement`** — what acting on a recorded report does.
* **`Search.Covers.apply`**, **`covers_apply`** — taking in a report loses no point that was
  accounted for, and accounts for those of its node. -/

namespace BranchBound

variable {α : Type} [Scalar α] [Scalar.Ordered α] {p : Problem α} {x : List α}

/-- The final stage of a node that was to be branched. -/
def Brancher.Branching.stage : Brancher.Branching → Stage
  | .dropped => .dropped
  | .requeued => .fixed
  | .split .. => .branched

/-! ## Searches -/

namespace Search

variable {s t : Search α} {r : Report α} {n : Node α}

/-- The search accounts for the point. -/
inductive Covers (p : Problem α) (s : Search α) (x : List α) : Prop
  /-- The incumbent is as good. -/
  | beaten (h : s.incumbent.value ≤ p.value x)
  /-- The score of a node that was discarded is a bound on the point. -/
  | discarded (h : s.discarded ≤ p.value x)
  /-- The frontier holds the point. -/
  | held (h : s.brancher.frontier.Holds p x)

omit [Scalar.Ordered α] in
/-- What a search accounts for depends on its incumbent, the score it keeps and its frontier. -/
theorem Covers.of_eq (h : s.Covers p x) (hincumbent : t.incumbent = s.incumbent)
    (hdiscarded : t.discarded = s.discarded)
    (hfrontier : t.brancher.frontier = s.brancher.frontier) : t.Covers p x := by
  cases h with
  | beaten h => exact .beaten (hincumbent ▸ h)
  | discarded h => exact .discarded (hdiscarded ▸ h)
  | held h => exact .held (hfrontier ▸ h)

/-- Keeping a score loses no point. -/
theorem Covers.noteDiscarded (h : s.Covers p x) (score : α) :
    (s.noteDiscarded score).Covers p x := by
  unfold Search.noteDiscarded
  split
  · exact h
  · cases h with
    | beaten h => exact .beaten h
    | discarded h => exact .discarded (Scalar.least_le_of_left h)
    | held h => exact .held h

/-- A score that is kept is a bound on the points it is a bound on. -/
theorem covers_noteDiscarded {score : α} (h : score ≤ p.value x) :
    (s.noteDiscarded score).Covers p x := by
  have hdef := Scalar.Ordered.isNaN_left_of_le h
  rw [Search.noteDiscarded, if_neg (by rw [hdef]; decide)]
  exact .discarded (Scalar.least_le_of_right h)

/-- The search once a better point was adopted, before the score of the nodes it dominates is
kept. -/
def adopt (s : Search α) (c : Candidate α) : Search α :=
  let brancher := (s.brancher.lowerThreshold c.value).2
  let pruned := brancher.frontier.fathomed - s.brancher.frontier.fathomed
  { s with
    incumbent := ⟨some c.point, c.value⟩
    brancher := brancher
    stats := { s.stats with
      improvements := s.stats.improvements + 1
      pruned := s.stats.pruned + pruned } }

omit [Scalar.Ordered α] in
/-- A better point is adopted. -/
theorem offer_of_lt {c : Candidate α} (h : c.value < s.incumbent.value) :
    s.offer c =
      (true, (s.adopt c).noteDiscarded (s.brancher.frontier.lowerThreshold c.value).1) := by
  simp only [Search.offer, Incumbent.offer, if_pos h, if_true]
  rfl

omit [Scalar.Ordered α] in
/-- Any other point is not. -/
theorem offer_of_not_lt {c : Candidate α} (h : ¬ c.value < s.incumbent.value) :
    s.offer c = (false, s) := by
  simp only [Search.offer, Incumbent.offer, if_neg h, Bool.false_eq_true, if_false]

/-- Offering a point loses no point. -/
theorem Covers.offer (h : s.Covers p x) (hs : s.brancher.frontier.Consistent) (c : Candidate α) :
    (s.offer c).2.Covers p x := by
  by_cases hlt : c.value < s.incumbent.value
  · rw [offer_of_lt hlt]
    cases h with
    | beaten h =>
      have hle := Scalar.Ordered.le_trans (Scalar.le_of_lt hlt) h
      exact Covers.noteDiscarded (s := s.adopt c) (.beaten hle) _
    | discarded h => exact Covers.noteDiscarded (s := s.adopt c) (.discarded h) _
    | held h =>
      rcases h.lowerThreshold hs c.value with hlow | hheld
      · exact covers_noteDiscarded hlow
      · exact Covers.noteDiscarded (s := s.adopt c) (.held hheld) _
  · rw [offer_of_not_lt hlt]
    exact h

/-- Once a point was offered, the incumbent is as good. -/
theorem covers_offer {c : Candidate α} (hs : Scalar.isNaN s.incumbent.value = false)
    (h : c.value ≤ p.value x) : (s.offer c).2.Covers p x := by
  by_cases hlt : c.value < s.incumbent.value
  · rw [offer_of_lt hlt]
    exact Covers.noteDiscarded (s := s.adopt c) (.beaten h) _
  · rw [offer_of_not_lt hlt]
    have hle := Scalar.le_of_not_lt (Scalar.Ordered.isNaN_left_of_le h) hs hlt
    exact .beaten (Scalar.Ordered.le_trans hle h)

/-! ## Names -/

/-- From one state of a search to another no node became open, and the names and the variables are
the same. -/
structure Keeps (s t : Search α) : Prop where
  /-- The frontier is consistent. -/
  consistent : t.brancher.frontier.Consistent
  /-- No node became open. -/
  nodes_le : t.brancher.frontier.nodes ≤ s.brancher.frontier.nodes
  /-- No id was given out. -/
  nextId : t.brancher.frontier.nextId = s.brancher.frontier.nextId
  /-- The variables are the same. -/
  vars : t.brancher.vars = s.brancher.vars
  /-- No node was queued once more. -/
  requeued : t.requeued = s.requeued

omit [Scalar.Ordered α] in
/-- Nothing happens from a state to itself. -/
theorem Keeps.refl (hs : s.brancher.frontier.Consistent) : s.Keeps s :=
  ⟨hs, le_refl _, rfl, rfl, rfl⟩

omit [Scalar.Ordered α] in
/-- What is kept depends on the frontier, the variables and the ids that are noted. -/
theorem Keeps.of_eq {u : Search α} (h : s.Keeps t)
    (hfrontier : u.brancher.frontier = t.brancher.frontier)
    (hvars : u.brancher.vars = t.brancher.vars) (hrequeued : u.requeued = t.requeued) :
    s.Keeps u where
  consistent := hfrontier ▸ h.consistent
  nodes_le := hfrontier ▸ h.nodes_le
  nextId := hfrontier ▸ h.nextId
  vars := hvars.trans h.vars
  requeued := hrequeued.trans h.requeued

omit [Scalar.Ordered α] in
/-- The nodes that are out and those that are open keep names of their own. -/
theorem Keeps.names (h : s.Keeps t) {rest : Multiset (Node α)}
    (hn : Names (s.brancher.frontier.nodes + rest) s.requeued s.brancher.frontier.nextId) :
    Names (t.brancher.frontier.nodes + rest) t.requeued t.brancher.frontier.nextId := by
  rw [h.requeued, h.nextId]
  exact hn.of_le (Multiset.add_le_add_right h.nodes_le)

omit [Scalar.Ordered α] in
/-- Keeping a score changes neither the frontier nor the names. -/
theorem Keeps.noteDiscarded (h : s.Keeps t) (score : α) : s.Keeps (t.noteDiscarded score) := by
  unfold Search.noteDiscarded
  split
  · exact h
  · exact h.of_eq rfl rfl rfl

/-- Offering a point opens no node. -/
theorem Keeps.offer (h : s.Keeps t) (c : Candidate α) : s.Keeps (t.offer c).2 := by
  by_cases hlt : c.value < t.incumbent.value
  · rw [offer_of_lt hlt]
    have hadopt : s.Keeps (t.adopt c) :=
      { consistent := h.consistent.lowerThreshold c.value
        nodes_le := le_trans (h.consistent.nodes_lowerThreshold_le c.value) h.nodes_le
        nextId := (Frontier.nextId_lowerThreshold _ _).trans h.nextId
        vars := h.vars
        requeued := h.requeued }
    exact hadopt.noteDiscarded _
  · rw [offer_of_not_lt hlt]
    exact h

/-! ## The bound -/

/-- The bound of the open nodes is at most what one of them, or the lowest score of those that are
out, is at most. -/
theorem openBound_le_iff {y : α} {outLowest : Option α} :
    s.openBound outLowest ≤ y
      ↔ s.brancher.frontier.lowestScore ≤ y ∨ ∃ score, outLowest = some score ∧ score ≤ y := by
  cases outLowest with
  | none => simp [openBound]
  | some score => simp [openBound, Scalar.least_le_iff]

/-- The bound of a search is at most what the lowest score of the open nodes, of those that are out,
of the discarded or of the refused ones is at most. -/
theorem provenBound_le_iff {y : α} {outLowest : Option α} :
    s.provenBound outLowest ≤ y
      ↔ ((s.brancher.frontier.lowestScore ≤ y ∨ ∃ score, outLowest = some score ∧ score ≤ y)
        ∨ s.discarded ≤ y) ∨ s.brancher.frontier.lowestRefused ≤ y := by
  rw [provenBound, Scalar.least_le_iff, Scalar.least_le_iff, openBound_le_iff]

/-- The search accounts for a point: its bound or its incumbent is a bound on the point. -/
theorem Covers.bound_le (h : s.Covers p x) (outLowest : Option α) :
    Scalar.least (s.provenBound outLowest) s.incumbent.value ≤ p.value x := by
  cases h with
  | beaten h => exact Scalar.least_le_of_right h
  | discarded h => exact Scalar.least_le_of_left (provenBound_le_iff.mpr (.inl (.inr h)))
  | held h =>
    refine Scalar.least_le_of_left (provenBound_le_iff.mpr ?_)
    rcases h.lowest_le with hopen | hrefused
    · exact .inl (.inl (.inl hopen))
    · exact .inr hrefused

/-! ## Taking in a report -/

omit [Scalar.Ordered α] in
/-- Confirming a node changes neither the frontier nor the variables. -/
theorem confirm_frontier (b : Brancher α) (id : Nat) (n : Node α) :
    (b.confirm id n).2.frontier = b.frontier ∧ (b.confirm id n).2.vars = b.vars := by
  rcases hconfirm : b.confirm id n with ⟨answer, c⟩
  cases Brancher.confirm_exit hconfirm <;> exact ⟨rfl, rfl⟩

/-- The search once a report is in the counters and the account of time. -/
def counted (s : Search α) (r : Report α) : Search α :=
  { s with
    usage := s.usage.addProcessing r.busy
    stats := { s.stats with
      processed := s.stats.processed + 1
      lowerCalls := (s.stats.lowerCalls + r.lowerCalls) % wordRange
      upperCalls := (s.stats.upperCalls + r.upperCalls) % wordRange
      maxDepth := max s.stats.maxDepth r.node.depth } }

omit [Scalar.Ordered α] in
/-- Accounting a report is counting it and offering the point it brings. -/
theorem account_eq (s : Search α) (r : Report α) :
    s.account r = match r.candidate with
      | some c => ((s.counted r).offer c).2
      | none => s.counted r := rfl

/-- Accounting a report loses no point. -/
theorem Covers.account (h : s.Covers p x) (hs : s.brancher.frontier.Consistent) (r : Report α) :
    (s.account r).Covers p x := by
  have hcounted : (s.counted r).Covers p x := h.of_eq rfl rfl rfl
  rw [account_eq]
  split
  · exact hcounted.offer hs _
  · exact hcounted

/-- Once a report was accounted, the incumbent is as good as the point it brings. -/
theorem covers_account {c : Candidate α} (hs : Scalar.isNaN s.incumbent.value = false)
    (hc : r.candidate = some c) (hle : c.value ≤ p.value x) : (s.account r).Covers p x := by
  rw [account_eq, hc]
  exact covers_offer (s := s.counted r) hs hle

omit [Scalar.Ordered α] in
/-- Recording a report loses no point that was accounted for with it. -/
theorem Covers.record (h : (s.account r).Covers p x) : (s.record r).2.Covers p x :=
  h.of_eq rfl rfl (confirm_frontier (s.account r).brancher r.node.id r.node).1

/-- Recording a report opens no node. -/
theorem keeps_record (s : Search α) (hs : s.brancher.frontier.Consistent) (r : Report α) :
    s.Keeps (s.record r).2 := by
  have hcounted : s.Keeps (s.counted r) := (Keeps.refl hs).of_eq rfl rfl rfl
  have haccount : s.Keeps (s.account r) := by
    rw [account_eq]
    split
    · exact hcounted.offer _
    · exact hcounted
  obtain ⟨hfrontier, hvars⟩ := confirm_frontier (s.account r).brancher r.node.id r.node
  exact haccount.of_eq hfrontier hvars rfl

omit [Scalar.Ordered α] in
/-- Keeping a score counts nothing. -/
@[simp] theorem stats_noteDiscarded (s : Search α) (score : α) :
    (s.noteDiscarded score).stats = s.stats := by
  unfold Search.noteDiscarded
  split <;> rfl

omit [Scalar.Ordered α] in
/-- Recording a report counts one node. -/
theorem processed_record (s : Search α) (r : Report α) :
    (s.record r).2.stats.processed = s.stats.processed + 1 := by
  show (s.account r).stats.processed = s.stats.processed + 1
  rw [account_eq]
  split
  · next c _ =>
    by_cases hlt : c.value < (s.counted r).incumbent.value
    · rw [offer_of_lt hlt, stats_noteDiscarded]
      rfl
    · rw [offer_of_not_lt hlt]
      rfl
  · rfl

omit [Scalar.Ordered α] in
/-- A report is recorded, and if that succeeds, it is acted on. -/
theorem apply_cases (s : Search α) (r : Report α) :
    (∃ e, (s.record r).1 = .error e ∧ s.apply r = (.error e, (s.record r).2))
      ∨ (s.record r).1 = .ok () ∧ s.apply r = (s.record r).2.settle r := by
  unfold apply
  rcases s.record r with ⟨e | _, u⟩
  · exact .inl ⟨e, rfl, rfl⟩
  · exact .inr ⟨rfl, rfl⟩

omit [Scalar.Ordered α] in
/-- A report that is taken in was recorded and then acted on. -/
theorem apply_ok {stage : Stage} (h : s.apply r = (.ok stage, t)) :
    (s.record r).1 = .ok () ∧ (s.record r).2.settle r = (.ok stage, t) := by
  rcases s.apply_cases r with ⟨e, -, happly⟩ | ⟨hrecord, happly⟩ <;> rw [happly] at h
  · cases h
  · exact ⟨hrecord, h⟩

omit [Scalar.Ordered α] in
/-- A report that can be recorded is taken in if it can be acted on. -/
theorem apply_of_record (hrecord : (s.record r).1 = .ok ()) :
    s.apply r = (s.record r).2.settle r := by
  rcases s.apply_cases r with ⟨e, herror, -⟩ | ⟨-, happly⟩
  · cases hrecord.symm.trans herror
  · exact happly

/-- What becomes of a search whose brancher has branched the node of a report. -/
def branched (s : Search α) (r : Report α) (b : Brancher α) : Brancher.Branching → Search α
  | .requeued =>
      { s with
        brancher := b
        requeued := r.node.id :: s.requeued
        stats.fixed := s.stats.fixed + 1 }
  | .dropped => ({ s with brancher := b } : Search α).countDropped.noteDiscarded r.node.score
  | .split .. => ({ s with brancher := b } : Search α).countBranched

/-- What acting on a recorded report does to a search, with the final stage of the node. -/
inductive Settlement (s : Search α) (r : Report α) : Stage → Search α → Prop
  /-- The node was fathomed. -/
  | fathomed {reason : Reason} (h : r.stage = .fathomed reason) :
      Settlement s r (.fathomed reason) (s.countFathomed r)
  /-- The node has to be branched, but is a single point that was evaluated twice. -/
  | twice (h : r.stage = .postprocessed) (hpoint : r.node.box.isPoint = true)
      (hrequeued : r.node.id ∈ s.requeued) :
      Settlement s r (.fathomed .fixedPointEvaluated)
        { s with stats.fathomed := s.stats.fathomed + 1 }
  /-- The node has to be branched, and the brancher branches it. -/
  | branched (h : r.stage = .postprocessed)
      (honce : ¬ (r.node.box.isPoint = true ∧ r.node.id ∈ s.requeued))
      {outcome : Brancher.Branching} {b : Brancher α}
      (hbranch : s.brancher.branch r.node r.point r.lowerBound s.settings.sizeTolerance
        = (.ok outcome, b)) :
      Settlement s r outcome.stage (s.branched r b outcome)

omit [Scalar.Ordered α] in
/-- Acting on a recorded report does one of these things. -/
theorem settlement {stage : Stage} (hsettle : s.settle r = (.ok stage, t)) :
    s.Settlement r stage t := by
  unfold Search.settle at hsettle
  split at hsettle
  · next h =>
    cases hsettle
    exact .fathomed h
  · next h =>
    unfold Search.branch at hsettle
    split at hsettle
    · next htwice =>
      cases hsettle
      exact .twice h htwice.1 htwice.2
    · next honce =>
      rcases hbranch : s.brancher.branch r.node r.point r.lowerBound s.settings.sizeTolerance
        with ⟨e | outcome, b⟩ <;> simp only [hbranch] at hsettle
      · cases hsettle
      · have hsettled := Settlement.branched h honce hbranch
        cases outcome <;> cases hsettle <;> exact hsettled
  · cases hsettle

omit [Scalar.Ordered α] in
/-- And each of them is done where it is called for. -/
theorem Settlement.settle_eq {stage : Stage} (h : s.Settlement r stage t) :
    s.settle r = (.ok stage, t) := by
  cases h with
  | fathomed hstage =>
    unfold settle
    rw [hstage]
  | twice hstage hpoint hrequeued =>
    unfold settle branch
    rw [hstage]
    exact if_pos ⟨hpoint, hrequeued⟩
  | @branched hstage honce outcome b hbranch =>
    unfold settle branch
    rw [hstage]
    dsimp only
    rw [if_neg honce, hbranch]
    cases outcome <;> rfl

omit [Scalar.Ordered α] in
/-- It fails if the brancher refuses the node that has to be branched, or if the report is in a
stage that asks for nothing. -/
theorem settle_refusal {e : Error α} (hsettle : s.settle r = (.error e, t)) :
    r.stage = .postprocessed ∧ ¬ (r.node.box.isPoint = true ∧ r.node.id ∈ s.requeued)
        ∧ (∃ b, s.brancher.branch r.node r.point r.lowerBound s.settings.sizeTolerance
          = (.error e, b) ∧ t = { s with brancher := b })
      ∨ (∀ reason, r.stage ≠ .fathomed reason) ∧ r.stage ≠ .postprocessed
        ∧ e = .invalidProblem (.openStage r.node.id r.stage) ∧ t = s := by
  unfold settle at hsettle
  split at hsettle
  · cases hsettle
  · next hstage =>
    unfold branch at hsettle
    split at hsettle
    · cases hsettle
    · next honce =>
      rcases hbranch : s.brancher.branch r.node r.point r.lowerBound s.settings.sizeTolerance
        with ⟨cause | outcome, b⟩ <;> simp only [hbranch] at hsettle
      · cases hsettle
        exact .inl ⟨hstage, honce, b, rfl, rfl⟩
      · -- a node that was branched is settled, whatever the outcome
        cases outcome <;> cases hsettle
  · next hfathomed hopen =>
    cases hsettle
    exact .inr ⟨hfathomed, hopen, rfl, rfl⟩

omit [Scalar.Ordered α] in
/-- A report that cannot be acted on leaves the search as it is. -/
theorem settle_error {e : Error α} (h : s.settle r = (.error e, t)) :
    t = s ∧ ∃ fault, e = .invalidProblem fault := by
  rcases settle_refusal h with ⟨-, -, b, hbranch, rfl⟩ | ⟨-, -, rfl, rfl⟩
  · rw [Brancher.branch_error hbranch]
    exact ⟨rfl, Brancher.branch_eq_error hbranch⟩
  · exact ⟨rfl, _, rfl⟩

/-- Counting a fathomed node loses no point. -/
theorem Covers.countFathomed (h : s.Covers p x) (r : Report α) :
    (s.countFathomed r).Covers p x := by
  have hcounted : ({ s with stats.fathomed := s.stats.fathomed + 1 } : Search α).Covers p x :=
    h.of_eq rfl rfl rfl
  unfold Search.countFathomed
  dsimp only
  split
  · exact hcounted.noteDiscarded _
  · exact hcounted

/-- A search whose brancher has branched a node accounts for what the brancher holds. -/
theorem covers_branched_of_holds {b : Brancher α} (h : b.frontier.Holds p x) (r : Report α)
    (outcome : Brancher.Branching) : (s.branched r b outcome).Covers p x := by
  cases outcome with
  | requeued => exact .held h
  | dropped =>
    exact Covers.noteDiscarded (s := ({ s with brancher := b } : Search α).countDropped) (.held h) _
  | split => exact .held h

/-- Branching the node of a report loses no point. -/
theorem Covers.branched (h : s.Covers p x) {b : Brancher α} {outcome : Brancher.Branching}
    {parent : Node α} {point : List α} {objective : α} (hs : s.brancher.frontier.Consistent)
    (hb : Brancher.Branched s.brancher parent point objective outcome b) (r : Report α) :
    (s.branched r b outcome).Covers p x := by
  have hbranched : ({ s with brancher := b } : Search α).Covers p x := by
    cases h with
    | beaten h => exact .beaten h
    | discarded h => exact .discarded h
    | held h => exact .held (hb.holds hs h)
  cases outcome with
  | requeued => exact hbranched.of_eq rfl rfl rfl
  | dropped =>
    exact Covers.noteDiscarded (s := ({ s with brancher := b } : Search α).countDropped)
      (hbranched.of_eq rfl rfl rfl) _
  | split => exact hbranched.of_eq rfl rfl rfl

/-- Acting on a recorded report loses no point. -/
theorem Covers.settle (h : s.Covers p x) (hs : s.brancher.frontier.Consistent) {stage : Stage}
    (hsettle : s.settle r = (.ok stage, t)) : t.Covers p x := by
  cases settlement hsettle with
  | fathomed => exact h.countFathomed r
  | twice => exact h.of_eq rfl rfl rfl
  | branched _ _ hb => exact h.branched hs (Brancher.branch_cases hb).2 r

/-! ## The names after a report was taken in -/

/-- From one state of a search to another a node that was out gave way to open ones: these and the
nodes that are still out have names of their own, and two ids were given out at most. -/
structure Replaces (s t : Search α) (out : Multiset (Node α)) : Prop where
  /-- The frontier is consistent. -/
  consistent : t.brancher.frontier.Consistent
  /-- The nodes have names of their own. -/
  names : Names (t.brancher.frontier.nodes + out) t.requeued t.brancher.frontier.nextId
  /-- Two ids were given out at most. -/
  nextId_le : t.brancher.frontier.nextId ≤ s.brancher.frontier.nextId + 2
  /-- The variables are the same. -/
  vars : t.brancher.vars = s.brancher.vars

omit [Scalar.Ordered α] in
/-- A node that was out may give way to none. -/
theorem Keeps.replaces (h : s.Keeps t) {out : Multiset (Node α)}
    (hn : Names (n ::ₘ (s.brancher.frontier.nodes + out)) s.requeued s.brancher.frontier.nextId) :
    s.Replaces t out where
  consistent := h.consistent
  names := h.names (hn.of_le (Multiset.le_cons_self _ _))
  nextId_le := h.nextId ▸ Nat.le_add_right _ _
  vars := h.vars

omit [Scalar.Ordered α] in
/-- Counting a fathomed node opens no node. -/
theorem Keeps.countFathomed (h : s.Keeps t) (r : Report α) : s.Keeps (t.countFathomed r) := by
  have hcounted : s.Keeps { t with stats.fathomed := t.stats.fathomed + 1 } := h.of_eq rfl rfl rfl
  unfold Search.countFathomed
  dsimp only
  split
  · exact hcounted.noteDiscarded _
  · exact hcounted

omit [Scalar.Ordered α] in
/-- The ids that are noted once the node of a report was branched. -/
theorem requeued_branched (s : Search α) (r : Report α) (b : Brancher α)
    (outcome : Brancher.Branching) :
    (s.branched r b outcome).brancher = b
      ∧ (s.branched r b outcome).requeued = outcome.noted r.node.id s.requeued := by
  cases outcome with
  | requeued => exact ⟨rfl, rfl⟩
  | dropped =>
    rw [Search.branched, Search.noteDiscarded]
    split <;> exact ⟨rfl, rfl⟩
  | split => exact ⟨rfl, rfl⟩

/-- Acting on a recorded report lets its node give way to open ones. -/
theorem replaces_settle {stage : Stage} (hsettle : s.settle r = (.ok stage, t))
    (hs : s.brancher.frontier.Consistent) {out : Multiset (Node α)}
    (hn : Names (n ::ₘ (s.brancher.frontier.nodes + out)) s.requeued s.brancher.frontier.nextId)
    (hid : r.node.id = n.id) (hnext : s.brancher.frontier.nextId + 2 < wordRange) :
    s.Replaces t out := by
  cases settlement hsettle with
  | fathomed => exact ((Keeps.refl hs).countFathomed r).replaces hn
  | twice =>
    have hcounted : s.Keeps { s with stats.fathomed := s.stats.fathomed + 1 } :=
      (Keeps.refl hs).of_eq rfl rfl rfl
    exact hcounted.replaces hn
  | @branched _ _ outcome b hb =>
    obtain ⟨-, hbranched⟩ := Brancher.branch_cases hb
    obtain ⟨hbrancher, hrequeued⟩ := requeued_branched s r b outcome
    obtain ⟨hnames, hle⟩ := hbranched.names hs hn hid hnext
    -- what branching makes of the brancher is all that matters for names
    refine ⟨?_, ?_, ?_, ?_⟩ <;> rw [hbrancher]
    · exact hbranched.consistent hs
    · rw [hrequeued, hid]
      exact hnames
    · exact hle
    · exact hbranched.vars

omit [Scalar.Ordered α] in
/-- Branching the node of a report counts no further node as processed. -/
theorem processed_branched (s : Search α) (r : Report α) (b : Brancher α)
    (outcome : Brancher.Branching) :
    (s.branched r b outcome).stats.processed = s.stats.processed := by
  cases outcome with
  | requeued => rfl
  | dropped =>
    rw [Search.branched, stats_noteDiscarded]
    rfl
  | split => rfl

omit [Scalar.Ordered α] in
/-- Nor does counting a fathomed node. -/
theorem processed_countFathomed (s : Search α) (r : Report α) :
    (s.countFathomed r).stats.processed = s.stats.processed := by
  unfold Search.countFathomed
  dsimp only
  split
  · rw [stats_noteDiscarded]
  · rfl

omit [Scalar.Ordered α] in
/-- Acting on a recorded report counts no further node as processed. -/
theorem processed_settle {stage : Stage} (hsettle : s.settle r = (.ok stage, t)) :
    t.stats.processed = s.stats.processed := by
  cases settlement hsettle with
  | fathomed => exact s.processed_countFathomed r
  | twice => rfl
  | branched => exact s.processed_branched r _ _

/-- Taking in a report lets its node give way to open ones. -/
theorem replaces_apply {stage : Stage} (happly : s.apply r = (.ok stage, t))
    (hs : s.brancher.frontier.Consistent) {out : Multiset (Node α)}
    (hn : Names (n ::ₘ (s.brancher.frontier.nodes + out)) s.requeued s.brancher.frontier.nextId)
    (hid : r.node.id = n.id) (hnext : s.brancher.frontier.nextId + 2 < wordRange) :
    s.Replaces t out := by
  have hkeeps := s.keeps_record hs r
  obtain ⟨-, hsettle⟩ := apply_ok happly
  rw [← Multiset.add_cons] at hn
  have hn' := hkeeps.names hn
  rw [Multiset.add_cons] at hn'
  have h := replaces_settle hsettle hkeeps.consistent hn' hid (hkeeps.nextId ▸ hnext)
  exact ⟨h.consistent, h.names, hkeeps.nextId ▸ h.nextId_le, h.vars.trans hkeeps.vars⟩

omit [Scalar.Ordered α] in
/-- Taking in a report counts one node as processed. -/
theorem processed_apply {stage : Stage} (happly : s.apply r = (.ok stage, t)) :
    t.stats.processed = s.stats.processed + 1 := by
  obtain ⟨-, hsettle⟩ := apply_ok happly
  rw [processed_settle hsettle, processed_record]

/-! ## The points after a report was taken in -/

/-- Taking in a report loses no point. -/
theorem Covers.apply (h : s.Covers p x) (hs : s.brancher.frontier.Consistent) {stage : Stage}
    (happly : s.apply r = (.ok stage, t)) : t.Covers p x := by
  obtain ⟨-, hsettle⟩ := apply_ok happly
  exact (h.account hs r).record.settle (s.keeps_record hs r).consistent hsettle

omit [Scalar.Ordered α] in
/-- Once a report was taken in, the search accounts for the points that the report accounts for in
its node. The incumbent that the node was processed against may be an older one, but not a better
one. -/
theorem covers_apply [Scalar.Exact α] (hs : s.brancher.frontier.Consistent) {stage : Stage}
    (happly : s.apply r = (.ok stage, t)) {v : α} (hv : s.incumbent.value ≤ v)
    (hr : r.Accounts v n x (p.value x)) (hx : Integral s.brancher.vars x)
    (htwice : r.node.id ∈ s.requeued → n.box.isPoint = true) : t.Covers p x := by
  have hdef := Scalar.Ordered.isNaN_left_of_le hv
  have hkeeps := s.keeps_record hs r
  obtain ⟨-, hsettle⟩ := apply_ok happly
  cases hr with
  | beaten hle => exact Covers.apply (.beaten (Scalar.Ordered.le_trans hv hle)) hs happly
  | found c hc hle =>
    exact (covers_account hdef hc hle).record.settle hkeeps.consistent hsettle
  | dominated hstage hscore =>
    cases settlement hsettle with
    | fathomed =>
      rw [Search.countFathomed, if_pos hstage]
      exact covers_noteDiscarded hscore
    | twice hopen | branched hopen => cases hstage.symm.trans hopen
  | left hstage hpoint hbox hscore hbound =>
    cases settlement hsettle with
    | fathomed hfathomed => cases hstage.symm.trans hfathomed
    | twice _ _ hnoted =>
      -- a node that is evaluated for the second time was a single point before
      rw [hkeeps.requeued] at hnoted
      cases (htwice hnoted).symm.trans hpoint
    | @branched _ _ outcome b hb =>
      obtain ⟨hdim, hbranched⟩ := Brancher.branch_cases hb
      rw [← hkeeps.vars] at hx
      by_cases hout : outcome = .dropped
      · rw [hout]
        exact covers_noteDiscarded hscore
      · exact covers_branched_of_holds (hbranched.holds_of_guards hdim hkeeps.consistent hout
          ⟨hbox, hscore⟩ hbound hx) r outcome

end Search

end BranchBound
