import BranchBound.Proofs.Brancher.Refusing
import BranchBound.Proofs.Search.Reporting

/-! # Reports that are refused

A report is recorded before anyone asks whether it may be acted on. So a report that is refused was
accounted, its point was offered, and its node is no longer waited for; what does not happen is that
anything becomes of the node.

* **`Search.Refuses`** — the reasons for which a report is refused.
* **`Search.OnlyRecorded`** — what a report leaves that is recorded and nothing more.
* **`Search.recorded_of_apply_error`** — that is what a report leaves that is refused.
* **`Search.touched_by_early`** — that is not nothing. -/

namespace BranchBound

variable {α : Type} [Scalar α]

/-- Confirming a node changes what is waited for and what was learned, and nothing else. -/
theorem Brancher.confirm_frame (b : Brancher α) (id : Nat) (n : Node α) :
    ∃ waiting pseudocosts, (b.confirm id n).2 = { b with waiting, pseudocosts } := by
  cases hlookup : b.waiting.lookup id with
  | none => exact ⟨b.waiting, b.pseudocosts, by rw [confirm, hlookup]⟩
  | some entry => exact ⟨_, _, confirm_of_lookup hlookup n⟩

namespace Search

/-- The search once the point of a report was offered, and nothing else was done. -/
def offered (s : Search α) (r : Report α) : Search α :=
  match r.candidate with
  | some c => (s.offer c).2
  | none => s

/-- A report brings no better point. -/
def NoBetter (s : Search α) (r : Report α) : Prop :=
  ∀ c, r.candidate = some c → ¬ c.value < s.incumbent.value

/-- Why a report is refused, and the error that it is answered with: its node is not waited for, or
came out of a split on a variable that there is not; or it is in a stage that asks for neither
counting nor branching; or it cannot be branched, and was not queued once more before. -/
def Refuses (s : Search α) (r : Report α) (e : Error α) : Prop :=
  match s.brancher.waiting.lookup r.node.id with
  | none => e = .unknownNode r.node.id
  | some entry =>
      (∃ i side, entry.history.split? = some (i, side) ∧ s.brancher.vars[i]? = none
        ∧ e = .invalidProblem (.unknownVariable r.node.id i s.brancher.vars.length))
      ∨ entry.history.Known s.brancher.vars.length
        ∧ match r.stage with
          | .fathomed _ => False
          | .postprocessed => ¬ (r.node.box.isPoint ∧ r.node.id ∈ s.requeued)
              ∧ s.brancher.Refuses
                (.branch r.node r.point r.lowerBound s.settings.sizeTolerance) e
          | stage => e = .invalidProblem (.openStage r.node.id stage)

/-- What a report leaves that is recorded and nothing more. -/
structure OnlyRecorded (s : Search α) (r : Report α) (t : Search α) : Prop where
  /-- It is in the account of time. -/
  usage : t.usage = s.usage.addProcessing r.busy
  /-- It is in the counters; none of them counts what became of its node. -/
  stats : t.stats = { s.stats with
    processed := s.stats.processed + 1
    lowerCalls := (s.stats.lowerCalls + r.lowerCalls) % wordRange
    upperCalls := (s.stats.upperCalls + r.upperCalls) % wordRange
    maxDepth := max s.stats.maxDepth r.node.depth
    improvements := (s.offered r).stats.improvements
    pruned := (s.offered r).stats.pruned }
  /-- Its point was offered, as it is without a report. -/
  incumbent : t.incumbent = (s.offered r).incumbent
  /-- The open nodes and the threshold are those that this leaves. -/
  frontier : t.brancher.frontier = (s.offered r).brancher.frontier
  /-- So is the lowest score of the nodes that were not resolved. -/
  discarded : t.discarded = (s.offered r).discarded
  /-- A point that is not better leaves all that as it was. -/
  unchanged : s.NoBetter r → t.incumbent = s.incumbent ∧ t.brancher.frontier = s.brancher.frontier
    ∧ t.discarded = s.discarded ∧ t.stats.improvements = s.stats.improvements
    ∧ t.stats.pruned = s.stats.pruned
  /-- A node that is not waited for changes nothing in what is waited for and what was learned. -/
  stray : r.node.id ∉ s.brancher.waiting.ids → t.brancher.waiting = s.brancher.waiting
    ∧ t.brancher.pseudocosts = s.brancher.pseudocosts
  /-- A node that is waited for is back, and something was learned from it. -/
  back : ∀ entry, s.brancher.waiting.lookup r.node.id = some entry →
    t.brancher.waiting = s.brancher.waiting.erase r.node.id
      ∧ t.brancher.pseudocosts = (s.offered r).brancher.learned entry r.node.score
  /-- The rest of the brancher is as it was. -/
  brancher : t.brancher.vars = s.brancher.vars ∧ t.brancher.rule = s.brancher.rule
    ∧ t.brancher.scoring = s.brancher.scoring
  /-- So are the settings and the single points that were queued once more. -/
  rest : t.settings = s.settings ∧ t.requeued = s.requeued

variable {s t : Search α} {r : Report α} {e : Error α}

/-! ## Accounting -/

/-- Counting a report and keeping a score may change places. -/
theorem counted_noteDiscarded (s : Search α) (r : Report α) (score : α) :
    (s.noteDiscarded score).counted r = (s.counted r).noteDiscarded score := by
  unfold noteDiscarded
  split <;> rfl

/-- Accounting a report is offering its point and counting it. -/
theorem account_eq_counted (s : Search α) (r : Report α) :
    s.account r = (s.offered r).counted r := by
  rw [account_eq, offered]
  cases r.candidate with
  | none => rfl
  | some c =>
    by_cases hlt : c.value < s.incumbent.value
    · have hcounted : c.value < (s.counted r).incumbent.value := hlt
      dsimp only
      rw [offer_of_lt hlt, offer_of_lt hcounted, counted_noteDiscarded]
      rfl
    · have hcounted : ¬ c.value < (s.counted r).incumbent.value := hlt
      dsimp only
      rw [offer_of_not_lt hlt, offer_of_not_lt hcounted]

/-- Offering a point that is not better changes nothing. -/
theorem offered_eq_self (h : s.NoBetter r) : s.offered r = s := by
  unfold offered
  cases hcandidate : r.candidate with
  | none => rfl
  | some c =>
    dsimp only
    rw [offer_of_not_lt (h c hcandidate)]

/-- Offering the point of a report changes the incumbent, the frontier, two counters and the lowest
score of the nodes that were not resolved. -/
theorem offered_frame (s : Search α) (r : Report α) :
    ∃ incumbent frontier improvements pruned discarded, s.offered r = { s with
      incumbent
      brancher := { s.brancher with frontier }
      stats := { s.stats with improvements, pruned }
      discarded } := by
  unfold offered
  cases r.candidate with
  | none => exact ⟨_, _, _, _, _, rfl⟩
  | some c =>
    dsimp only
    -- a point that is no better is not taken
    by_cases hlt : c.value < s.incumbent.value
    · rw [offer_of_lt hlt]
      unfold noteDiscarded
      dsimp only
      split <;> exact ⟨_, _, _, _, _, rfl⟩
    · rw [offer_of_not_lt hlt]
      exact ⟨_, _, _, _, _, rfl⟩

/-- It leaves what is waited for, what was learned and the variables. -/
theorem offered_brancher (s : Search α) (r : Report α) :
    (s.offered r).brancher.waiting = s.brancher.waiting
      ∧ (s.offered r).brancher.pseudocosts = s.brancher.pseudocosts
      ∧ (s.offered r).brancher.vars = s.brancher.vars := by
  obtain ⟨incumbent, frontier, improvements, pruned, discarded, heq⟩ := s.offered_frame r
  rw [heq]
  exact ⟨rfl, rfl, rfl⟩

/-! ## Recording -/

/-- Recording a report is offering its point, counting it and confirming its node. -/
theorem record_eq (s : Search α) (r : Report α) :
    s.record r = (((s.offered r).brancher.confirm r.node.id r.node).1,
      { (s.offered r).counted r with
        brancher := ((s.offered r).brancher.confirm r.node.id r.node).2 }) := by
  rw [record, account_eq_counted]
  rfl

/-- What is left of a report that was recorded. -/
theorem onlyRecorded_record (s : Search α) (r : Report α) : s.OnlyRecorded r (s.record r).2 := by
  obtain ⟨incumbent, frontier, improvements, pruned, discarded, heq⟩ := s.offered_frame r
  obtain ⟨hwaiting, hpseudocosts, -⟩ := s.offered_brancher r
  obtain ⟨waiting, pseudocosts, hconfirm⟩ :=
    (s.offered r).brancher.confirm_frame r.node.id r.node
  -- a report is offered first, and then its node is confirmed
  rw [record_eq]
  exact
    { usage := by rw [heq]; rfl
      stats := by rw [heq]; rfl
      incumbent := rfl
      frontier := by rw [hconfirm]
      discarded := rfl
      unchanged := fun h => by
        rw [hconfirm, offered_eq_self h]
        exact ⟨rfl, rfl, rfl, rfl, rfl⟩
      stray := fun h => by
        rw [← hwaiting] at h
        rw [Brancher.confirm, Waiting.lookup_eq_none_iff.mpr h]
        exact ⟨hwaiting, hpseudocosts⟩
      back := fun entry h => by
        rw [← hwaiting] at h
        rw [Brancher.confirm_of_lookup h, ← hwaiting]
        exact ⟨rfl, rfl⟩
      brancher := by
        rw [hconfirm, heq]
        exact ⟨rfl, rfl, rfl⟩
      rest := by
        rw [heq]
        exact ⟨rfl, rfl⟩ }

/-- Recording a report fails if its node is not waited for, or came out of a split on a variable
that there is not. -/
theorem record_error (h : (s.record r).1 = .error e) : s.Refuses r e := by
  obtain ⟨hwaiting, -, hvars⟩ := s.offered_brancher r
  rw [record_eq, Brancher.confirm, hwaiting, hvars] at h
  rw [Refuses]
  cases hlookup : s.brancher.waiting.lookup r.node.id with
  | none =>
    rw [hlookup] at h
    exact (Except.error.inj h).symm
  | some entry =>
    rw [hlookup] at h
    dsimp only at h ⊢
    -- a node that was not split has no sample to give, and is confirmed as it is
    cases hsplit : entry.history.split? with
    | none =>
      rw [hsplit] at h
      cases h
    | some p =>
      rw [hsplit] at h
      dsimp only at h
      cases hv : s.brancher.vars[p.1]? with
      | none =>
        rw [hv] at h
        exact .inl ⟨p.1, p.2, rfl, hv, (Except.error.inj h).symm⟩
      | some v =>
        rw [hv] at h
        cases h

/-- A report that can be recorded is one on a node that is waited for. -/
theorem record_ok (h : (s.record r).1 = .ok ()) :
    ∃ entry, s.brancher.waiting.lookup r.node.id = some entry
      ∧ entry.history.Known s.brancher.vars.length := by
  obtain ⟨hwaiting, -, hvars⟩ := s.offered_brancher r
  rw [record_eq, Brancher.confirm, hwaiting, hvars] at h
  cases hlookup : s.brancher.waiting.lookup r.node.id with
  | none =>
    rw [hlookup] at h
    cases h
  | some entry =>
    refine ⟨entry, rfl, fun p hsplit => ?_⟩
    rw [hlookup] at h
    dsimp only at h
    rw [hsplit] at h
    dsimp only at h
    -- had the split been on a variable that there is not, the report would be refused
    cases hv : s.brancher.vars[p.1]? with
    | none =>
      rw [hv] at h
      cases h
    | some v => exact (List.getElem?_eq_some_iff.mp hv).1

/-- A report that was recorded cannot be acted on if its stage asks for neither counting nor
branching, or if its node cannot be branched. -/
theorem settle_refused (h : (s.settle r).1 = .error e) :
    match r.stage with
    | .fathomed _ => False
    | .postprocessed => ¬ (r.node.box.isPoint ∧ r.node.id ∈ s.requeued)
        ∧ s.brancher.Refuses (.branch r.node r.point r.lowerBound s.settings.sizeTolerance) e
    | stage => e = .invalidProblem (.openStage r.node.id stage) := by
  rcases hsettle : s.settle r with ⟨answer, t⟩
  rw [hsettle] at h
  cases h
  rcases settle_refusal hsettle with ⟨hstage, honce, b, hbranch, -⟩ | ⟨hfathomed, hopen, rfl, -⟩
  · rw [hstage]
    exact ⟨honce, Brancher.branch_refused_iff.mp (congrArg Prod.fst hbranch)⟩
  · cases hstage : r.stage with
    | fathomed reason => exact hfathomed reason hstage
    | postprocessed => exact absurd hstage hopen
    | _ => rfl

/-- A report is refused for one of the reasons and for no other. -/
theorem refuses_of_apply_error (h : (s.apply r).1 = .error e) : s.Refuses r e := by
  have hrecorded := s.onlyRecorded_record r
  rw [apply] at h
  rcases hrecord : s.record r with ⟨cause | _, u⟩
  · rw [hrecord] at h
    exact record_error ((congrArg Prod.fst hrecord).trans (congrArg _ (Except.error.inj h)))
  · rw [hrecord] at h hrecorded
    obtain ⟨entry, hlookup, hknown⟩ := record_ok (congrArg Prod.fst hrecord)
    have hrefused := settle_refused h
    unfold Refuses
    rw [hlookup]
    refine .inr ⟨hknown, ?_⟩
    -- what was recorded does not matter for the refusal that comes after it
    cases hstage : r.stage with
    | fathomed reason =>
      rw [hstage] at hrefused
      exact hrefused
    | postprocessed =>
      rw [hstage] at hrefused
      obtain ⟨htwice, hbranch⟩ := hrefused
      rw [hrecorded.rest.2] at htwice
      rw [hrecorded.rest.1] at hbranch
      exact ⟨htwice, hbranch.branch_congr hrecorded.brancher.1 hrecorded.brancher.2.1⟩
    | _ =>
      rw [hstage] at hrefused
      exact hrefused

/-! ## What a refused report leaves -/

/-- A report that is refused was recorded, and nothing came of its node: it is in the counters and
in the account of time, and its point was offered. If the point is no better, the open nodes, the
threshold, the incumbent and the lowest score of the nodes that were not resolved are as they were.
If the node is not waited for, so is what is waited for and what was learned; otherwise the node is
back. -/
theorem recorded_of_apply_error (h : s.apply r = (.error e, t)) :
    s.Refuses r e ∧ s.OnlyRecorded r t := by
  refine ⟨refuses_of_apply_error (congrArg Prod.fst h), ?_⟩
  rw [(apply_error h).1]
  exact s.onlyRecorded_record r

/-- A search in which nothing has happened to the tree, to what is waited for, to what was learned,
to the incumbent or to the counters. -/
structure Untouched (s t : Search α) : Prop where
  /-- The open nodes and the threshold are the same. -/
  frontier : t.brancher.frontier = s.brancher.frontier
  /-- The same nodes are waited for. -/
  waiting : t.brancher.waiting = s.brancher.waiting
  /-- Nothing was learned. -/
  pseudocosts : t.brancher.pseudocosts = s.brancher.pseudocosts
  /-- The incumbent is the same. -/
  incumbent : t.incumbent = s.incumbent
  /-- So is the lowest score of the nodes that were not resolved. -/
  discarded : t.discarded = s.discarded
  /-- Nothing was counted. -/
  stats : t.stats = s.stats

/-- The root comes back before its processing has ended, with a point. -/
def earlyReport : Report (Extended ℚ) :=
  { Report.start (Node.root Async.sampleVars) with
    stage := .lowerBounded
    candidate := some ⟨1, [1]⟩ }

/-- A node comes back that was never handed out, with the same point. -/
def strayReport : Report (Extended ℚ) :=
  { earlyReport with stage := .postprocessed, node.id := 77 }

/-- Both are refused while the root is out, and each leaves its mark. -/
theorem exists_refused : ∃ start ∈ (Search.new Async.sampleVars .standard).toOption,
    let s := start.next.2
    let early := s.apply earlyReport
    let stray := s.apply strayReport
    ((Brancher.errorOf? early.1).isSome
        ∧ early.2.incumbent.value ≠ s.incumbent.value
        ∧ early.2.brancher.frontier.threshold ≠ s.brancher.frontier.threshold
        ∧ early.2.brancher.waiting.ids ≠ s.brancher.waiting.ids)
      ∧ (Brancher.errorOf? stray.1).isSome
        ∧ strayReport.node.id ∉ s.brancher.waiting.ids
        ∧ stray.2.incumbent.value = 1 := by
  decide +kernel

/-- The report on the stray node is refused; the same nodes are waited for as before, and its point
is the incumbent. -/
theorem recorded_of_apply_error_stray : ∃ start, Search.new Async.sampleVars .standard = .ok start
    ∧ ∃ e t, start.next.2.apply strayReport = (.error e, t) ∧ start.next.2.Refuses strayReport e
      ∧ start.next.2.OnlyRecorded strayReport t
      ∧ t.brancher.waiting = start.next.2.brancher.waiting ∧ t.incumbent.value = 1 := by
  obtain ⟨start, hstart, -, hrefused, hunknown, hincumbent⟩ := exists_eq_ok exists_refused
  obtain ⟨e, he⟩ := Option.isSome_iff_exists.mp hrefused
  have happly : start.next.2.apply strayReport = (.error e, (start.next.2.apply strayReport).2) :=
    Prod.ext (Brancher.errorOf?_eq_some_iff.mp he) rfl
  obtain ⟨hrefuses, hrecorded⟩ := recorded_of_apply_error happly
  exact ⟨start, hstart, e, _, happly, hrefuses, hrecorded, (hrecorded.stray hunknown).1, hincumbent⟩

/-- The report that came too early is refused, and it changes the incumbent, the threshold, what is
waited for and the counters. -/
theorem touched_by_early : ∃ start, Search.new Async.sampleVars .standard = .ok start
    ∧ ∃ e t, start.next.2.apply earlyReport = (.error e, t)
      ∧ t.incumbent.value ≠ start.next.2.incumbent.value
      ∧ t.brancher.frontier.threshold ≠ start.next.2.brancher.frontier.threshold
      ∧ t.brancher.waiting.ids ≠ start.next.2.brancher.waiting.ids
      ∧ t.stats.processed = start.next.2.stats.processed + 1
      ∧ ¬ start.next.2.Untouched t := by
  obtain ⟨start, hstart, ⟨hrefused, hincumbent, hthreshold, hwaiting⟩, -⟩ :=
    exists_eq_ok exists_refused
  obtain ⟨e, he⟩ := Option.isSome_iff_exists.mp hrefused
  have happly : start.next.2.apply earlyReport = (.error e, (start.next.2.apply earlyReport).2) :=
    Prod.ext (Brancher.errorOf?_eq_some_iff.mp he) rfl
  exact ⟨start, hstart, e, _, happly, hincumbent, hthreshold, hwaiting,
    processed_apply_eq _ _, fun h => hincumbent (congrArg Incumbent.value h.incumbent)⟩

end Search

end BranchBound
