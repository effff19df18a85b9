import BranchBound.Proofs.Node.Dominating
import BranchBound.Proofs.Search.Failing
import BranchBound.Proofs.Search.StrongBranching

/-! # Recorded reports

A node is processed under the cutoff that is in force then, and the point that is found in it
tightens this cutoff. Once the report is recorded, the incumbent of the search is at least as good,
and stays so. That is what the work of a round leaves behind on every node it processes, those that
strong branching tries out included.

* **`Search.Heeds s cutoff`** — the incumbent of the search is at least as good as a cutoff.
* **`Search.Recorded`** — the search heeds the cutoff that a report comes from.
* **`Serial.evaluate_recorded`** — the reports on the children that were processed are recorded.
* **`Serial.keepBest_ok`** — keeping the best pair keeps one of the pairs.
* **`Serial.Settles`** — a round takes in its report without strong branching, and acts on it.
* **`Serial.grounded_round`**, **`Serial.grounded_rounds`** — what the operations of a round keep,
  as far as they act on recorded reports only (`Search.Grounded`), holds after any rounds. -/

namespace BranchBound

variable {σ α : Type} [Scalar α] {solvers : Solvers σ α} {n : Node α} {r : Report α}

namespace Search

variable {s t : Search α} {cutoff : Cutoff α}

/-- The incumbent of the search is at most that of a cutoff, whose tolerances are those of the
search. -/
structure Heeds (s : Search α) (cutoff : Cutoff α) : Prop where
  /-- The relative tolerance is that of the search. -/
  relTolerance : cutoff.relTolerance = s.settings.relTolerance
  /-- So is the absolute tolerance. -/
  absTolerance : cutoff.absTolerance = s.settings.absTolerance
  /-- The incumbent of the search is as good. -/
  incumbent : s.incumbent.value ≤ cutoff.incumbent

/-- A report came out of processing a node, and the search heeds the cutoff it was processed under,
tightened by the point that was found. -/
def Recorded (solvers : Solvers σ α) (s : Search α) (n : Node α) (r : Report α) : Prop :=
  ∃ cutoff memory after, (processNode solvers n cutoff).Returns memory r after
    ∧ s.Heeds (Report.tightened cutoff r.candidate)

/-- The operations of the serial search: it records what came out of processing nodes, acts on
recorded reports only, and queues the nodes of those that have to be branched. -/
def Grounded (solvers : Solvers σ α) (s : Search α) : Op α → Prop
  | .record r => ∃ n, Serial.Processed solvers n r
  | .settle r | .countFathomed r => ∃ n, s.Recorded solvers n r
  | .insertEvaluated m => ∃ n r, s.Recorded solvers n r ∧ r.stage = .postprocessed ∧ m = r.node
  | .offer _ | .apply _ | .cancel _ => False
  | _ => True

omit [Scalar α] in
/-- The report that an operation acts on, if it does nothing else. -/
def Op.settled? : Op α → Option (Report α)
  | .settle r => some r
  | _ => none

/-- A cutoff is heeded as long as the incumbent does not become worse. -/
theorem Heeds.later (h : s.Heeds cutoff) (hsettings : t.settings = s.settings)
    (hincumbent : ∀ {y}, s.incumbent.value ≤ y → t.incumbent.value ≤ y) : t.Heeds cutoff where
  relTolerance := hsettings ▸ h.relTolerance
  absTolerance := hsettings ▸ h.absTolerance
  incumbent := hincumbent h.incumbent

/-- What is recorded stays so as long as the incumbent does not become worse. -/
theorem Recorded.later (h : s.Recorded solvers n r) (hsettings : t.settings = s.settings)
    (hincumbent : ∀ {y}, s.incumbent.value ≤ y → t.incumbent.value ≤ y) :
    t.Recorded solvers n r := by
  obtain ⟨cutoff, memory, after, hreturns, hheeds⟩ := h
  exact ⟨cutoff, memory, after, hreturns, hheeds.later hsettings hincumbent⟩

variable [Scalar.Ordered α]

/-- A search heeds its own cutoff. -/
theorem heeds_cutoff (hdef : Scalar.isNaN s.incumbent.value = false) : s.Heeds s.cutoff :=
  ⟨rfl, rfl, Scalar.Ordered.le_refl hdef⟩

/-- An incumbent to which the point of a report was offered is at most that of the cutoff which the
point tightens. -/
theorem adopt_le_tightened {i : Incumbent α} (h : i.value ≤ cutoff.incumbent) :
    (i.adopt r).value ≤ (Report.tightened cutoff r.candidate).incumbent := by
  cases hcandidate : r.candidate with
  | none => exact adopt_le r h
  | some c =>
    show _ ≤ (cutoff.tighten c.value).2.incumbent
    unfold Cutoff.tighten
    split
    · next hlt =>
      have hdef := Scalar.Ordered.isNaN_left_of_le (Scalar.le_of_lt hlt)
      rcases i.adopt_cases r with ⟨d, hd, -, hadopt⟩ | ⟨hnot, hadopt⟩
      · cases hcandidate.symm.trans hd
        rw [hadopt]
        exact Scalar.Ordered.le_refl hdef
      · rw [hadopt]
        exact Scalar.le_of_not_lt hdef (Scalar.Ordered.isNaN_left_of_le h) (hnot c hcandidate)
    · exact adopt_le r h

/-- Recording a report tightens the cutoffs that are heeded by its point. -/
theorem Heeds.record (h : s.Heeds cutoff) (r : Report α) :
    (s.record r).2.Heeds (Report.tightened cutoff r.candidate) := by
  have hsettings : (s.record r).2.settings = s.settings := (s.counted_record r).2
  have hincumbent : (s.record r).2.incumbent = s.incumbent.adopt r := (s.account_frame r).2
  obtain ⟨hrel, habs⟩ : (Report.tightened cutoff r.candidate).relTolerance = cutoff.relTolerance
      ∧ (Report.tightened cutoff r.candidate).absTolerance = cutoff.absTolerance := by
    unfold Report.tightened Cutoff.tighten
    split
    · split <;> exact ⟨rfl, rfl⟩
    · exact ⟨rfl, rfl⟩
  refine ⟨?_, ?_, ?_⟩
  · rw [hrel, hsettings, h.relTolerance]
  · rw [habs, hsettings, h.absTolerance]
  · rw [hincumbent]
    exact adopt_le_tightened h.incumbent

/-- A report is recorded if its node was processed under a cutoff that the search heeded. -/
theorem recorded_record {memory after} (h : s.Heeds cutoff)
    (hreturns : (processNode solvers n cutoff).Returns memory r after) :
    (s.record r).2.Recorded solvers n r :=
  ⟨cutoff, memory, after, hreturns, h.record r⟩

omit [Scalar.Ordered α] in
/-- The score of a node that is recorded as dominated reaches a threshold that is no lower than that
of the search. -/
theorem Recorded.dominated (h : s.Recorded solvers n r)
    (hstage : r.stage = .fathomed .valueDominated) :
    ∃ v, s.incumbent.value ≤ v
      ∧ toleranceAdjusted v s.settings.relTolerance s.settings.absTolerance ≤ r.node.score := by
  obtain ⟨cutoff, memory, after, hreturns, hheeds⟩ := h
  have hreaches := processNode_dominated hreturns hstage
  refine ⟨_, hheeds.incumbent, ?_⟩
  rw [← hheeds.relTolerance, ← hheeds.absTolerance]
  exact hreaches

end Search

namespace Serial

variable {run after : Run σ α} {stage : Stage}

/-! ## Processing children -/

section Evaluate

variable {nodes : List (Node α)} {reports : List (Report α)}

/-- What recording a report keeps, processing children keeps. -/
theorem evaluate_keeps {I : Search α → Prop}
    (hI : ∀ s n r, I s → Processed solvers n r → I (s.record r).2)
    (h : (evaluate solvers nodes).exec run = (.ok reports, after)) (hrun : I run.search) :
    I after.search := by
  induction nodes generalizing run reports with
  | nil =>
    cases h
    exact hrun
  | cons n rest ih =>
    obtain ⟨r, memory, others, hreturns, -, hrest, -⟩ := evaluate_cons_ok h
    exact ih hrest (hI _ _ _ hrun ⟨_, _, memory, hreturns⟩)

/-- The reports on the children are recorded once all of them are processed. -/
theorem evaluate_recorded [Scalar.Ordered α]
    (h : (evaluate solvers nodes).exec run = (.ok reports, after))
    (hs : run.search.brancher.frontier.Consistent)
    (hdef : Scalar.isNaN run.search.incumbent.value = false) :
    List.Forall₂ (after.search.Recorded solvers) nodes reports := by
  induction nodes generalizing run reports with
  | nil =>
    cases h
    exact .nil
  | cons n rest ih =>
    obtain ⟨r, memory, others, hreturns, -, hrest, rfl⟩ := evaluate_cons_ok h
    have hrecorded := Search.recorded_record (Search.heeds_cutoff hdef) hreturns
    have hconsistent := (run.search.keeps_record hs r).consistent
    have hincumbent : Scalar.isNaN (run.search.record r).2.incumbent.value = false := by
      have hle := Search.incumbent_perform_le (.record r) (Scalar.Ordered.le_refl hdef)
      exact Scalar.Ordered.isNaN_left_of_le hle
    -- the children that follow do not make the incumbent worse
    have hlater := keeps_evaluate solvers rest ⟨(run.search.record r).2, memory⟩
    have hfalls := falls_evaluate solvers rest ⟨(run.search.record r).2, memory⟩ hconsistent
    rw [hrest] at hlater hfalls
    exact .cons (hrecorded.later hlater.2 hfalls.incumbent) (ih hrest hconsistent hincumbent)

end Evaluate

/-! ## Keeping children -/

/-- Of the reports on the children, those of one pair are kept, or there is none and the node is
dropped. -/
theorem keepBest_ok {parentScore : α} {reports : List (Report α)}
    (h : (keepBest parentScore reports).exec run = (.ok stage, after)) :
    (pairs reports = [] ∧ after.search = run.search.countDropped)
      ∨ ∃ p ∈ pairs reports, ∃ first second,
          (keep p.1).exec run = (.ok (), first) ∧ (keep p.2).exec first = (.ok (), second)
            ∧ after.search = second.search.countBranched := by
  by_cases hpairs : pairs reports = []
  · rw [keepBest, hpairs] at h
    cases h
    exact .inl ⟨hpairs, rfl⟩
  · obtain ⟨q, hq, hbest⟩ := exists_bestPair run.search.brancher.frontier.threshold parentScore
      hpairs
    rcases keepBest_cases h with ⟨hnone, -⟩ | ⟨p, first, second, hsome, -, hfirst, hsecond, hafter⟩
    · cases hnone.symm.trans hbest
    · cases hsome.symm.trans hbest
      exact .inr ⟨q, hq, first, second, hfirst, hsecond, hafter⟩

/-- If there is a pair of children to keep, the node is branched. -/
theorem stage_keepBest {parentScore : α} {reports : List (Report α)}
    (h : (keepBest parentScore reports).exec run = (.ok stage, after))
    (hpairs : pairs reports ≠ []) : stage = .branched := by
  obtain ⟨q, -, hbest⟩ := exists_bestPair run.search.brancher.frontier.threshold parentScore hpairs
  rcases keepBest_cases h with ⟨hnone, -⟩ | ⟨p, first, second, -, hstage, -⟩
  · cases hnone.symm.trans hbest
  · exact hstage

/-- The reports of a pair are recorded for two nodes. -/
theorem exists_nodes_of_pairs {s : Search α} {nodes : List (Node α)} {reports : List (Report α)}
    (h : List.Forall₂ (s.Recorded solvers) nodes reports) {p : Report α × Report α}
    (hp : p ∈ pairs reports) :
    ∃ down up, s.Recorded solvers down p.1 ∧ s.Recorded solvers up p.2 := by
  induction reports using pairs.induct generalizing nodes with
  | case1 x y rest ih =>
    cases h with
    | cons hfirst h =>
      cases h with
      | cons hsecond h =>
        rcases List.mem_cons.mp hp with rfl | hp
        · exact ⟨_, _, hfirst, hsecond⟩
        · exact ih h hp
  | case2 reports hshort =>
    rw [pairs] at hp
    · exact absurd hp List.not_mem_nil
    · exact hshort

/-! ## Rounds -/

/-- A round hands out a node that is not branched strongly, and acts on its report `r` in the state
`s`, in which the report is recorded. -/
def Settles (solvers : Solvers σ α) (run : Run σ α) (s : Search α) (r : Report α) : Prop :=
  ∃ n t memory after, (now solvers run).next = (.ok n, t)
    ∧ (processNode solvers n (now solvers run).cutoff).Returns run.memory r memory
    ∧ t.record r = (.ok (), s) ∧ (round solvers).exec run = (.ok none, after)
    ∧ after.search = (s.settle r).2

variable [Scalar.Ordered α] {I : Search α → Prop}

omit [Scalar.Ordered α] in
/-- Keeping a child whose report is recorded keeps what the operations keep. -/
theorem grounded_keep
    (hI : ∀ s op, I s → s.Grounded solvers op → op.settled? = none → I (s.perform op))
    (h : (keep r : Work σ α Unit).exec run = (.ok (), after))
    (hrecorded : run.search.Recorded solvers n r) (hrun : I run.search) : I after.search := by
  rcases keep_ok h with ⟨hstage, taken, hinsert⟩ | ⟨-, hcount⟩
  · have hafter := hI _ (.insertEvaluated r.node) hrun ⟨n, r, hrecorded, hstage, rfl⟩ rfl
    rw [Search.perform, hinsert] at hafter
    exact hafter
  · rw [hcount]
    exact hI _ (.countFathomed r) hrun ⟨n, hrecorded⟩ rfl

/-- Strong branching keeps what the operations keep. It settles no report. -/
theorem grounded_strongBranch
    (hI : ∀ s op, I s → s.Grounded solvers op → op.settled? = none → I (s.perform op))
    (h : (strongBranch solvers r).exec run = (.ok stage, after)) (hr : Processed solvers n r)
    (hs : run.search.brancher.frontier.Consistent)
    (hdef : Scalar.isNaN run.search.incumbent.value = false) (hrun : I run.search) :
    I after.search := by
  obtain ⟨nodes, b, reports, evaluated, -, hall, hevaluate, hkeep⟩ := strongBranch_ok h
  have hrecord : I (run.search.record r).2 := hI _ (.record r) hrun ⟨n, hr⟩ rfl
  have hchildren := hI _ (.strongChildren r) hrecord trivial rfl
  have hconsistent := (run.search.keeps_record hs r).consistent
  have hopen := Search.consistent_perform hconsistent (.strongChildren r)
  have hle := Search.incumbent_perform_le (.record r) (Scalar.Ordered.le_refl hdef)
  rw [Search.perform, Search.strongChildren, hall] at hchildren hopen
  have hevaluated := evaluate_keeps (fun s n r hs hr => hI s (.record r) hs ⟨n, hr⟩ rfl)
    hevaluate hchildren
  -- the reports were made under incumbents that have not risen since
  have hreports := evaluate_recorded hevaluate hopen (Scalar.Ordered.isNaN_left_of_le hle)
  have hfalls := falls_evaluate solvers nodes
    { run with search := { (run.search.record r).2 with brancher := b } } hopen
  rw [hevaluate] at hfalls
  rcases keepBest_ok hkeep with ⟨-, hdropped⟩ | ⟨p, hp, first, second, hfirst, hsecond, hbranched⟩
  · rw [hdropped]
    exact hI _ .countDropped hevaluated trivial rfl
  · obtain ⟨down, up, hdown, hup⟩ := exists_nodes_of_pairs hreports hp
    -- keeping the first child leaves what is known of the second one in place
    have hkept := falls_keep p.1 evaluated hfalls.consistent
    have hlater := (keeps_keep p.1 evaluated).2
    rw [hfirst] at hkept hlater
    have hdownKept := grounded_keep hI hfirst hdown hevaluated
    have hupKept := grounded_keep hI hsecond (hup.later hlater hkept.incumbent) hdownKept
    rw [hbranched]
    exact hI _ .countBranched hupKept trivial rfl

/-- What the operations of the serial search keep holds after a round. If a report is acted on, it
is that of the round. -/
theorem grounded_round
    (hI : ∀ s op, I s → s.Grounded solvers op → (∀ r ∈ op.settled?, Settles solvers run s r) →
      I (s.perform op))
    (hround : (round solvers).exec run = (.ok none, after))
    (hs : run.search.brancher.frontier.Consistent)
    (hdef : Scalar.isNaN run.search.incumbent.value = false) (hrun : I run.search) :
    I after.search := by
  have hplain : ∀ s op, I s → s.Grounded solvers op → op.settled? = none → I (s.perform op) := by
    intro s op hs hop hnone
    refine hI s op hs hop fun r hr => ?_
    rw [hnone] at hr
    exact absurd hr (Option.not_mem_none r)
  have hrounded := exec_round solvers run
  rw [hround] at hrounded
  cases hrounded with
  | @next n t r memory stage _ hnext hprocess hconclude =>
    have hnow : I (now solvers run) := hplain _ (.atTime _) hrun trivial rfl
    have htaken := hplain _ .next hnow trivial rfl
    have hout := Search.consistent_perform (s := now solvers run) hs .next
    rw [Search.perform, hnext] at htaken hout
    obtain ⟨-, hincumbent, hsettings, -⟩ := Search.next_frame hnext
    have hheeds : t.Heeds (now solvers run).cutoff :=
      (Search.heeds_cutoff (s := now solvers run) hdef).later hsettings fun hy => hincumbent ▸ hy
    have hprocessed : Processed solvers n r := ⟨_, _, memory, hprocess⟩
    rcases conclude_ok hconclude with happly | ⟨-, -, hstrong⟩
    · obtain ⟨hrecorded, hsettle⟩ := Search.apply_ok happly
      have hrecord := hplain _ (.record r) htaken ⟨n, hprocessed⟩ rfl
      have hsettled := hI _ (.settle r) hrecord ⟨n, Search.recorded_record hheeds hprocess⟩
      rw [Search.perform, Search.perform, hsettle] at hsettled
      -- this is the one report that the round acts on
      refine hsettled fun r' hr' => ?_
      cases hr'
      exact ⟨n, t, memory, after, hnext, hprocess, Prod.ext hrecorded rfl, hround,
        (congrArg Prod.snd hsettle).symm⟩
    · exact grounded_strongBranch hplain hstrong hprocessed hout (by rw [hincumbent]; exact hdef)
        htaken

/-- What the operations of the serial search keep holds after any rounds. -/
theorem grounded_rounds (hI : ∀ s op, I s → s.Grounded solvers op → I (s.perform op))
    (hrounds : Rounds solvers run after) (hs : run.search.brancher.frontier.Consistent)
    (hdef : Scalar.isNaN run.search.incumbent.value = false) (hrun : I run.search) :
    I after.search := by
  induction hrounds with
  | refl => exact hrun
  | tail hmid hround ih =>
    obtain ⟨hconsistent, hdefined⟩ := consistent_rounds hmid hs hdef
    exact grounded_round (fun s op hkept hop _ => hI s op hkept hop) hround hconsistent hdefined ih

end Serial

end BranchBound
