import BranchBound.Proofs.Search.Docket
import BranchBound.Proofs.Search.Tracking

/-! # Single points are queued once more

A search evaluates a single point twice, so it has to close the node when it comes back, or it would
go on queuing it. Whichever nodes are out at once, and in whatever order their reports come in: no
node is queued once more twice, and every later report on it closes it, as fathomed already or as
evaluated twice.

* **`Docket.Kept.run`** — the search agrees with its docket in every run.
* **`Docket.FixedOnce`**, **`Docket.fixed_once`** — what became of the nodes that were queued once
  more. -/

namespace BranchBound.Docket

variable {α : Type} [Scalar α] {d e : Docket α} {n : Node α} {r : Report α}

/-! ## Runs -/

variable {vars : List (Variable α)} {settings : Settings α} {start : Search α}

/-- A search at its start has nothing on its docket. -/
theorem kept_new [Scalar.Ordered α] (h : Search.new vars settings = .ok start) :
    Kept { search := start } := by
  have htracks := Search.Tracks.new h
  obtain ⟨-, -, hrequeued, f, -, -, hnext, hfrontier⟩ := Search.new_ok h
  refine ⟨?_, ?_, htracks.waiting, hrequeued, .nil⟩
  · have hnames := htracks.names
    rw [← add_zero (↑([] : List (Node α)) : Multiset (Node α))] at hnames
    exact hnames
  · show start.brancher.frontier.nextId = 1
    rw [hfrontier, Frontier.nextId_insert, hnext]

/-- Operations that follow the protocol keep what is kept, as long as there are ids. -/
theorem Kept.run [Scalar.Ordered α] (h : d.Kept) (hs : d.search.Recalls fun _ => True)
    (hrun : Run d e) (hids : e.given + 2 < wordRange) :
    e.Kept ∧ e.search.Recalls fun _ => True := by
  induction hrun with
  | refl => exact ⟨h, hs⟩
  | @tail e _ _ hstep ih =>
    obtain ⟨op, hadmits⟩ := hstep
    have hle := e.given_le_perform op
    obtain ⟨hkept, hrecalls⟩ := ih (by omega)
    refine ⟨hkept.perform hrecalls hadmits hids, ?_⟩
    rw [search_perform]
    exact hrecalls.perform op

/-- What became of the nodes that were queued once more as single points. -/
structure FixedOnce (d : Docket α) : Prop where
  /-- No node was queued once more twice. -/
  once : d.fixed.Nodup
  /-- Every later report on such a node closed it. -/
  closed : d.answers.Pairwise fun later earlier =>
    earlier.id = later.id → earlier.final = .fixed → later.Closes
  /-- If such a node is out, a report that narrows it will be accepted and close it. -/
  again : ∀ n ∈ d.out, n.id ∈ d.fixed → ∀ r : Report α, r.node.id = n.id → r.Narrows n →
    (r.stage = .postprocessed ∨ ∃ reason, r.stage = .fathomed reason) →
    ∃ final t, d.search.apply r = (.ok final, t) ∧ Answer.Closes ⟨r.node.id, r.stage, final⟩

/-- No node is answered to be queued once more twice, because the second answer would close it. -/
theorem Kept.nodup_fixed (h : d.Kept) : d.fixed.Nodup := by
  refine List.pairwise_map.mpr (List.pairwise_filter.mpr (h.closed.imp ?_))
  intro later earlier hcloses hlater hearlier hid
  obtain ⟨reason, hfinal⟩ := (hcloses hid.symm (of_decide_eq_true hearlier)).fathomed
  rw [hfinal] at hlater
  cases of_decide_eq_true hlater

/-- A report that narrows a node that is out and was queued once more is accepted. -/
theorem Kept.exists_apply [Scalar.Ordered α] (h : d.Kept) (hs : d.search.Recalls fun _ => True)
    (hn : n ∈ d.out) (hfixed : n.id ∈ d.fixed) (hid : r.node.id = n.id) (hnarrows : r.Narrows n)
    (hstage : r.stage = .postprocessed ∨ ∃ reason, r.stage = .fathomed reason) :
    ∃ final t, d.search.apply r = (.ok final, t)
      ∧ Answer.Closes ⟨r.node.id, r.stage, final⟩ := by
  rw [← h.requeued] at hfixed
  have hpoint : r.node.box.isPoint = true := hnarrows.2.isPoint_of_isPoint hnarrows.1
    ((h.names_out hn).isPoint n (Multiset.mem_cons_self _ _) hfixed)
  have hwaiting : r.node.id ∈ d.search.brancher.waiting.ids := by
    rw [hid, h.waiting.mem_iff]
    exact List.mem_map_of_mem hn
  have hnoted : r.node.id ∈ (d.search.record r).2.requeued := by
    rw [(d.search.keeps_record hs.consistent r).requeued, hid]
    exact hfixed
  obtain ⟨final, t, hsettle⟩ := Search.exists_settle_of_twice hpoint hnoted hstage
  refine ⟨final, t, ?_, Search.closes_of_twice hpoint hnoted hsettle⟩
  rw [Search.apply_of_record (hs.record_ok hwaiting).1, hsettle]

/-- In every run of a search, whatever becomes of other nodes in between: as long as no accepted
report empties the box of its node or moves a bound outwards, and the ids do not run out, no node is
answered to be queued once more twice, and every later report on such a node closes it. -/
theorem fixed_once [Scalar.Ordered α] (hstart : Search.new vars settings = .ok start)
    (hrun : Run { search := start } d) (hids : d.given + 2 < wordRange) : d.FixedOnce := by
  obtain ⟨hkept, hrecalls⟩ := (kept_new hstart).run (.new hstart trivial) hrun hids
  exact ⟨hkept.nodup_fixed, hkept.closed, fun n hn hfixed r hid hnarrows hstage =>
    hkept.exists_apply hrecalls hn hfixed hid hnarrows hstage⟩

/-- Operations that are done one after the other are a run. -/
theorem run_of_performAll [DecidableEq α] {ops : List (Search.Op α)}
    (h : d.performAll ops = some e) : Run d e := by
  induction ops generalizing d with
  | nil =>
    cases h
    exact .refl
  | cons op rest ih =>
    rw [performAll, List.foldlM_cons] at h
    split at h
    · next hadmits => exact .head (.op op hadmits) (ih h)
    · cases h

/-- A report on a node of the domain from zero to two that came through its processing. -/
def sampleReturn (id : Nat) (lower upper : ℚ) : Report (Extended ℚ) :=
  { Report.start { Node.root Async.sampleVars with
      id
      box := ⟨[.point lower], [.point upper]⟩ } with
    stage := .postprocessed }

/-- The root is split, and both parts are out. The upper one, a single point, is queued once more
and goes out again. Then the lower one comes back with bounds around a whole number, is queued once
more as that number, and goes out again once the upper one came back for the second time. -/
def sampleReturns : List (Search.Op (Extended ℚ)) :=
  [.next, .apply (sampleReturn 0 0 2), .next, .next, .apply (sampleReturn 2 2 2), .next,
    .apply (sampleReturn 1 (1 / 2) 1), .apply (sampleReturn 2 2 2), .next]

/-- The operations follow the protocol. -/
theorem exists_sampleReturns : ∃ start ∈ (Search.new Async.sampleVars .standard).toOption,
    ∃ d ∈ performAll { search := start } sampleReturns, d.given + 2 < wordRange
      ∧ d.out.map Node.id = [1]
      ∧ d.answers = [⟨2, .postprocessed, .fathomed .fixedPointEvaluated⟩,
        ⟨1, .postprocessed, .fixed⟩, ⟨2, .postprocessed, .fixed⟩,
        ⟨0, .postprocessed, .branched⟩] := by
  decide +kernel

/-- Each part is queued once more once. -/
theorem fixed_once_sampleReturns : ∃ start d, Search.new Async.sampleVars .standard = .ok start
    ∧ Run { search := start } d ∧ d.out.map Node.id = [1] ∧ d.fixed = [1, 2] ∧ d.FixedOnce := by
  obtain ⟨start, hstart, d, hrun, hids, hout, hanswers⟩ := exists_eq_ok exists_sampleReturns
  refine ⟨start, d, hstart, run_of_performAll hrun, hout, ?_,
    fixed_once hstart (run_of_performAll hrun) hids⟩
  rw [fixed, hanswers]
  rfl

end BranchBound.Docket
