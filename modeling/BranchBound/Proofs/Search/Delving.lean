import BranchBound.Proofs.Search.Lineage
import BranchBound.Proofs.Search.Recalling

/-! # Strong branching that finds no point

As long as no point is found, branching a node strongly cannot fail: its children are waited for and
have ids of their own, each of them can be processed and recorded, and none is of no interest. Which
pair is kept depends on the reports alone.

* **`Serial.exec_evaluate`** — the children are evaluated, and no node becomes open.
* **`Serial.exec_strongBranch`** — if one of the two children that are kept has to be branched, then
  it becomes open, and no other node does. -/

namespace BranchBound

variable {σ α : Type} [Scalar α]

/-- The children in a dimension that is wide enough get the next two ids, and are waited for. -/
theorem Brancher.addChildren_ok (b : Brancher α) (parent : Node α) (point : List α)
    (nodes : List (Node α)) {v : Variable α} {i : Nat} (hwide : ¬ parent.box.width i ≤ 0) :
    ∃ c, addChildren parent point (nodes, b) (v, i)
        = (nodes ++ [child parent (parts v.kind parent.box i).1 b.frontier.nextId,
            child parent (parts v.kind parent.box i).2 ((b.frontier.nextId + 1) % wordRange)], c)
      ∧ c.frontier.nextId = ((b.frontier.nextId + 1) % wordRange + 1) % wordRange
      ∧ ∀ id, id ∈ c.waiting.ids ↔ id = (b.frontier.nextId + 1) % wordRange
        ∨ id = b.frontier.nextId ∨ id ∈ b.waiting.ids := by
  rcases addChildren_cases parent point (nodes, b) v i
    with ⟨hnarrow, -⟩ | ⟨-, down, up, d, hsplit, hadded⟩
  · exact absurd hnarrow hwide
  · obtain ⟨hdown, hup⟩ := split_nodes hsplit
    rw [hadded, handOut_split hsplit, ← hdown, ← hup]
    refine ⟨_, rfl, rfl, fun id => ?_⟩
    rw [show (b.frontier.nextId + 1) % wordRange = up.id by rw [OpenNode.id, hup]; rfl,
      show b.frontier.nextId = down.id by rw [OpenNode.id, hdown]; rfl]
    exact Waiting.mem_ids_insert.trans (or_congr_right Waiting.mem_ids_insert)

namespace Serial

/-! ## What follows the processing of a node -/

section Conclude

variable {solvers : Solvers σ α} {run : Run σ α} {r : Report α} {depth : Nat}

/-- A node that is not too deep and calls for it is branched strongly. -/
theorem exec_conclude_strong (hdepth : depth < run.search.settings.strongDepth)
    (hwants : wantsStrong run.search r = true) :
    (conclude solvers depth r).exec run = (strongBranch solvers r).exec run := by
  simp only [conclude, Work.exec_bind, Work.exec_search]
  rw [if_pos ⟨hdepth, hwants⟩]

/-- The report on a node that does not call for it is taken in. -/
theorem exec_conclude_apply (hwants : wantsStrong run.search r = false) {stage : Stage}
    {t : Search α} (happly : run.search.apply r = (.ok stage, t)) :
    (conclude solvers depth r).exec run = (.ok stage, { run with search := t }) := by
  simp only [conclude, Work.exec_bind, Work.exec_search]
  rw [if_neg (by rw [hwants]; exact fun h => Bool.false_ne_true h.2), Work.exec_onSearch, happly]
  rfl

end Conclude

/-! ## Keeping children -/

section Keep

variable {run : Run σ α} {r : Report α}

/-- A child that needs no further work is counted. -/
theorem exec_keep_fathomed {reason : Reason} (hstage : r.stage = .fathomed reason) :
    (keep r : Work σ α Unit).exec run
      = (.ok (), { run with search := run.search.countFathomed r }) := by
  unfold keep
  rw [if_neg (by rw [Report.needsBranching, hstage]; exact of_decide_eq_false rfl)]
  rfl

/-- A child that has to be branched and is not dominated becomes open. -/
theorem exec_keep_open (hs : run.search.brancher.frontier.Consistent)
    (hstage : r.stage = .postprocessed)
    (hdim : run.search.brancher.dimensionFault? r.node = none)
    (hlive : run.search.brancher.frontier.dominates r.node.score = false) :
    (keep r : Work σ α Unit).exec run
        = (.ok (), { run with search := (run.search.insertEvaluated r.node).2 })
      ∧ (run.search.insertEvaluated r.node).2.brancher.frontier.nodes
        = r.node ::ₘ run.search.brancher.frontier.nodes := by
  have hok : ∃ taken, (run.search.insertEvaluated r.node).1 = .ok taken := by
    show ∃ taken, (run.search.brancher.insertScored r.node _).1 = .ok taken
    unfold Brancher.insertScored
    rw [hdim]
    exact ⟨_, rfl⟩
  obtain ⟨taken, htaken⟩ := hok
  constructor
  · unfold keep
    rw [if_pos (show r.needsBranching = true from decide_eq_true hstage), Work.exec_bind,
      Work.exec_onSearch, htaken]
    rfl
  · show (run.search.brancher.insertNode r.node).2.frontier.nodes = _
    rcases hinsert : run.search.brancher.insertNode r.node with ⟨answer, b⟩
    rcases Brancher.insertScored_cases hinsert with ⟨_, hfault, -⟩ | ⟨-, rfl⟩
    · cases hdim.symm.trans hfault
    · -- reserving an id changes no open node
      have hreserved : (run.search.brancher.frontier.reserveIds r.node.id).Consistent :=
        hs.of_eq rfl rfl rfl rfl
      exact (hreserved.insert_of_not_dominates (n := ⟨r.node, _, .unsplit⟩) hlive).1

end Keep

/-! ## Evaluating children -/

section Evaluate

variable [Scalar.Ordered α] {solvers : Solvers Unit α} {run : Run Unit α} {r : Report α}
  {nodes : List (Node α)} {reports : List (Report α)} {P : α → Prop}

/-- A report on a node that brings no point comes of processing it. -/
structure Vain (solvers : Solvers Unit α) (cutoff : Cutoff α) (n : Node α) (r : Report α) :
    Prop where
  /-- It comes of processing the node. -/
  returns : (processNode solvers n cutoff).Returns () r ()
  /-- It is about the node. -/
  id : r.node.id = n.id
  /-- It brings no point. -/
  candidate : r.candidate = none

omit [Scalar.Ordered α] in
/-- What nodes are processed against does not change when a report is recorded that brings no
point. -/
theorem cutoff_record (s : Search α) (hnone : r.candidate = none) :
    (s.record r).2.cutoff = s.cutoff := by
  rw [Search.cutoff, Search.cutoff, (Search.record_of_candidate_none hnone).2,
    (s.alike_record r).settings]

/-- Children that are waited for are evaluated if no point is found in them, and no node becomes
open. -/
theorem exec_evaluate {cutoff : Cutoff α} (hcutoff : run.search.cutoff = cutoff)
    (h : run.search.Fruitless P)
    (hids : ∀ c ∈ nodes, c.id ∈ run.search.brancher.waiting.ids)
    (hnodup : (nodes.map (·.id)).Nodup)
    (hreports : List.Forall₂ (Vain solvers cutoff) nodes reports) :
    ∃ t, (evaluate solvers nodes).exec run = (.ok reports, ⟨t, ()⟩) ∧ t.Fruitless P
      ∧ run.search.Alike t ∧ t.brancher.frontier = run.search.brancher.frontier
      ∧ t.stats.processed = run.search.stats.processed + nodes.length := by
  induction hreports generalizing run with
  | nil => exact ⟨run.search, rfl, h, .refl _, rfl, rfl⟩
  | @cons c r nodes reports hr hrest ih =>
    obtain ⟨hid, hids⟩ := List.forall_mem_cons.mp hids
    obtain ⟨hfresh, hnodup⟩ := List.nodup_cons.mp hnodup
    rw [← hr.id] at hid
    obtain ⟨hrecord, hwaiting⟩ := h.toRecalls.record_ok hid
    -- a report takes its own node off the list, and the ids are distinct
    have hwaited : ∀ d ∈ nodes, d.id ∈ (run.search.record r).2.brancher.waiting.ids := by
      intro d hd
      rw [hwaiting]
      exact Waiting.mem_ids_erase.mpr ⟨hids d hd, fun heq =>
        hfresh (List.mem_map.mpr ⟨d, hd, heq.trans hr.id⟩)⟩
    have hsame : (⟨(run.search.record r).2, ()⟩ : Run Unit α).search.cutoff = cutoff :=
      (cutoff_record _ hr.candidate).trans hcutoff
    obtain ⟨t, hevaluate, ht, halike, hfrontier, hprocessed⟩ :=
      ih hsame (h.record hr.candidate) hwaited hnodup
    rw [Search.processed_record] at hprocessed
    refine ⟨t, ?_, ht, (run.search.alike_record r).trans halike,
      hfrontier.trans (Search.record_of_candidate_none hr.candidate).1, ?_⟩
    swap
    · rw [hprocessed, List.length_cons]
      omega
    have hcall : Id.run (StateT.run (ExceptT.run (processNode solvers c run.search.cutoff))
        run.memory) = (.ok r, ()) := by
      rw [hcutoff]
      exact hr.returns
    simp only [evaluate, Work.exec_bind, Work.exec_search, Work.exec_onSolvers, hcall,
      Work.exec_onSearch, hrecord, Except.mapError, hevaluate, Work.exec_pure]

omit [Scalar.Ordered α] in
/-- A node is branched strongly if no point is found in its children, and of the two that are kept
the lower one has to be branched: it becomes open, and no other node does. -/
theorem exec_strongBranch [Scalar.Congruent α] {b : Brancher α} {down up : Report α}
    {reason : Reason} (h : run.search.Fruitless P)
    (hid : r.node.id ∈ run.search.brancher.waiting.ids) (hnone : r.candidate = none)
    (hP : P r.node.score)
    (hchildren : (run.search.record r).2.brancher.allChildren r.node r.point = (.ok nodes, b))
    (hids : ∀ c ∈ nodes, c.id ∈ b.waiting.ids) (hnodup : (nodes.map (·.id)).Nodup)
    (hreports : List.Forall₂ (Vain solvers run.search.cutoff) nodes reports)
    (hbest : bestPair Scalar.infinity r.node.score (pairs reports) = some (down, up))
    (hdown : down.stage = .postprocessed) (hdownP : P down.node.score)
    (hdim : run.search.brancher.dimensionFault? down.node = none)
    (hlive : ¬ Scalar.infinity ≤ down.node.score) (hup : up.stage = .fathomed reason) :
    ∃ t, (strongBranch solvers r).exec run = (.ok .branched, ⟨t, ()⟩) ∧ t.Fruitless P
      ∧ run.search.Alike t
      ∧ t.brancher.frontier.nodes = down.node ::ₘ run.search.brancher.frontier.nodes
      ∧ t.stats.processed = run.search.stats.processed + 1 + nodes.length := by
  obtain ⟨hrecord, -⟩ := h.toRecalls.record_ok hid
  have hrecorded := run.search.alike_record r
  have hfrontier := (Search.record_of_candidate_none (s := run.search) hnone).1
  -- the children are made
  have hmade : (run.search.record r).2.strongChildren r
      = (.ok nodes, { (run.search.record r).2 with brancher := b }) := by
    unfold Search.strongChildren
    rw [hchildren]
  have halikeMade := hrecorded.trans ((run.search.record r).2.alike_perform (.strongChildren r))
  have hfruitless := (h.record hnone).strongChildren hP
  obtain ⟨next, hnext, -⟩ := (run.search.record r).2.brancher.allChildren_frontier r.node r.point
  rw [Search.perform, hmade] at halikeMade
  rw [hmade] at hfruitless
  rw [hchildren, hfrontier] at hnext
  -- they are evaluated
  obtain ⟨t, hevaluate, ht, halike, hopen, hprocessed⟩ := exec_evaluate
    (show (⟨{ (run.search.record r).2 with brancher := b }, ()⟩ : Run Unit α).search.cutoff
      = run.search.cutoff from cutoff_record run.search hnone) hfruitless hids hnodup hreports
  have halikeEvaluated := halikeMade.trans halike
  have hfault : t.brancher.dimensionFault? down.node = none := by
    rw [← hdim, Brancher.dimensionFault?, Brancher.dimensionFault?, halikeEvaluated.vars]
  -- the first pair is kept
  obtain ⟨hkeep, hnodes⟩ := exec_keep_open
    (show (⟨t, ()⟩ : Run Unit α).search.brancher.frontier.Consistent from ht.consistent)
    hdown hfault (ht.live hlive).1
  have hqueued := ht.insertEvaluated hdownP
  have hlast := hqueued.countFathomed up
  refine ⟨((t.insertEvaluated down.node).2.countFathomed up).countBranched, ?_,
    ⟨⟨hlast.consistent, hlast.opened, hlast.waited⟩, hlast.incumbent, hlast.threshold⟩, ?_, ?_, ?_⟩
  · rw [← ht.threshold] at hbest
    simp only [strongBranch, Work.exec_bind, Work.exec_onSearch, hrecord, Except.mapError, hmade,
      hevaluate, Work.exec_search, hbest, hkeep, exec_keep_fathomed hup]
    rfl
  · have hinserted := halikeEvaluated.trans (t.alike_perform (.insertEvaluated down.node))
    have hcounted := hinserted.trans ((t.insertEvaluated down.node).2.alike_countFathomed up)
    exact ⟨hcounted.vars, hcounted.rule, hcounted.settings⟩
  · show ((t.insertEvaluated down.node).2.countFathomed up).brancher.frontier.nodes = _
    rw [(Search.countFathomed_frame _ up).1, hnodes, hopen]
    show _ ::ₘ b.frontier.nodes = _
    rw [hnext]
    rfl
  · show ((t.insertEvaluated down.node).2.countFathomed up).stats.processed = _
    rw [Search.processed_countFathomed]
    show t.stats.processed = _
    rw [hprocessed]
    show (run.search.record r).2.stats.processed + nodes.length = _
    rw [Search.processed_record]

end Evaluate

end Serial

end BranchBound
