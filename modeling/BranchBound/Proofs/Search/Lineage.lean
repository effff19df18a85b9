import BranchBound.Proofs.Brancher.Kinship
import BranchBound.Proofs.Node.Conforming
import BranchBound.Proofs.Search.Recording

/-! # Lines of descent

A node that is split gives way to parts of it, which may be split later in the run. How many splits
led to a node is counted along its line of descent, because the depth that a node carries is a
machine word. What a split passes on from a node to its parts holds all along the line, in
asynchronous searches as well as in serial ones, where nodes may be branched strongly.

* **`Search.Continues start s`** — a state that a search may be in: its frontier is consistent, and
  the variables, the rule and the settings are those of the start.
* **`Async.Descent`**, **`Serial.Descent`** — a node is split that so many splits led to.
* **`Search.Descends start P`** — what is passed on; **`Async.descends`**, **`Serial.descends`** —
  it holds of the nodes that are split. -/

namespace BranchBound

variable {σ α : Type} [Scalar α]

namespace Search

/-! ## What a search keeps -/

section Alike

/-- Two states of a search have the same variables, rule and settings. -/
structure Alike (s t : Search α) : Prop where
  /-- The variables are the same. -/
  vars : t.brancher.vars = s.brancher.vars
  /-- The rule by which dimensions are chosen is the same. -/
  rule : t.brancher.rule = s.brancher.rule
  /-- The settings are the same. -/
  settings : t.settings = s.settings

variable {s t u : Search α} {n : Node α} {r : Report α} {stage : Stage}

omit [Scalar α] in
/-- A state is like itself. -/
theorem Alike.refl (s : Search α) : s.Alike s := ⟨rfl, rfl, rfl⟩

omit [Scalar α] in
/-- States that are like the same one are alike. -/
theorem Alike.trans (h : s.Alike t) (k : t.Alike u) : s.Alike u :=
  ⟨k.vars.trans h.vars, k.rule.trans h.rule, k.settings.trans h.settings⟩

/-- Keeping a score changes none of these. -/
theorem alike_noteDiscarded (s : Search α) (score : α) : s.Alike (s.noteDiscarded score) := by
  unfold noteDiscarded
  split <;> exact ⟨rfl, rfl, rfl⟩

/-- Offering a point changes none of these. -/
theorem alike_offer (s : Search α) (c : Candidate α) : s.Alike (s.offer c).2 := by
  by_cases hlt : c.value < s.incumbent.value
  · rw [offer_of_lt hlt]
    have hadopt : s.Alike (s.adopt c) := ⟨rfl, rfl, rfl⟩
    exact hadopt.trans (alike_noteDiscarded _ _)
  · rw [offer_of_not_lt hlt]
    exact .refl s

/-- Recording a report changes none of these. -/
theorem alike_record (s : Search α) (r : Report α) : s.Alike (s.record r).2 := by
  have haccount : s.Alike (s.account r) := by
    have hcounted : s.Alike (s.counted r) := ⟨rfl, rfl, rfl⟩
    rw [account_eq]
    split
    · exact hcounted.trans (alike_offer _ _)
    · exact hcounted
  have hconfirm : ((s.account r).brancher.confirm r.node.id r.node).2.rule
      = (s.account r).brancher.rule := by
    rcases hconfirm : (s.account r).brancher.confirm r.node.id r.node with ⟨answer, c⟩
    cases Brancher.confirm_exit hconfirm <;> rfl
  exact ⟨(confirm_frontier _ _ _).2.trans haccount.vars, hconfirm.trans haccount.rule,
    haccount.settings⟩

/-- Counting a fathomed node changes none of these. -/
theorem alike_countFathomed (s : Search α) (r : Report α) : s.Alike (s.countFathomed r) := by
  have hcounted : s.Alike { s with stats.fathomed := s.stats.fathomed + 1 } := ⟨rfl, rfl, rfl⟩
  unfold countFathomed
  dsimp only
  split
  · exact hcounted.trans (alike_noteDiscarded _ _)
  · exact hcounted

/-- Acting on a recorded report changes none of these, whether it succeeds or not. -/
theorem alike_settle (s : Search α) (r : Report α) : s.Alike (s.settle r).2 := by
  rcases hsettle : s.settle r with ⟨e | stage, t⟩
  · rw [(settle_error hsettle).1]
    exact .refl s
  · cases settlement hsettle with
    | fathomed => exact s.alike_countFathomed r
    | twice => exact ⟨rfl, rfl, rfl⟩
    | @branched _ _ outcome b hb =>
      have hbranched := (Brancher.branch_cases hb).2
      have hbrancher : s.Alike { s with brancher := b } := ⟨hbranched.vars, hbranched.rule, rfl⟩
      cases outcome with
      | dropped =>
        have hcounted : s.Alike ({ s with brancher := b } : Search α).countDropped :=
          ⟨hbrancher.vars, hbrancher.rule, rfl⟩
        exact hcounted.trans (alike_noteDiscarded _ _)
      | requeued | split => exact ⟨hbrancher.vars, hbrancher.rule, rfl⟩

/-- No operation changes any of these. -/
theorem alike_perform (s : Search α) (op : Op α) : s.Alike (s.perform op) := by
  cases op with
  | atTime | countBranched | countDropped => exact ⟨rfl, rfl, rfl⟩
  | next =>
    -- handing out a node concerns the frontier and the waiting nodes
    have hbrancher : s.brancher.next.2.vars = s.brancher.vars
        ∧ s.brancher.next.2.rule = s.brancher.rule := by
      rcases s.brancher.next_cases with ⟨-, hnext⟩ | ⟨n, f, -, hnext⟩ <;> rw [hnext] <;>
        exact ⟨rfl, rfl⟩
    exact ⟨hbrancher.1, hbrancher.2, rfl⟩
  | offer c => exact s.alike_offer c
  | record r => exact s.alike_record r
  | settle r => exact s.alike_settle r
  | apply r =>
    have hrecord := s.alike_record r
    show s.Alike (s.apply r).2
    rcases s.apply_cases r with ⟨e, -, happly⟩ | ⟨-, happly⟩ <;> rw [happly]
    · exact hrecord
    · exact hrecord.trans (alike_settle _ r)
  | cancel id =>
    obtain ⟨_, hcancel⟩ := s.brancher.exists_waiting_cancel id
    rw [Search.perform, hcancel]
    exact ⟨rfl, rfl, rfl⟩
  | insertEvaluated n =>
    rw [Search.perform]
    rcases s.insertEvaluated_cases n with hsame | hqueued
    · rw [hsame]
      exact .refl s
    · rw [hqueued]
      exact ⟨rfl, rfl, rfl⟩
  | strongChildren r =>
    obtain ⟨-, -, hvars⟩ := s.brancher.allChildren_frontier r.node r.point
    exact ⟨hvars, s.brancher.rule_allChildren r.node r.point, rfl⟩
  | countFathomed r => exact s.alike_countFathomed r

end Alike

/-- A state that a search may be in from its start on. -/
structure Continues (start s : Search α) : Prop where
  /-- The frontier is consistent. -/
  consistent : s.brancher.frontier.Consistent
  /-- The variables, the rule and the settings are those of the start. -/
  alike : start.Alike s

variable [Scalar.Ordered α] {start s t : Search α} {n m : Node α} {r : Report α}

/-- Every operation leads to such a state. -/
theorem Continues.perform (h : start.Continues s) (op : Op α) : start.Continues (s.perform op) :=
  ⟨consistent_perform h.consistent op, h.alike.trans (s.alike_perform op)⟩

/-- Handing out a node leads to such a state. -/
theorem Continues.next (h : start.Continues s) (hnext : s.next = (.ok n, t)) :
    start.Continues t := by
  have ht := h.perform .next
  rwa [Search.perform, hnext] at ht

/-- A search starts in such a state. -/
theorem Continues.new {vars : List (Variable α)} {settings : Settings α}
    (hstart : Search.new vars settings = .ok start) : start.Continues start :=
  ⟨(Reachable.new hstart).consistent, .refl start⟩

/-! ## What comes of a split -/

/-- A box that is not empty after the bounds of discrete variables were moved to whole numbers, and
is wider than the size tolerance then, is split in a dimension, whatever was learned of splits
before. -/
structure Chooses (start : Search α) (box : Box α) (point : List α) (i : Nat) : Prop where
  /-- The box is not empty. -/
  full : (Brancher.roundDiscrete start.brancher.vars box).isEmpty = false
  /-- A brancher of the search chooses the dimension. -/
  choice : ∃ b : Brancher α, b.vars = start.brancher.vars ∧ b.rule = start.brancher.rule
    ∧ b.isBelowTolerance (Brancher.roundDiscrete start.brancher.vars box)
      start.settings.sizeTolerance = false
    ∧ b.choose (Brancher.roundDiscrete start.brancher.vars box) point = some i

/-- If the node of a report was split, then the nodes that are open and were not before are parts of
it in the dimension that was chosen. -/
theorem split_of_settle (h : start.Continues s) (hsettle : s.settle r = (.ok .branched, t)) :
    r.stage = .postprocessed ∧ ∃ i, start.Chooses r.node.box r.point i
      ∧ ∀ m ∈ t.brancher.frontier.nodes, m ∈ s.brancher.frontier.nodes
        ∨ m.SplitFrom start.brancher.vars i r.node := by
  generalize hstage : Stage.branched = stage at hsettle
  cases settlement hsettle with
  | fathomed | twice => cases hstage
  | @branched hopen _ outcome b hb =>
    cases outcome with
    | requeued | dropped => cases hstage
    | split i down up =>
      have hjustified := Brancher.branch_justified hb
      have hbranched := (Brancher.branch_cases hb).2
      have hparts : ∀ m ∈ s.brancher.opened r.node r.lowerBound (.split i down up),
          m.SplitFrom start.brancher.vars i r.node := by
        intro m hm
        rw [← h.alike.vars]
        exact Brancher.splitFrom_opened hjustified hm
      obtain ⟨hfull, hwide, hchoose⟩ := hjustified
      rw [h.alike.vars] at hfull hwide hchoose
      rw [h.alike.settings] at hwide
      refine ⟨hopen, i, ⟨hfull, s.brancher, h.alike.vars, h.alike.rule, hwide, hchoose⟩,
        fun m hm => ?_⟩
      -- branching opens the parts of the node at most
      rcases Multiset.mem_add.mp (Multiset.mem_of_le (hbranched.nodes_le h.consistent) hm)
        with hm | hm
      · exact .inr (hparts m hm)
      · exact .inl hm

/-- So it is if the report was taken in as a whole. -/
theorem split_of_apply (h : start.Continues s) (happly : s.apply r = (.ok .branched, t)) :
    r.stage = .postprocessed ∧ ∃ i, start.Chooses r.node.box r.point i
      ∧ ∀ m ∈ t.brancher.frontier.nodes, m ∈ s.brancher.frontier.nodes
        ∨ m.SplitFrom start.brancher.vars i r.node := by
  obtain ⟨-, hsettle⟩ := apply_ok happly
  obtain ⟨hopen, i, hchooses, hnodes⟩ := split_of_settle (h.perform (.record r)) hsettle
  refine ⟨hopen, i, hchooses, fun m hm => (hnodes m hm).imp_left fun hold => ?_⟩
  exact Multiset.mem_of_le (s.keeps_record h.consistent r).nodes_le hold

/-! ## What is passed on -/

/-- Something that is said of nodes and of the number of splits that led to them holds of the root,
and is passed on to tightened nodes and to the parts in the dimension that is chosen. -/
structure Descends (start : Search α) (P : Nat → Node α → Prop) : Prop where
  /-- It holds of the root. -/
  root : P 0 (.root start.brancher.vars)
  /-- It is passed on to a node that was tightened and is not empty. -/
  tightened {k : Nat} {m n : Node α} (h : P k n) (hm : m.Tightened n)
    (hfull : m.box.isEmpty = false) : P k m
  /-- It is passed on to the parts in the dimension that is chosen. -/
  split {k i : Nat} {m n : Node α} {point : List α} (h : P k n)
    (hchooses : start.Chooses n.box point i) (hm : m.SplitFrom start.brancher.vars i n) :
    P (k + 1) m

/-- It is passed on to the parts in every dimension as well, if the node may be branched
strongly. -/
structure DescendsStrongly (start : Search α) (P : Nat → Node α → Prop) : Prop extends
    start.Descends P where
  /-- It is passed on to the parts in every dimension. -/
  strong {k i : Nat} {m n : Node α} (h : P k n) (hdepth : n.depth < start.settings.strongDepth)
    (hm : m.SplitFrom start.brancher.vars i n) : P (k + 1) m

/-- A node that has to be branched was tightened and is not empty. -/
theorem tightened_of_returns {solvers : Solvers σ α} {cutoff : Cutoff α} {memory after : σ}
    (hs : solvers.Tighten Node.Shrunk)
    (hreturns : (processNode solvers n cutoff).Returns memory r after)
    (hopen : r.stage = .postprocessed) : r.node.Tightened n ∧ r.node.box.isEmpty = false :=
  ⟨processNode_related Node.composes_tightened (hs.mono fun _ _ h => ⟨h.id, h.depth, h.box⟩)
      hreturns,
    (processNode_opened (hs.mono fun _ _ h => h.score) hreturns hopen).nonempty⟩

/-- Nor was its score lowered. -/
theorem advanced_of_returns {solvers : Solvers σ α} {cutoff : Cutoff α} {memory after : σ}
    (hs : solvers.Tighten Node.Shrunk)
    (hreturns : (processNode solvers n cutoff).Returns memory r after)
    (hopen : r.stage = .postprocessed) : r.node.Advanced n := by
  obtain ⟨htight, hfull⟩ := tightened_of_returns hs hreturns hopen
  refine ⟨htight, hfull, fun low hlow => Scalar.Ordered.le_trans hlow ?_⟩
  exact (processNode_conforms (hs.mono fun _ _ h => h.score) hreturns
    (Scalar.Ordered.isNaN_right_of_le hlow)).score_le

end Search

/-! ## Asynchronous searches -/

namespace Async

variable [Scalar.Ordered α] {solvers : Solvers σ α} {start : Search α} {s t : Async α}

/-- A node that is out was processed, and taking in the report splits it. -/
inductive Splits (solvers : Solvers σ α) (s : Async α) (n : Node α) : Async α → Prop
  /-- The report is taken in like any other. -/
  | report {before after : List (Node α)} {cutoff : Cutoff α} {r : Report α} {memory left : σ}
      {t : Search α} (hout : s.out = before ++ n :: after)
      (hprocess : (processNode solvers n cutoff).Returns memory r left)
      (hstale : s.search.incumbent.value ≤ cutoff.incumbent)
      (happly : s.search.apply r = (.ok .branched, t)) : Splits solvers s n ⟨t, before ++ after⟩

/-- In a run, a node is split that so many splits led to, and the run is in a state before and in
another one after the split. -/
inductive Descent (solvers : Solvers σ α) (start : Search α) :
    Nat → Async α → Node α → Async α → Prop
  /-- No split led to the root. -/
  | root {s t : Async α} (hrun : Run solvers ⟨start, []⟩ s)
      (hsplit : Splits solvers s (.root start.brancher.vars) t) :
      Descent solvers start 0 s (.root start.brancher.vars) t
  /-- One more split led to a node that is open after the split of a node and was not before. -/
  | child {k : Nat} {s t u v : Async α} {m n : Node α} (hparent : Descent solvers start k s n t)
      (hopen : m ∈ t.search.brancher.frontier.nodes)
      (hnew : m ∉ s.search.brancher.frontier.nodes) (hrun : Run solvers t u)
      (hsplit : Splits solvers u m v) : Descent solvers start (k + 1) u m v

/-- A step leads from a state of the search to another one. -/
theorem continues_step (h : start.Continues s.search) (hstep : Step solvers s t) :
    start.Continues t.search := by
  cases hstep with
  | next hnext => exact h.next hnext
  | @report before after n cutoff r memory left stage u hout hprocess hstale happly =>
    have hu := h.perform (.apply r)
    rwa [Search.perform, happly] at hu
  | @requeue before after n b answer u hout hcancel hinsert =>
    have hcancelled := h.perform (.cancel n.id)
    rw [Search.perform, hcancel] at hcancelled
    have hu := hcancelled.perform (.insertEvaluated n)
    rwa [Search.perform, hinsert] at hu

/-- So does a run. -/
theorem continues_run (h : start.Continues s.search) (hrun : Run solvers s t) :
    start.Continues t.search := by
  induction hrun with
  | refl => exact h
  | tail _ hstep ih => exact continues_step ih hstep

omit [Scalar.Ordered α] in
/-- A split is a step. -/
theorem Splits.step {n : Node α} (h : Splits solvers s n t) : Step solvers s t := by
  cases h with
  | report hout hprocess hstale happly => exact .report hout hprocess hstale happly

/-- What is passed on holds of the nodes that are split. -/
theorem descends {P : Nat → Node α → Prop} {k : Nat} {n : Node α} (hstart : start.Continues start)
    (hP : start.Descends P) (hs : solvers.Tighten Node.Shrunk)
    (h : Descent solvers start k s n t) : P k n := by
  -- the states are carried along because the next line of descent starts from them
  suffices hall : P k n ∧ start.Continues s.search ∧ Splits solvers s n t from hall.1
  induction h with
  | root hrun hsplit => exact ⟨hP.root, continues_run hstart hrun, hsplit⟩
  | @child k s t u v m n hparent hopen hnew hrun hsplit ih =>
    obtain ⟨hn, hcontinues, hsplits⟩ := ih
    refine ⟨?_, continues_run (continues_step hcontinues hsplits.step) hrun, hsplit⟩
    cases hsplits with
    | report hout hprocess hstale happly =>
      obtain ⟨hstage, i, hchooses, hparts⟩ := Search.split_of_apply hcontinues happly
      obtain ⟨htight, hfull⟩ := Search.tightened_of_returns hs hprocess hstage
      exact hP.split (hP.tightened hn htight hfull) hchooses ((hparts m hopen).resolve_left hnew)

end Async

/-! ## Serial searches -/

namespace Serial

variable [Scalar.Ordered α] {solvers : Solvers σ α} {start : Search α} {run after : Run σ α}
  {n m : Node α} {r : Report α} {nodes : List (Node α)} {reports : List (Report α)} {stage : Stage}

/-- In a round a node is processed, and taking in the report splits it. -/
inductive Splits (solvers : Solvers σ α) (run : Run σ α) (n : Node α) : Run σ α → Prop
  /-- The node is branched like any other. -/
  | apply {t u : Search α} {r : Report α} {memory : σ} (hnext : (now solvers run).next = (.ok n, t))
      (hprocess : (processNode solvers n (now solvers run).cutoff).Returns run.memory r memory)
      (happly : t.apply r = (.ok .branched, u))
      (hround : (round solvers).exec run = (.ok none, ⟨u, memory⟩)) :
      Splits solvers run n ⟨u, memory⟩

/-- In a round a node is processed and branched strongly. -/
inductive SplitsStrongly (solvers : Solvers σ α) (run : Run σ α) (n : Node α) : Run σ α → Prop
  /-- The node is not too deep for it. -/
  | conclude {t : Search α} {r : Report α} {memory : σ} {after : Run σ α}
      (hnext : (now solvers run).next = (.ok n, t))
      (hprocess : (processNode solvers n (now solvers run).cutoff).Returns run.memory r memory)
      (hdepth : n.depth < t.settings.strongDepth) (hopen : r.stage = .postprocessed)
      (hstrong : (strongBranch solvers r).exec ⟨t, memory⟩ = (.ok .branched, after))
      (hround : (round solvers).exec run = (.ok none, after)) : SplitsStrongly solvers run n after

/-- In the rounds of a search, a node is split that so many splits led to, and the search is in a
state before and in another one after the split. -/
inductive Descent (solvers : Solvers σ α) (start : Search α) :
    Nat → Run σ α → Node α → Run σ α → Prop
  /-- No split led to the root. -/
  | root {memory : σ} {run after : Run σ α} (hrounds : Rounds solvers ⟨start, memory⟩ run)
      (hsplit : Splits solvers run (.root start.brancher.vars) after
        ∨ SplitsStrongly solvers run (.root start.brancher.vars) after) :
      Descent solvers start 0 run (.root start.brancher.vars) after
  /-- One more split led to a node that is open after the split of a node and was not before. -/
  | child {k : Nat} {run after later last : Run σ α} {m n : Node α}
      (hparent : Descent solvers start k run n after)
      (hopen : m ∈ after.search.brancher.frontier.nodes)
      (hnew : m ∉ run.search.brancher.frontier.nodes) (hrounds : Rounds solvers after later)
      (hsplit : Splits solvers later m last ∨ SplitsStrongly solvers later m last) :
      Descent solvers start (k + 1) later m last

/-- Processing children opens no node, and gives tightened ones whose scores were not lowered. -/
theorem evaluate_opens (hrun : run.search.brancher.frontier.Consistent)
    (hs : solvers.Tighten Node.Shrunk)
    (hevaluate : (evaluate solvers nodes).exec run = (.ok reports, after)) :
    after.search.brancher.frontier.Consistent
      ∧ after.search.brancher.frontier.nodes ≤ run.search.brancher.frontier.nodes
      ∧ ∀ r ∈ reports, r.stage = .postprocessed → ∃ c ∈ nodes, r.node.Advanced c := by
  induction nodes generalizing run reports with
  | nil =>
    cases hevaluate
    exact ⟨hrun, le_refl _, fun r hr => absurd hr List.not_mem_nil⟩
  | cons n rest ih =>
    -- the first child is processed and recorded, then the rest
    obtain ⟨r, memory, others, hreturns, -, hrest, rfl⟩ := evaluate_cons_ok hevaluate
    have hkeeps := run.search.keeps_record hrun r
    obtain ⟨hlast, hle, hothers⟩ := ih hkeeps.consistent hrest
    refine ⟨hlast, hle.trans hkeeps.nodes_le, List.forall_mem_cons.mpr ⟨fun hopen => ?_, ?_⟩⟩
    · exact ⟨n, List.mem_cons_self, Search.advanced_of_returns hs hreturns hopen⟩
    · intro q hq hopen
      obtain ⟨c, hc, hadvanced⟩ := hothers q hq hopen
      exact ⟨c, List.mem_cons_of_mem _ hc, hadvanced⟩

/-- Keeping a child opens its node if it has to be branched, and no other. -/
theorem keep_opens (hrun : run.search.brancher.frontier.Consistent)
    (hkeep : (keep r : Work σ α Unit).exec run = (.ok (), after)) :
    after.search.brancher.frontier.Consistent
      ∧ ∀ m ∈ after.search.brancher.frontier.nodes, m ∈ run.search.brancher.frontier.nodes
        ∨ r.stage = .postprocessed ∧ m = r.node := by
  rcases keep_ok hkeep with ⟨hstage, taken, hinsert⟩ | ⟨-, hcount⟩
  · have hconsistent := Search.consistent_perform hrun (.insertEvaluated r.node)
    rw [Search.perform, hinsert] at hconsistent
    refine ⟨hconsistent, fun m hm => ?_⟩
    rw [Search.eq_of_insertEvaluated_ok hinsert] at hm
    have hreserved := hrun.reserveIds r.node.id
    rcases Multiset.mem_cons.mp (Multiset.mem_of_le (hreserved.nodes_insert_le _) hm) with hm | hm
    · exact .inr ⟨hstage, hm⟩
    · exact .inl hm
  · have hkeeps := (Search.Keeps.refl hrun).countFathomed r
    rw [hcount]
    exact ⟨hkeeps.consistent, fun m hm => .inl (Multiset.mem_of_le hkeeps.nodes_le hm)⟩

omit [Scalar α] [Scalar.Ordered α] in
/-- The reports of a pair are reports. -/
theorem mem_of_mem_pairs {q : Report α × Report α} (hq : q ∈ pairs reports) :
    q.1 ∈ reports ∧ q.2 ∈ reports := by
  induction reports using pairs.induct with
  | case1 x y rest ih =>
    rcases List.mem_cons.mp hq with rfl | hq
    · exact ⟨List.mem_cons_self, List.mem_cons_of_mem _ List.mem_cons_self⟩
    · obtain ⟨hfirst, hsecond⟩ := ih hq
      exact ⟨List.mem_cons_of_mem _ (List.mem_cons_of_mem _ hfirst),
        List.mem_cons_of_mem _ (List.mem_cons_of_mem _ hsecond)⟩
  | case2 reports hshort =>
    rw [pairs] at hq
    · cases hq
    · exact hshort

/-- If there are nodes after strong branching that are open and were not before, then the node was
branched, and they are tightened parts of it, whose scores are not below its own. -/
theorem strongBranch_opens (h : start.Continues run.search) (hs : solvers.Tighten Node.Shrunk)
    (hstrong : (strongBranch solvers r).exec run = (.ok stage, after)) :
    ∀ m ∈ after.search.brancher.frontier.nodes, m ∈ run.search.brancher.frontier.nodes
      ∨ stage = .branched ∧ ∃ c i, c.SplitFrom start.brancher.vars i r.node
        ∧ c.KeepsBound r.node ∧ m.Advanced c := by
  obtain ⟨nodes, b, reports, evaluated, -, hall, hevaluate, hkeep⟩ := strongBranch_ok hstrong
  have hrecord := h.perform (.record r)
  have hfewer := (run.search.keeps_record h.consistent r).nodes_le
  have hopen := hrecord.perform (.strongChildren r)
  obtain ⟨id, hfrontier, -⟩ := (run.search.record r).2.brancher.allChildren_frontier r.node r.point
  rw [Search.perform, Search.perform, Search.strongChildren, hall] at hopen
  rw [hall] at hfrontier
  obtain ⟨hevaluated, hle, hreports⟩ := evaluate_opens hopen.consistent hs hevaluate
  -- neither recording the node nor trying its children opens a node
  have hold : ∀ m ∈ evaluated.search.brancher.frontier.nodes,
      m ∈ run.search.brancher.frontier.nodes := by
    intro m hm
    have hm := Multiset.mem_of_le hle hm
    dsimp only at hm
    rw [hfrontier] at hm
    exact Multiset.mem_of_le hfewer hm
  -- each child is a part of the node, which passes on its score
  have hpart : ∀ q ∈ reports, q.stage = .postprocessed →
      ∃ c i, c.SplitFrom start.brancher.vars i r.node ∧ c.KeepsBound r.node
        ∧ q.node.Advanced c := by
    intro q hq hstage
    obtain ⟨c, hc, hadvanced⟩ := hreports q hq hstage
    obtain ⟨i, hsplit⟩ := Brancher.splitFrom_allChildren hall hc
    have hvars : (run.search.record r).2.brancher.vars = start.brancher.vars := hrecord.alike.vars
    rw [hvars] at hsplit
    refine ⟨c, i, hsplit, ?_, hadvanced⟩
    obtain ⟨box, id, rfl⟩ := Brancher.exists_child_of_allChildren hall hc
    exact fun low hlow => hlow
  intro m hm
  -- of all children only the best pair can become open
  rcases keepBest_ok hkeep with ⟨-, hdropped⟩ | ⟨q, hq, first, second, hfirst, hsecond, hbranched⟩
  · rw [hdropped] at hm
    exact .inl (hold m hm)
  · obtain ⟨hbelow, habove⟩ := mem_of_mem_pairs hq
    obtain ⟨hconsistent, hkept⟩ := keep_opens hevaluated hfirst
    have hended := stage_keepBest hkeep (List.ne_nil_of_mem hq)
    rw [hbranched] at hm
    rcases (keep_opens hconsistent hsecond).2 m hm with hm | ⟨hstage, rfl⟩
    · rcases hkept m hm with hm | ⟨hstage, rfl⟩
      · exact .inl (hold m hm)
      · exact .inr ⟨hended, hpart _ hbelow hstage⟩
    · exact .inr ⟨hended, hpart _ habove hstage⟩

/-- Rounds lead from the start to states of the search. -/
theorem continues_rounds (h : start.Continues run.search)
    (hdef : Scalar.isNaN run.search.incumbent.value = false) (hrounds : Rounds solvers run after) :
    start.Continues after.search :=
  grounded_rounds (fun _ op hs _ => hs.perform op) hrounds h.consistent hdef h

omit [Scalar.Ordered α] in
/-- A split is a round. -/
theorem round_of_splits (h : Splits solvers run n after ∨ SplitsStrongly solvers run n after) :
    (round solvers).exec run = (.ok none, after) := by
  rcases h with h | h
  · cases h with
    | apply hnext hprocess happly hround => exact hround
  · cases h with
    | conclude hnext hprocess hdepth hopen hstrong hround => exact hround

omit [Scalar.Ordered α] in
/-- The nodes that are split are split in runs from the start. -/
theorem Descent.rounds {k : Nat} (h : Descent solvers start k run n after) :
    ∃ memory, Rounds solvers ⟨start, memory⟩ run
      ∧ (Splits solvers run n after ∨ SplitsStrongly solvers run n after) := by
  induction h with
  | root hrounds hsplit => exact ⟨_, hrounds, hsplit⟩
  | child hparent hopen hnew hrounds hsplit ih =>
    obtain ⟨memory, hbefore, hround⟩ := ih
    exact ⟨memory, (hbefore.tail (round_of_splits hround)).trans hrounds, hsplit⟩

/-- The nodes of a split that are open and were not before have what is passed on. -/
theorem descends_splits {P : Nat → Node α → Prop} {k : Nat} (hP : start.DescendsStrongly P)
    (hs : solvers.Tighten Node.Shrunk) (h : start.Continues run.search) (hn : P k n)
    (hsplit : Splits solvers run n after ∨ SplitsStrongly solvers run n after)
    (hopen : m ∈ after.search.brancher.frontier.nodes)
    (hnew : m ∉ run.search.brancher.frontier.nodes) : P (k + 1) m := by
  have hnow : start.Continues (now solvers run) := h.perform (.atTime _)
  -- to hand out the node opens none
  have hfewer : ∀ {t}, (now solvers run).next = (.ok n, t) →
      m ∉ t.brancher.frontier.nodes := by
    intro t hnext hm
    obtain ⟨_, _, hpop, -, rfl⟩ := Async.next_ok hnext
    refine hnew ?_
    show m ∈ (now solvers run).brancher.frontier.nodes
    rw [hnow.consistent.nodes_pop hpop]
    exact Multiset.mem_cons_of_mem hm
  rcases hsplit with h | h
  · cases h with
    | apply hnext hprocess happly hround =>
      obtain ⟨hstage, i, hchooses, hparts⟩ := Search.split_of_apply (hnow.next hnext) happly
      obtain ⟨htight, hfull⟩ := Search.tightened_of_returns hs hprocess hstage
      exact hP.split (hP.tightened hn htight hfull) hchooses
        ((hparts m hopen).resolve_left (hfewer hnext))
  · cases h with
    | @conclude t r memory _ hnext hprocess hdepth hstage hstrong hround =>
      have ht := hnow.next hnext
      obtain ⟨htight, hfull⟩ := Search.tightened_of_returns hs hprocess hstage
      obtain ⟨-, c, i, hpart, -, hchild⟩ := (strongBranch_opens ht hs
        hstrong m hopen).resolve_left (hfewer hnext)
      refine hP.tightened (hP.strong (hP.tightened hn htight hfull) ?_ hpart)
        hchild.toTightened hchild.full
      rw [htight.depth, ← ht.alike.settings]
      exact hdepth

/-- What is passed on holds of the nodes that are split. -/
theorem descends {P : Nat → Node α → Prop} {k : Nat} (hstart : start.Continues start)
    (hdef : Scalar.isNaN start.incumbent.value = false) (hP : start.DescendsStrongly P)
    (hs : solvers.Tighten Node.Shrunk) (h : Descent solvers start k run n after) : P k n := by
  induction h with
  | root => exact hP.root
  | child hparent hopen hnew hrounds hsplit ih =>
    obtain ⟨memory, hbefore, hparted⟩ := hparent.rounds
    have hcontinues := continues_rounds hstart hdef hbefore
    exact descends_splits hP hs hcontinues ih hparted hopen hnew

end Serial

end BranchBound
