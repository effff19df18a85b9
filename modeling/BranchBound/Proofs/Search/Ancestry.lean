import BranchBound.Proofs.Box.Nesting
import BranchBound.Proofs.Search.Lineage
import BranchBound.Proofs.Search.Queuing

/-! # Nodes and their ancestors

A node that is processed may be queued once more, or give way to its children. So a node that is in
the tree or out has a line of ancestors, each of them as it came out of processing. With exact
arithmetic and solvers that only move bounds inwards, a node is sane: its box is not empty, lies
inside the domain and within the box of its parent that was split, its depth is the number of its
ancestors, and its score is at least theirs.

* **`Node.Line opens root`** — the lines of ancestors in a run, given what it opens.
* **`Node.Follows`** — what may be opened once a node was processed.
* **`Node.Sane`**, **`Node.Line.sane`** — what is passed on along a line.
* **`Serial.Living`**, **`Serial.Opens`** — the nodes in the tree or out, and how the rounds of a
  search open nodes, strong branching included.
* **`Serial.exists_line`**, **`Serial.sane_line`** — these nodes have lines, and are sane. -/

namespace BranchBound

/-! ## Lines of ancestors -/

namespace Node

variable {α : Type}

/-- The ancestors of a node, the nearest one first, each of them as it came out of processing. What
`opens n r m stage` says is that `n` was processed, that its report `r` was concluded in this stage,
and that `m` is open then and was not before. -/
inductive Line (opens : Node α → Report α → Node α → Stage → Prop) (root : Node α) :
    List (Node α) → Node α → Prop
  /-- The root has no ancestors. -/
  | root : Line opens root [] root
  /-- A node that is queued once more has the ancestors that it had before. -/
  | renewed {ancestors : List (Node α)} {n m : Node α} {r : Report α}
      (h : Line opens root ancestors n) (hm : opens n r m .fixed) : Line opens root ancestors m
  /-- A child has its parent in front of the ancestors of its parent. -/
  | child {ancestors : List (Node α)} {n m : Node α} {r : Report α}
      (h : Line opens root ancestors n) (hm : opens n r m .branched) :
      Line opens root (r.node :: ancestors) m

variable [Scalar α]

/-- What may be opened once a node was processed and concluded in a stage. -/
inductive Follows (vars : List (Variable α)) (strongDepth : Nat) (k : Node α) :
    Node α → Stage → Prop
  /-- The node itself, with the bounds of discrete variables moved to whole numbers. -/
  | fixed (hfull : (Brancher.roundDiscrete vars k.box).isEmpty = false) :
      Follows vars strongDepth k { k with box := Brancher.roundDiscrete vars k.box } .fixed
  /-- A part of it. -/
  | part {i : Nat} {m : Node α} (hpart : m.SplitFrom vars i k) (hbound : m.KeepsBound k) :
      Follows vars strongDepth k m .branched
  /-- A part of it that strong branching has tried out and kept. -/
  | kept {i : Nat} {c m : Node α} (hstrong : k.depth < strongDepth)
      (hpart : c.SplitFrom vars i k) (hbound : c.KeepsBound k) (hm : m.Advanced c) :
      Follows vars strongDepth k m .branched

/-- What is opened has a line of ancestors if what was processed has one, with one more of them at
most. -/
theorem Line.exists_longer {vars : List (Variable α)} {strongDepth : Nat}
    {opens : Node α → Report α → Node α → Stage → Prop} {root n m : Node α} {r : Report α}
    {stage : Stage} {ancestors : List (Node α)} (h : Line opens root ancestors n)
    (hopens : opens n r m stage) (hfollows : Follows vars strongDepth r.node m stage) :
    ∃ longer, Line opens root longer m ∧ longer.length ≤ ancestors.length + 1 := by
  cases hfollows with
  | fixed => exact ⟨ancestors, .renewed h hopens, Nat.le_succ _⟩
  | part | kept => exact ⟨r.node :: ancestors, .child h hopens, Nat.le_refl _⟩

/-! ## Sane nodes -/

/-- What is true of a node with its ancestors, given the variables and the depth of strong
branching. -/
structure Sane (vars : List (Variable α)) (strongDepth : Nat) (ancestors : List (Node α))
    (m : Node α) : Prop where
  /-- The node has bounds for all variables, is not empty and lies inside the domain. -/
  inside : m.box.Inside vars
  /-- Its depth is the number of its ancestors, as a machine word. -/
  depth : m.depth = ancestors.length % depthRange
  /-- Its score is defined. -/
  defined : Scalar.isNaN m.score = false
  /-- Its score is at least those of its ancestors. -/
  score : ∀ a ∈ ancestors, a.score ≤ m.score
  /-- It lies within its parent, whose discrete bounds were moved to whole numbers. -/
  parent : ∀ a ∈ ancestors.head?, m.box.Nested vars a.box
  /-- Without strong branching its discrete bounds are whole. -/
  whole : strongDepth = 0 → Brancher.WholeBounds vars m.box

end Node

section Exact

variable {K : Type} [Field K] [LinearOrder K] [FloorRing K] [IsStrictOrderedRing K]
  {vars : List (Variable (Extended K))} {strongDepth : Nat} {ancestors : List (Node (Extended K))}
  {k m n : Node (Extended K)} {i : Nat} {stage : Stage}

/-- A part of a node inside the domain is inside it too, has whole bounds, and lies within the box
that was split. -/
theorem Node.SplitFrom.nested (h : m.SplitFrom vars i k) (hk : k.box.Inside vars)
    (hvars : ∀ v ∈ vars, v.Standard) :
    m.box.Inside vars ∧ Brancher.WholeBounds vars m.box ∧ m.box.Nested vars k.box := by
  obtain ⟨hinside, hwhole⟩ := Brancher.inside_roundDiscrete hk hvars h.full
  obtain ⟨v, hv, hpart⟩ := h.part
  obtain ⟨hbelow, habove⟩ := Brancher.isHalf_parts hinside hvars hwhole hv h.wide
  obtain ⟨hlower, hupper⟩ := Brancher.shrunk_parts (hinside.finite hvars) hwhole hv h.wide
  rcases hpart with hbox | hbox <;> rw [hbox]
  · exact ⟨hbelow.inside, hbelow.whole, hinside, hwhole, hlower⟩
  · exact ⟨habove.inside, habove.whole, hinside, hwhole, hupper⟩

namespace Node.Sane

/-- A node that was tightened is as sane as before, but for whole bounds. -/
theorem advanced (h : n.Sane vars strongDepth ancestors) (hm : m.Advanced n)
    (hstrong : strongDepth ≠ 0) : m.Sane vars strongDepth ancestors where
  inside := h.inside.shrunk hm.box hm.full
  depth := hm.depth.trans h.depth
  defined :=
    Scalar.Ordered.isNaN_right_of_le (hm.bound n.score (Scalar.Ordered.le_refl h.defined))
  score a ha := hm.bound _ (h.score a ha)
  parent a ha :=
    ⟨(h.parent a ha).inside, (h.parent a ha).whole, hm.box.trans (h.parent a ha).shrunk⟩
  whole hzero := absurd hzero hstrong

/-- The parts of a node that was processed are sane. -/
theorem part (h : n.Sane vars strongDepth ancestors) (hvars : ∀ v ∈ vars, v.Standard)
    (hk : k.Advanced n) (hpart : m.SplitFrom vars i k) (hbound : m.KeepsBound k) :
    m.Sane vars strongDepth (k :: ancestors) := by
  obtain ⟨hinside, hwhole, hnested⟩ :=
    hpart.nested (h.inside.shrunk hk.box hk.full) hvars
  have hscores : ∀ low, low ≤ n.score → low ≤ m.score := fun low hlow =>
    hbound low (hk.bound low hlow)
  have hdefined := Scalar.Ordered.isNaN_right_of_le
    (hk.bound n.score (Scalar.Ordered.le_refl h.defined))
  refine ⟨hinside, ?_, ?_, ?_, ?_, fun _ => hwhole⟩
  · rw [hpart.depth, hk.depth, h.depth, Nat.mod_add_mod]
    rfl
  · exact Scalar.Ordered.isNaN_right_of_le (hbound k.score (Scalar.Ordered.le_refl hdefined))
  · exact List.forall_mem_cons.mpr ⟨hbound k.score (Scalar.Ordered.le_refl hdefined),
      fun a ha => hscores _ (h.score a ha)⟩
  · rintro a ⟨⟩
    exact hnested

/-- So is a node that is queued once more. -/
theorem fixed (h : n.Sane vars strongDepth ancestors) (hvars : ∀ v ∈ vars, v.Standard)
    (hk : k.Advanced n) (hfull : (Brancher.roundDiscrete vars k.box).isEmpty = false) :
    ({ k with box := Brancher.roundDiscrete vars k.box } : Node (Extended K)).Sane vars strongDepth
      ancestors := by
  have hbox := h.inside.shrunk hk.box hk.full
  obtain ⟨hinside, hwhole⟩ := Brancher.inside_roundDiscrete hbox hvars hfull
  refine ⟨hinside, hk.depth.trans h.depth, ?_, fun a ha => hk.bound _ (h.score a ha),
    fun a ha => ?_, fun _ => hwhole⟩
  · exact Scalar.Ordered.isNaN_right_of_le (hk.bound n.score (Scalar.Ordered.le_refl h.defined))
  · -- the bounds of the parent are whole, so that the slack does not reach beyond them
    obtain ⟨hparent, hparentWhole, hshrunk⟩ := h.parent a ha
    exact ⟨hparent, hparentWhole, Brancher.shrunk_roundDiscrete (hbox.finite hvars)
      (hparent.finite hvars) hparentWhole (hk.box.trans hshrunk)⟩

omit [IsStrictOrderedRing K] in
/-- As long as depths do not run out, the depth counts the ancestors. -/
theorem length_eq_depth (h : n.Sane vars strongDepth ancestors)
    (hcount : ancestors.length < depthRange) : ancestors.length = n.depth := by
  rw [h.depth, Nat.mod_eq_of_lt hcount]

end Node.Sane

/-- The root is sane. -/
theorem Node.sane_root (hvars : ∀ v ∈ vars, v.Standard) (strongDepth : Nat) :
    (Node.root vars).Sane vars strongDepth [] := by
  refine ⟨Box.inside_root hvars, rfl, rfl, fun a ha => absurd ha List.not_mem_nil,
    fun a ha => (nomatch ha), fun _ i v hv hdiscrete => ?_⟩
  rw [(Box.bounds_root hv).1, (Box.bounds_root hv).2]
  exact (hvars v (List.mem_of_getElem? hv)).whole hdiscrete

/-- Along a line of ancestors the nodes are sane, if what is opened follows from what was
processed. -/
theorem Node.Line.sane {opens : Node (Extended K) → Report (Extended K) → Node (Extended K) →
      Stage → Prop} (hvars : ∀ v ∈ vars, v.Standard)
    (hopens : ∀ n r m stage, opens n r m stage →
      r.node.Advanced n ∧ Node.Follows vars strongDepth r.node m stage)
    (h : Node.Line opens (.root vars) ancestors m) : m.Sane vars strongDepth ancestors := by
  induction h with
  | root => exact Node.sane_root hvars strongDepth
  | renewed _ hm ih =>
    obtain ⟨hadvanced, hfollows⟩ := hopens _ _ _ _ hm
    cases hfollows with
    | fixed hfull => exact ih.fixed hvars hadvanced hfull
  | child _ hm ih =>
    obtain ⟨hadvanced, hfollows⟩ := hopens _ _ _ _ hm
    cases hfollows with
    | part hpart hbound => exact ih.part hvars hadvanced hpart hbound
    | kept hstrong hpart hbound hm =>
      exact (ih.part hvars hadvanced hpart hbound).advanced hm (Nat.ne_zero_of_lt hstrong)

end Exact

/-! ## What is opened -/

section Opening

variable {σ α : Type} [Scalar α] [Scalar.Ordered α] {solvers : Solvers σ α} {start s t : Search α}
  {run after : Run σ α} {k m n : Node α} {r : Report α} {stage : Stage}

/-- What comes of splitting a node has its score at least. -/
theorem Brancher.keepsBound_opened {b : Brancher α} {objective : α} {i down up : Nat}
    (hm : m ∈ b.opened k objective (.split i down up)) : m.KeepsBound k := by
  intro low hlow
  have hrounded := low_le_rounded (b := b) hlow objective
  cases hv : b.vars[i]? with
  | none =>
    rw [opened, hv] at hm
    exact absurd hm (Multiset.notMem_zero m)
  | some v =>
    rw [opened, hv] at hm
    dsimp only [Option.elim_some] at hm
    rcases Multiset.mem_cons.mp hm with rfl | hm
    · exact hrounded
    · rw [Multiset.mem_singleton.mp hm]
      exact hrounded

/-- The nodes that branching opens follow from the node that is branched. -/
theorem Brancher.follows_opened {b : Brancher α} {point : List α} {objective tolerance : α}
    {outcome : Branching} (strongDepth : Nat)
    (hjustified : b.Justified k point tolerance outcome) (hm : m ∈ b.opened k objective outcome) :
    Node.Follows b.vars strongDepth k m outcome.stage := by
  cases outcome with
  | dropped => exact absurd hm (Multiset.notMem_zero m)
  | requeued =>
    rw [Multiset.mem_singleton.mp hm]
    exact .fixed hjustified.1
  | split i down up => exact .part (splitFrom_opened hjustified hm) (keepsBound_opened hm)

/-- The nodes that are open once a report was taken in, and were not before, follow from the node of
the report. -/
theorem Search.follows_of_apply (strongDepth : Nat) (h : start.Continues s)
    (happly : s.apply r = (.ok stage, t)) (hm : m ∈ t.brancher.frontier.nodes) :
    m ∈ s.brancher.frontier.nodes ∨ r.stage = .postprocessed
      ∧ Node.Follows start.brancher.vars strongDepth r.node m stage := by
  obtain ⟨-, hsettle⟩ := apply_ok happly
  have hrecord := h.perform (.record r)
  have hkeeps := s.keeps_record h.consistent r
  cases settlement hsettle with
  | fathomed =>
    have hfewer := ((Keeps.refl hkeeps.consistent).countFathomed r).nodes_le
    exact .inl (Multiset.mem_of_le (hfewer.trans hkeeps.nodes_le) hm)
  | twice => exact .inl (Multiset.mem_of_le hkeeps.nodes_le hm)
  | branched hstage _ hbranch =>
    rw [(requeued_branched _ r _ _).1] at hm
    have hfewer := (Brancher.branch_cases hbranch).2.nodes_le hkeeps.consistent
    -- a node that is open was opened by branching, or was open before
    rcases Multiset.mem_add.mp (Multiset.mem_of_le hfewer hm) with hm | hm
    · refine .inr ⟨hstage, ?_⟩
      rw [← show (s.record r).2.brancher.vars = start.brancher.vars from hrecord.alike.vars]
      exact Brancher.follows_opened _ (Brancher.branch_justified hbranch) hm
    · exact .inl (Multiset.mem_of_le hkeeps.nodes_le hm)

omit [Scalar.Ordered α] in
/-- A node that is handed out was open, and no node became open by it. -/
theorem Search.mem_of_next (hs : s.brancher.frontier.Consistent) (hnext : s.next = (.ok n, t)) :
    n ∈ s.brancher.frontier.nodes
      ∧ ∀ m ∈ t.brancher.frontier.nodes, m ∈ s.brancher.frontier.nodes := by
  obtain ⟨_, _, hpop, rfl, rfl⟩ := Async.next_ok hnext
  rw [hs.nodes_pop hpop]
  exact ⟨Multiset.mem_cons_self _ _, fun m hm => Multiset.mem_cons_of_mem hm⟩

namespace Serial

/-- So it is if the node is branched strongly, or concluded in whichever way. -/
theorem follows_of_conclude {depth : Nat} (h : start.Continues run.search)
    (hs : solvers.Tighten Node.Shrunk) (hdepth : r.stage = .postprocessed → r.node.depth = depth)
    (hconclude : (conclude solvers depth r).exec run = (.ok stage, after))
    (hm : m ∈ after.search.brancher.frontier.nodes) : m ∈ run.search.brancher.frontier.nodes
      ∨ r.stage = .postprocessed
        ∧ Node.Follows start.brancher.vars start.settings.strongDepth r.node m stage := by
  rcases conclude_ok hconclude with happly | ⟨hlow, hstage, hstrong⟩
  · exact Search.follows_of_apply _ h happly hm
  · refine (strongBranch_opens h hs hstrong m hm).imp_right ?_
    rintro ⟨rfl, c, i, hpart, hbound, hadvanced⟩
    rw [h.alike.settings, ← hdepth hstage] at hlow
    exact ⟨hstage, .kept hlow hpart hbound hadvanced⟩

/-! ## The nodes of a serial search -/

/-- In the next round a node is handed out and processed, which leaves the search and the state of
the solvers so. -/
structure Processes (solvers : Solvers σ α) (run : Run σ α) (n : Node α) (r : Report α)
    (t : Search α) (memory : σ) : Prop where
  /-- The search is not over. -/
  check : (now solvers run).check none = none
  /-- The node is handed out. -/
  next : (now solvers run).next = (.ok n, t)
  /-- The report comes out of processing it. -/
  process : (processNode solvers n (now solvers run).cutoff).Returns run.memory r memory

/-- In the next round a node is branched strongly, and one of its children in every dimension is
handed out. -/
inductive Tries (solvers : Solvers σ α) (run : Run σ α) (n : Node α) (r : Report α)
    (m : Node α) : Prop
  /-- The node is not too deep for it and calls for it. -/
  | child {t u : Search α} {memory : σ} {nodes : List (Node α)}
      (h : Processes solvers run n r t memory) (hdepth : n.depth < t.settings.strongDepth)
      (hwants : wantsStrong t r = true) (hrecord : (t.record r).1 = .ok ())
      (hchildren : (t.record r).2.strongChildren r = (.ok nodes, u)) (hm : m ∈ nodes)

/-- A node is in the tree between two rounds, or is out in the next round. -/
inductive Living (solvers : Solvers σ α) (run : Run σ α) (m : Node α) : Prop
  /-- It is in the tree. -/
  | queued (hm : m ∈ run.search.brancher.frontier.nodes)
  /-- It is the node of the next round. -/
  | handedOut (hm : Pops solvers run m)
  /-- It is tried out by strong branching. -/
  | tried {n : Node α} {r : Report α} (hm : Tries solvers run n r m)

/-- In a round of a search a node is processed and concluded in a stage, and another one is in the
tree then and was not before, or it is out because strong branching tries it out. -/
inductive Opens (solvers : Solvers σ α) (first : Run σ α) (n : Node α) (r : Report α)
    (m : Node α) : Stage → Prop
  /-- It is in the tree. -/
  | concluded {run after : Run σ α} {t : Search α} {memory : σ} {stage : Stage}
      (hrounds : Rounds solvers first run) (h : Processes solvers run n r t memory)
      (hconclude : (conclude solvers n.depth r).exec ⟨t, memory⟩ = (.ok stage, after))
      (hopen : m ∈ after.search.brancher.frontier.nodes) (hnew : m ∉ t.brancher.frontier.nodes) :
      Opens solvers first n r m stage
  /-- It is tried out. -/
  | tried {run : Run σ α} (hrounds : Rounds solvers first run) (hm : Tries solvers run n r m) :
      Opens solvers first n r m .branched

/-- The lines of ancestors in a serial search. -/
abbrev Line (solvers : Solvers σ α) (first : Run σ α) : List (Node α) → Node α → Prop :=
  Node.Line (Opens solvers first) (.root first.search.brancher.vars)

omit [Scalar.Ordered α] in
/-- A round that does not end the search begins with a search that is not over. -/
theorem check_of_round (h : (round solvers).exec run = (.ok none, after)) :
    (now solvers run).check none = none := by
  cases hcheck : (now solvers run).check none with
  | none => rfl
  | some status =>
    rw [exec_round_over hcheck] at h
    cases h

/-- The children that strong branching tries out follow from their parent. -/
theorem follows_of_tries (h : start.Continues run.search) (hs : solvers.Tighten Node.Shrunk)
    (hm : Tries solvers run n r m) : r.node.Advanced n
      ∧ Node.Follows start.brancher.vars start.settings.strongDepth r.node m .branched := by
  cases hm with
  | @child t u memory nodes hprocesses _ hwants _ hchildren hm =>
    have hstage : r.stage = .postprocessed := by
      rw [wantsStrong, Bool.and_eq_true, Bool.and_eq_true] at hwants
      exact of_decide_eq_true hwants.1.1
    have hrecord := ((h.perform (.atTime (solvers.clock run.memory))).next
      hprocesses.next).perform (.record r)
    rcases hall : (t.record r).2.brancher.allChildren r.node r.point with ⟨answer, b⟩
    rw [Search.strongChildren, hall] at hchildren
    cases hchildren
    obtain ⟨i, hpart⟩ := Brancher.splitFrom_allChildren hall hm
    rw [show (t.record r).2.brancher.vars = start.brancher.vars from hrecord.alike.vars] at hpart
    obtain ⟨box, id, rfl⟩ := Brancher.exists_child_of_allChildren hall hm
    exact ⟨Search.advanced_of_returns hs hprocesses.process hstage, .part hpart fun _ h => h⟩

variable {vars : List (Variable α)} {settings : Settings α} {memory : σ}

/-- A search that has gone round after round is in a state of the search. -/
theorem continues_of_rounds (hstart : Search.new vars settings = .ok start)
    (hrounds : Rounds solvers ⟨start, memory⟩ run) : start.Continues run.search := by
  have hdef : Scalar.isNaN start.incumbent.value = false := by
    rw [(Search.new_frame hstart).1]
    exact Scalar.Ordered.isNaN_infinity
  have hfirst : start.Continues (Run.mk start memory).search := .new hstart
  exact continues_rounds hfirst hdef hrounds

/-- What is opened follows from what was processed. -/
theorem follows_of_opens (hstart : Search.new vars settings = .ok start)
    (hs : solvers.Tighten Node.Shrunk) (h : Opens solvers ⟨start, memory⟩ n r m stage) :
    r.node.Advanced n
      ∧ Node.Follows start.brancher.vars start.settings.strongDepth r.node m stage := by
  cases h with
  | concluded hrounds hprocesses hconclude hopen hnew =>
    have ht := ((continues_of_rounds hstart hrounds).perform (.atTime _)).next hprocesses.next
    obtain ⟨hstage, hfollows⟩ := (follows_of_conclude ht hs
      (fun hstage => (Search.advanced_of_returns hs hprocesses.process hstage).depth)
      hconclude hopen).resolve_left hnew
    exact ⟨Search.advanced_of_returns hs hprocesses.process hstage, hfollows⟩
  | tried hrounds hm => exact follows_of_tries (continues_of_rounds hstart hrounds) hs hm

/-- Every node in the tree has a line of ancestors, of whom there are no more than were
processed. -/
theorem exists_line_of_queued (hstart : Search.new vars settings = .ok start)
    (hs : solvers.Tighten Node.Shrunk) (hrounds : Rounds solvers ⟨start, memory⟩ run)
    (hm : m ∈ run.search.brancher.frontier.nodes) :
    ∃ ancestors, Line solvers ⟨start, memory⟩ ancestors m
      ∧ ancestors.length ≤ run.search.stats.processed := by
  induction hrounds generalizing m with
  | refl =>
    rw [Search.eq_root_of_new hstart hm]
    exact ⟨[], .root, Nat.zero_le _⟩
  | @tail run after hrounds hround ih =>
    have hrun := continues_of_rounds hstart hrounds
    have hrounded := exec_round solvers run
    rw [hround] at hrounded
    cases hrounded with
    | @next n t r memory stage _ hnext hprocess hconclude =>
      obtain ⟨hn, hfewer⟩ := Search.mem_of_next (s := now solvers run) hrun.consistent hnext
      have hcounted : run.search.stats.processed < after.search.stats.processed := by
        have hlater := (now solvers run).later_next
        have hcounts := counts_conclude solvers n.depth r ⟨t, memory⟩
        rw [hnext] at hlater
        rw [hconclude] at hcounts
        exact (hlater.trans_counted hcounts).1
      -- what was not in the tree when the node went out was opened in its place
      by_cases hold : m ∈ t.brancher.frontier.nodes
      · obtain ⟨ancestors, hline, hlength⟩ := ih (hfewer m hold)
        exact ⟨ancestors, hline, hlength.trans hcounted.le⟩
      · obtain ⟨ancestors, hline, hlength⟩ := ih hn
        have hopens : Opens solvers _ n r m stage :=
          .concluded hrounds ⟨check_of_round hround, hnext, hprocess⟩ hconclude hm hold
        obtain ⟨-, hfollows⟩ := follows_of_opens hstart hs hopens
        obtain ⟨longer, hlonger, hmore⟩ := hline.exists_longer hopens hfollows
        exact ⟨longer, hlonger, hmore.trans (hlength.trans_lt hcounted)⟩

/-- So has every node that is out. -/
theorem exists_line (hstart : Search.new vars settings = .ok start)
    (hs : solvers.Tighten Node.Shrunk) (hrounds : Rounds solvers ⟨start, memory⟩ run)
    (hm : Living solvers run m) :
    ∃ ancestors, Line solvers ⟨start, memory⟩ ancestors m
      ∧ ancestors.length ≤ run.search.stats.processed + 1 := by
  have hconsistent : (now solvers run).brancher.frontier.Consistent :=
    (continues_of_rounds hstart hrounds).consistent
  -- whatever is handed out or tried comes from a node that was queued
  have hline : ∀ {n}, n ∈ run.search.brancher.frontier.nodes →
      ∃ ancestors, Line solvers ⟨start, memory⟩ ancestors n
        ∧ ancestors.length ≤ run.search.stats.processed :=
    exists_line_of_queued hstart hs hrounds
  cases hm with
  | queued hm =>
    obtain ⟨ancestors, h, hlength⟩ := hline hm
    exact ⟨ancestors, h, Nat.le_succ_of_le hlength⟩
  | handedOut hm =>
    obtain ⟨-, t, hnext⟩ := hm
    obtain ⟨ancestors, h, hlength⟩ := hline (Search.mem_of_next hconsistent hnext).1
    exact ⟨ancestors, h, Nat.le_succ_of_le hlength⟩
  | @tried n r hm =>
    have hopens := Opens.tried hrounds hm
    cases hm with
    | child h =>
      obtain ⟨ancestors, h, hlength⟩ := hline (Search.mem_of_next hconsistent h.next).1
      exact ⟨r.node :: ancestors, .child h hopens, Nat.succ_le_succ hlength⟩

end Serial

end Opening

/-- The nodes of a serial search are sane. -/
theorem Serial.sane_line {σ K : Type} [Field K] [LinearOrder K] [FloorRing K]
    [IsStrictOrderedRing K] {solvers : Solvers σ (Extended K)} {vars : List (Variable (Extended K))}
    {settings : Settings (Extended K)} {start : Search (Extended K)} {memory : σ}
    {ancestors : List (Node (Extended K))} {m : Node (Extended K)}
    (hstart : Search.new vars settings = .ok start) (hs : solvers.Tighten Node.Shrunk)
    (h : Line solvers ⟨start, memory⟩ ancestors m) :
    m.Sane start.brancher.vars settings.strongDepth ancestors := by
  rw [← (Search.new_frame hstart).2.2]
  exact h.sane (Search.standard_new hstart) fun _ _ _ _ hopens => follows_of_opens hstart hs hopens

end BranchBound
