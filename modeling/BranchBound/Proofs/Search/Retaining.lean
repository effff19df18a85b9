import BranchBound.Proofs.Search.Sheltering
import BranchBound.Proofs.Search.Sparing

/-! # Searches that know no point

As long as no point is known, every feasible one is sheltered by an open node or by the node that is
out, unless nodes are dropped that may hold one. This is kept when a node is handed out, when its
report is recorded and when it is acted on, be it that the node is branched strongly.

* **`Search.Blank`** — no point is known, and no node was dropped that may hold one.
* **`Search.Retains`** — every feasible point is sheltered by a node that is open or out;
  `Retains.next`, `Retains.record` and `Retains.settle` say what the steps of a round do to this.
* **`Serial.retains_strongBranch`** — what strong branching does to it. -/

namespace BranchBound

variable {σ α : Type}

namespace Search

variable {K : Type} [Field K] [LinearOrder K] [FloorRing K] {p : Problem (Extended K)}
  {solvers : Solvers σ (Extended K)} {s t : Search (Extended K)} {n : Node (Extended K)}
  {r : Report (Extended K)} {stage : Stage} {out : Multiset (Node (Extended K))}

/-! ## Searches that know no point -/

/-- The incumbent is infinite before if it is so later. -/
theorem unknown_of_le (hdef : Scalar.isNaN s.incumbent.value = false)
    (h : t.incumbent.value = Scalar.infinity)
    (hle : ∀ {y}, s.incumbent.value ≤ y → t.incumbent.value ≤ y) :
    s.incumbent.value = Scalar.infinity := by
  have hbelow := hle (Scalar.Ordered.le_refl hdef)
  rw [h] at hbelow
  exact Extended.eq_of_same ⟨Scalar.Ordered.le_infinity hdef, hbelow⟩

/-- Recording a report after which no point is known leaves the frontier as it is, and no point was
known before. -/
theorem record_unknown (hdef : Scalar.isNaN s.incumbent.value = false)
    (h : (s.record r).2.incumbent.value = Scalar.infinity) :
    s.incumbent.value = Scalar.infinity
      ∧ (s.record r).2.brancher.frontier = s.brancher.frontier := by
  have hunknown := unknown_of_le hdef h (incumbent_perform_le (.record r))
  refine ⟨hunknown, (confirm_frontier (s.account r).brancher r.node.id r.node).1.trans ?_⟩
  have hadopt : (s.record r).2.incumbent = s.incumbent.adopt r := (s.account_frame r).2
  rw [hadopt] at h
  rcases s.incumbent.adopt_cases r with ⟨c, -, hlt, heq⟩ | ⟨hnone, -⟩
  · rw [heq] at h
    rw [show c.value = Scalar.infinity from h] at hlt
    exact absurd (Scalar.Ordered.le_infinity hdef) (Scalar.not_le_of_lt hlt)
  · rw [account_eq]
    split
    · next c hc => rw [offer_of_not_lt (s := s.counted r) (hnone c hc)]; rfl
    · rfl

/-- No point is known, and no node was dropped that may hold one. -/
structure Blank (s : Search (Extended K)) : Prop where
  /-- No point is known. -/
  unknown : s.incumbent.value = Scalar.infinity
  /-- No node was dropped, or those that are dropped hold no feasible point. -/
  exact : s.stats.dropped = 0 ∨ s.settings.strongDepth = 0 ∧ s.settings.sizeTolerance = 0

/-- A search that knows no point and refuses no node, whose nodes, those that are out included, have
names of their own below a given id. -/
structure Tended (p : Problem (Extended K)) (s : Search (Extended K))
    (out : Multiset (Node (Extended K))) (given : Nat) : Prop where
  /-- No point is known. -/
  unknown : s.incumbent.value = Scalar.infinity
  /-- The frontier is consistent. -/
  consistent : s.brancher.frontier.Consistent
  /-- No node is refused. -/
  lenient : Scalar.infinity ≤ s.brancher.frontier.adjustedThreshold
  /-- The nodes have names of their own. -/
  names : Names (s.brancher.frontier.nodes + out) s.requeued given
  /-- The feasible points are points of the domain. -/
  fits : p.Fits s.brancher.vars
  /-- The variables are in standard form. -/
  standard : ∀ v ∈ s.brancher.vars, v.Standard

/-- While no point is known, every feasible one is sheltered by a node that is open or out. -/
structure Retains (p : Problem (Extended K)) (s : Search (Extended K))
    (out : Multiset (Node (Extended K))) : Prop
    extends s.Tended p out s.brancher.frontier.nextId where
  /-- Every feasible point is sheltered. -/
  shelters : ∀ x ∈ p.points,
    ∃ n ∈ s.brancher.frontier.nodes + out, n.Shelters p s.brancher.vars x

/-- What matters is the tree, as long as no point becomes known. -/
theorem Tended.of_eq {given : Nat} (h : s.Tended p out given)
    (hunknown : t.incumbent.value = Scalar.infinity)
    (hfrontier : t.brancher.frontier = s.brancher.frontier)
    (hvars : t.brancher.vars = s.brancher.vars) (hrequeued : t.requeued = s.requeued) :
    t.Tended p out given := by
  refine ⟨hunknown, hfrontier ▸ h.consistent, hfrontier ▸ h.lenient, ?_, hvars ▸ h.fits,
    hvars ▸ h.standard⟩
  rw [hfrontier, hrequeued]
  exact h.names

/-- Ids may be given out to nodes that do not stay. -/
theorem Tended.later {given later : Nat} (h : s.Tended p out given) (hle : given ≤ later) :
    s.Tended p out later :=
  ⟨h.unknown, h.consistent, h.lenient, h.names.later hle, h.fits, h.standard⟩

/-- Handing out a node. -/
theorem Retains.next (h : s.Retains p 0) (hnext : s.next = (.ok n, t)) : t.Retains p {n} := by
  obtain ⟨m, f, hpop, rfl, rfl⟩ := Async.next_ok hnext
  have hnodes : s.brancher.frontier.nodes + 0 = f.nodes + {m.node} := by
    rw [h.consistent.nodes_pop hpop, Multiset.add_zero, ← Multiset.singleton_add,
      Multiset.add_comm]
  obtain ⟨slot, -, -, rfl⟩ := Frontier.pop?_eq_some hpop
  have hnames := h.names
  have hshelters := h.shelters
  rw [hnodes] at hnames hshelters
  exact ⟨⟨h.unknown, h.consistent.pop hpop, h.lenient, hnames, h.fits, h.standard⟩, hshelters⟩

/-- Recording a report after which no point is known. -/
theorem Retains.record (h : s.Retains p out)
    (hunknown : (s.record r).2.incumbent.value = Scalar.infinity) :
    (s.record r).2.Retains p out := by
  have hdef : Scalar.isNaN s.incumbent.value = false := by rw [h.unknown]; rfl
  obtain ⟨-, hfrontier⟩ := record_unknown hdef hunknown
  have hkeeps := s.keeps_record h.consistent r
  refine ⟨?_, ?_⟩
  · rw [hfrontier]
    exact h.toTended.of_eq hunknown hfrontier hkeeps.vars hkeeps.requeued
  · rw [hfrontier, hkeeps.vars]
    exact h.shelters

variable [IsStrictOrderedRing K]

/-- Acting on the recorded report of the node that is out: unless nodes may be dropped that hold a
point, those that come of it shelter what the node did. -/
theorem Retains.settle (h : s.Retains p {n}) (hsound : solvers.Sound p)
    (hfinite : ∀ x ∈ p.points, p.value x < Scalar.infinity) (hr : s.Recorded solvers n r)
    (hsettle : s.settle r = (.ok stage, t))
    (hexact : t.stats.dropped = 0 ∨ s.settings.sizeTolerance = 0)
    (hroom : s.brancher.frontier.nextId + 2 < wordRange) :
    t.Retains p 0 ∧ t.brancher.frontier.nextId ≤ s.brancher.frontier.nextId + 2 := by
  have hnames := h.names
  rw [Multiset.add_comm, Multiset.singleton_add] at hnames
  have htwice := hnames.isPoint n (Multiset.mem_cons_self _ _)
  have hid := (hr.partOf hsound h.unknown).id
  obtain ⟨hconsistent, hafter, hnext, hvars⟩ := replaces_settle hsettle h.consistent
    (by rwa [Multiset.add_zero]) hid hroom
  have hincumbent : t.incumbent = s.incumbent := by
    have hframe := (s.settle_frame r).2
    rw [hsettle] at hframe
    exact hframe
  have hlimits := (refills_settle h.consistent r).limits
  have hnodes := le_nodes_settle h.consistent r
  rw [hsettle] at hlimits hnodes
  refine ⟨⟨⟨hincumbent ▸ h.unknown, hconsistent, ?_, hafter, hvars ▸ h.fits, hvars ▸ h.standard⟩,
    fun x hx => ?_⟩, hnext⟩
  · rw [hlimits.adjustedThreshold]
    exact h.lenient
  obtain ⟨m, hm, hshelters⟩ := h.shelters x hx
  rw [hvars, Multiset.add_zero]
  rcases Multiset.mem_add.mp hm with hm | hm
  · -- the nodes that were open before stay open
    exact ⟨m, Multiset.mem_of_le hnodes hm, hshelters⟩
  · rw [Multiset.mem_singleton.mp hm] at hshelters
    obtain ⟨hstage, hpoint, hreported, hbound⟩ :=
      hr.shelters hsound h.unknown hx (hfinite x hx) hshelters
    cases settlement hsettle with
    | fathomed hfathomed => cases hstage.symm.trans hfathomed
    | twice _ _ hnoted =>
      -- a node that is evaluated for the second time was a single point before
      rw [hid] at hnoted
      cases (htwice hnoted).symm.trans hpoint
    | @branched _ _ outcome b hb =>
      have hjustified := Brancher.branch_justified hb
      -- a node that is dropped is counted, and is not below a size tolerance of zero
      have hout : outcome ≠ .dropped := by
        rintro rfl
        rcases hexact with hnone | hzero
        · rw [dropped_branched, if_pos rfl] at hnone
          cases hnone
        · rw [hzero] at hjustified
          exact Brancher.not_justified_dropped hreported h.standard (h.fits.integral x hx)
            hjustified
      rw [(s.requeued_branched r b outcome).1]
      exact (Brancher.branch_cases hb).2.shelters hjustified hout h.consistent h.lenient
        h.standard (h.fits.integral x hx) (hfinite x hx) hreported hbound

end Search

/-! ## Keeping children -/

section Keeping

variable [Scalar α]

/-- From one state of a search to another nothing but the tree and the bookkeeping of fathomed nodes
changed. -/
structure Search.Framed (s t : Search α) : Prop where
  /-- The incumbent is the same. -/
  incumbent : t.incumbent = s.incumbent
  /-- So are the ids that are noted. -/
  requeued : t.requeued = s.requeued
  /-- So are the variables. -/
  vars : t.brancher.vars = s.brancher.vars
  /-- No node was dropped. -/
  dropped : t.stats.dropped = s.stats.dropped
  /-- No node was processed. -/
  processed : t.stats.processed = s.stats.processed

namespace Serial

variable {solvers : Solvers σ α} {run after : Run σ α} {r : Report α} {nodes : List (Node α)}
  {reports : List (Report α)}

/-- Keeping a child offers its node to the frontier if it has to be branched. -/
theorem keep_offers (h : (keep r : Work σ α Unit).exec run = (.ok (), after))
    (hid : r.node.id < run.search.brancher.frontier.nextId) :
    run.search.Framed after.search
      ∧ ((r.stage = .postprocessed ∧ ∃ score, after.search.brancher.frontier
          = (run.search.brancher.frontier.insert ⟨r.node, score, .unsplit⟩).2)
        ∨ r.stage ≠ .postprocessed
          ∧ after.search.brancher.frontier = run.search.brancher.frontier) := by
  rcases keep_ok h with ⟨hstage, taken, hinsert⟩ | ⟨hstage, hcount⟩
  · -- the id of the child was given out before, so that none is reserved
    rw [Search.eq_of_insertEvaluated_ok hinsert, Frontier.reserveIds_of_lt hid]
    exact ⟨⟨rfl, rfl, rfl, rfl, rfl⟩, .inl ⟨hstage, _, rfl⟩⟩
  · obtain ⟨hbrancher, hincumbent⟩ := run.search.countFathomed_frame r
    rw [hcount, hbrancher]
    refine ⟨⟨hincumbent, ?_, by rw [hbrancher], run.search.dropped_countFathomed r, ?_⟩,
      .inr ⟨hstage, rfl⟩⟩
    · unfold Search.countFathomed Search.noteDiscarded
      dsimp only
      split_ifs <;> rfl
    · exact run.search.processed_countFathomed r

/-- Processing children counts them. -/
theorem processed_evaluate (h : (evaluate solvers nodes).exec run = (.ok reports, after)) :
    after.search.stats.processed = run.search.stats.processed + nodes.length := by
  induction nodes generalizing run reports with
  | nil =>
    cases h
    rfl
  | cons n rest ih =>
    obtain ⟨r, memory, others, -, -, hrest, -⟩ := evaluate_cons_ok h
    rw [ih hrest, Search.processed_record, List.length_cons]
    omega

end Serial

end Keeping

/-! ## Strong branching -/

namespace Serial

variable {K : Type} [Field K] [LinearOrder K] [FloorRing K] {p : Problem (Extended K)}
  {solvers : Solvers σ (Extended K)} {run after : Run σ (Extended K)} {n m : Node (Extended K)}
  {r : Report (Extended K)} {nodes : List (Node (Extended K))}
  {reports : List (Report (Extended K))} {stage : Stage} {vars : List (Variable (Extended K))}
  {x : List (Extended K)}

/-- Processing children after which no point is known leaves the frontier as it is. -/
theorem evaluate_unknown (h : (evaluate solvers nodes).exec run = (.ok reports, after))
    (hs : run.search.brancher.frontier.Consistent)
    (hdef : Scalar.isNaN run.search.incumbent.value = false)
    (hunknown : after.search.incumbent.value = Scalar.infinity) :
    after.search.brancher.frontier = run.search.brancher.frontier
      ∧ after.search.requeued = run.search.requeued
      ∧ after.search.brancher.vars = run.search.brancher.vars := by
  induction nodes generalizing run reports with
  | nil =>
    cases h
    exact ⟨rfl, rfl, rfl⟩
  | cons n rest ih =>
    obtain ⟨r, memory, others, -, -, hrest, -⟩ := evaluate_cons_ok h
    have hkeeps := run.search.keeps_record hs r
    have hdefined : Scalar.isNaN (run.search.record r).2.incumbent.value = false :=
      Scalar.Ordered.isNaN_left_of_le
        (Search.incumbent_perform_le (.record r) (Scalar.Ordered.le_refl hdef))
    obtain ⟨hfrontier, hrequeued, hvars⟩ := ih hrest hkeeps.consistent hdefined
    -- incumbents do not rise, so that none was known after the first child either
    have hfalls := falls_evaluate solvers rest ⟨(run.search.record r).2, memory⟩ hkeeps.consistent
    rw [hrest] at hfalls
    obtain ⟨-, hsame⟩ := Search.record_unknown hdef
      (Search.unknown_of_le hdefined hunknown hfalls.incumbent)
    exact ⟨hfrontier.trans hsame, hrequeued.trans hkeeps.requeued, hvars.trans hkeeps.vars⟩

/-- Processing the children of a node after which no point is known leaves the tree as it is, but
for the ids that the children took. -/
theorem tended_evaluate {s : Search (Extended K)} {b : Brancher (Extended K)} {memory : σ}
    {out : Multiset (Node (Extended K))} {given : Nat} {point : List (Extended K)}
    (h : s.Tended p out given) (hall : s.brancher.allChildren n point = (.ok nodes, b))
    (hevaluate : (evaluate solvers nodes).exec ⟨{ s with brancher := b }, memory⟩
      = (.ok reports, after))
    (hunknown : after.search.incumbent.value = Scalar.infinity) :
    after.search.Tended p out given
      ∧ after.search.brancher.frontier.nodes = s.brancher.frontier.nodes
      ∧ after.search.brancher.vars = s.brancher.vars
      ∧ after.search.brancher.frontier.nextId = b.frontier.nextId := by
  obtain ⟨id, hfrontier, hvars⟩ := s.brancher.allChildren_frontier n point
  rw [hall] at hfrontier hvars
  have hopen : b.frontier.Consistent := by
    rw [hfrontier]
    exact h.consistent.of_eq rfl rfl rfl rfl
  obtain ⟨hsame, hrequeued, hsameVars⟩ :=
    evaluate_unknown hevaluate hopen (by rw [h.unknown]; rfl) hunknown
  have hnodes : b.frontier.nodes = s.brancher.frontier.nodes := by
    rw [hfrontier]
    rfl
  -- making children changes the next id of the frontier, and no limit of it
  have hlenient : Scalar.infinity ≤ b.frontier.adjustedThreshold := by
    rw [hfrontier]
    exact h.lenient
  have hbrancher : ({ s with brancher := b } : Search (Extended K)).Tended p out given :=
    ⟨h.unknown, hopen, hlenient, show Names (b.frontier.nodes + out) _ _ from hnodes ▸ h.names,
      show p.Fits b.vars from hvars ▸ h.fits, show ∀ v ∈ b.vars, _ from hvars ▸ h.standard⟩
  exact ⟨hbrancher.of_eq hunknown hsame hsameVars hrequeued,
    (congrArg Frontier.nodes hsame).trans hnodes, hsameVars.trans hvars,
    congrArg Frontier.nextId hsame⟩

/-- Keeping a child takes in its node under a name of its own and closes no other one. -/
theorem tended_keep {first : Nat} (last : Nat) (h : run.search.Tended p 0 first)
    (hkeep : (keep r : Work σ (Extended K) Unit).exec run = (.ok (), after))
    (hfirst : first ≤ r.node.id) (hlast : r.node.id < last)
    (hnext : last ≤ run.search.brancher.frontier.nextId) :
    after.search.Tended p 0 last ∧ run.search.Framed after.search
      ∧ after.search.brancher.frontier.nextId = run.search.brancher.frontier.nextId
      ∧ ∀ m ∈ run.search.brancher.frontier.nodes, m ∈ after.search.brancher.frontier.nodes := by
  obtain ⟨hframed, hcases⟩ := keep_offers hkeep (Nat.lt_of_lt_of_le hlast hnext)
  have hunknown : after.search.incumbent.value = Scalar.infinity := by
    rw [hframed.incumbent, h.unknown]
  rcases hcases with ⟨-, score, hfrontier⟩ | ⟨-, hfrontier⟩
  · refine ⟨⟨hunknown, ?_, ?_, ?_, hframed.vars ▸ h.fits, hframed.vars ▸ h.standard⟩, hframed, ?_,
      ?_⟩ <;> rw [hfrontier]
    · exact h.consistent.insert _
    · rw [(Frontier.sameLimits_insert _ _).adjustedThreshold]
      exact h.lenient
    · rw [hframed.requeued, Multiset.add_zero]
      have hnames := h.names
      rw [Multiset.add_zero] at hnames
      -- the name of the child lies between those taken so far and the later ones
      exact (hnames.fresh hfirst hlast).of_le
        (h.consistent.nodes_insert_le ⟨r.node, score, .unsplit⟩)
    · exact Frontier.nextId_insert _ _
    · exact fun m hm => h.consistent.mem_nodes_insert _ hm
  · refine ⟨h.of_eq hunknown hfrontier hframed.vars hframed.requeued |>.later (by omega), hframed,
      ?_, ?_⟩ <;> rw [hfrontier]
    exact fun m hm => hm

/-- A child that shelters a feasible point is kept, and shelters the point as it was reported. -/
theorem shelters_keep {first : Nat} (h : run.search.Tended p 0 first)
    (hkeep : (keep r : Work σ (Extended K) Unit).exec run = (.ok (), after))
    (hid : r.node.id < run.search.brancher.frontier.nextId)
    (hr : run.search.Recorded solvers n r) (hsound : solvers.Sound p) (hx : x ∈ p.points)
    (hfinite : p.value x < Scalar.infinity) (hn : n.Shelters p vars x) :
    ∃ m ∈ after.search.brancher.frontier.nodes, m.Shelters p vars x := by
  obtain ⟨hstage, -, hreported, -⟩ := hr.shelters hsound h.unknown hx hfinite hn
  obtain ⟨-, ⟨-, score, hfrontier⟩ | ⟨hother, -⟩⟩ := keep_offers hkeep hid
  · rw [hfrontier]
    exact ⟨r.node, h.consistent.mem_insert_of_lenient h.lenient (n := ⟨r.node, score, .unsplit⟩)
      (Scalar.lt_of_le_of_lt hreported.score hfinite), hreported⟩
  · exact absurd hstage hother

/-- Keeping both parts of a node takes in their nodes under the names that they were given, closes
no other one, and shelters what one of the parts did. -/
theorem tended_keepPair {first k : Nat} {q : Report (Extended K) × Report (Extended K)}
    {mid : Run σ (Extended K)} {down up : Node (Extended K)} (h : run.search.Tended p 0 first)
    (hfirst : (keep q.1 : Work σ (Extended K) Unit).exec run = (.ok (), mid))
    (hsecond : (keep q.2 : Work σ (Extended K) Unit).exec mid = (.ok (), after))
    (hk : first ≤ k) (hnext : k + 2 ≤ run.search.brancher.frontier.nextId)
    (hdownId : q.1.node.id = k) (hupId : q.2.node.id = k + 1)
    (hdown : run.search.Recorded solvers down q.1) (hup : run.search.Recorded solvers up q.2)
    (hsound : solvers.Sound p) :
    after.search.Tended p 0 run.search.brancher.frontier.nextId
      ∧ after.search.brancher.frontier.nextId = run.search.brancher.frontier.nextId
      ∧ after.search.brancher.vars = run.search.brancher.vars
      ∧ (∀ m ∈ run.search.brancher.frontier.nodes, m ∈ after.search.brancher.frontier.nodes)
      ∧ ∀ x ∈ p.points, p.value x < Scalar.infinity →
        down.Shelters p vars x ∨ up.Shelters p vars x →
        ∃ m ∈ after.search.brancher.frontier.nodes, m.Shelters p vars x := by
  have hkept := falls_keep q.1 run h.consistent
  have hlater := keeps_keep q.1 run
  rw [hfirst] at hkept hlater
  obtain ⟨hmid, hframe, hnextMid, hopenMid⟩ :=
    tended_keep (k + 1) h hfirst (by omega) (by omega) (by omega)
  obtain ⟨hlast, hframeLast, hnextLast, hopenLast⟩ :=
    tended_keep run.search.brancher.frontier.nextId hmid hsecond (by omega) (by omega) (by omega)
  refine ⟨hlast, hnextLast.trans hnextMid, hframeLast.vars.trans hframe.vars,
    fun m hm => hopenLast m (hopenMid m hm), fun x hx hfinite hchild => ?_⟩
  -- what the first child shelters stays sheltered when the second one is kept
  rcases hchild with hchild | hchild
  · obtain ⟨m, hm, hshelters⟩ :=
      shelters_keep h hfirst (by omega) hdown hsound hx hfinite hchild
    exact ⟨m, hopenLast m hm, hshelters⟩
  · exact shelters_keep hmid hsecond (by omega) (hup.later hlater.2 hkept.incumbent) hsound hx
      hfinite hchild

variable [IsStrictOrderedRing K]

/-- Strong branching of the node that is out: unless the node is dropped, the children that are kept
shelter what it did. -/
theorem retains_strongBranch (h : run.search.Retains p {n}) (hsound : solvers.Sound p)
    (hfinite : ∀ x ∈ p.points, p.value x < Scalar.infinity)
    (hr : (run.search.record r).2.Recorded solvers n r)
    (hstrong : (strongBranch solvers r).exec run = (.ok stage, after))
    (hunknown : after.search.incumbent.value = Scalar.infinity)
    (hdropped : after.search.stats.dropped = 0)
    (hnext : run.search.brancher.frontier.nextId ≤ 2 * run.search.stats.processed + 1)
    (hids : 2 * after.search.stats.processed + 1 < wordRange) :
    after.search.Retains p 0
      ∧ after.search.brancher.frontier.nextId ≤ 2 * after.search.stats.processed + 1 := by
  have hdef : Scalar.isNaN run.search.incumbent.value = false := by rw [h.unknown]; rfl
  obtain ⟨nodes, b, reports, evaluated, -, hall, hevaluate, hkeep⟩ := strongBranch_ok hstrong
  have hrecord := h.record (r := r)
  have hcount := run.search.processed_record r
  have hid := (run.search.keeps_record h.consistent r).nextId
  have hkeeps := (run.search.keeps_record h.consistent r).consistent
  have hdefined : Scalar.isNaN (run.search.record r).2.incumbent.value = false :=
    Scalar.Ordered.isNaN_left_of_le
      (Search.incumbent_perform_le (.record r) (Scalar.Ordered.le_refl hdef))
  generalize (run.search.record r).2 = s at hr hall hevaluate hrecord hcount hid hdefined hkeeps
  have hopen := Search.consistent_perform hkeeps (.strongChildren r)
  rw [Search.perform, Search.strongChildren, hall] at hopen
  have hfalls := falls_evaluate solvers nodes { run with search := { s with brancher := b } } hopen
  rw [hevaluate] at hfalls
  have hreports := evaluate_recorded hevaluate hopen hdefined
  have hprocessed := processed_evaluate hevaluate
  dsimp only at hprocessed
  rcases keepBest_ok hkeep with ⟨-, hnone⟩ | ⟨q, hq, first, second, hfirst, hsecond, hbranched⟩
  · rw [hnone] at hdropped
    cases hdropped
  · have hkept := falls_keep q.1 evaluated hfalls.consistent
    have hlater := keeps_keep q.1 evaluated
    rw [hfirst] at hkept hlater
    have hlast := falls_keep q.2 first hkept.consistent
    have hlatest := (keeps_keep q.2 first).1
    rw [hsecond] at hlast hlatest
    rw [hbranched] at hunknown hids ⊢
    -- no point was known all the time
    have hE : evaluated.search.incumbent.value = Scalar.infinity :=
      Search.unknown_of_le
        (Scalar.Ordered.isNaN_left_of_le (hfalls.incumbent (Scalar.Ordered.le_refl hdefined)))
        hunknown fun hy => hlast.incumbent (hkept.incumbent hy)
    have hS := hrecord (Search.unknown_of_le hdefined hE hfalls.incumbent)
    -- the pair that is kept has ids of its own among those that were given out
    change 2 * second.search.stats.processed + 1 < wordRange at hids
    have hgrown : evaluated.search.stats.processed ≤ second.search.stats.processed :=
      hlater.1.trans hlatest
    obtain ⟨hgiven, ps, hps, htwins⟩ := Brancher.allChildren_twins hall (by omega)
    obtain ⟨pair, hpair, hdown, hup⟩ := (pairs_of_forall₂ (hps ▸ hreports)).2 q hq
    obtain ⟨-, htwin⟩ := htwins pair hpair
    have hchildren := htwin
    obtain ⟨i, v, k, -, -, hlow, hhigh, hdownId, hupId⟩ := hchildren
    have hfirstId : q.1.node.id = k := by
      rw [(hdown.partOf hsound hE).id, hdownId]
      rfl
    have hsecondId : q.2.node.id = k + 1 := by
      rw [(hup.partOf hsound hE).id, hupId]
      rfl
    have hold : s.Tended p 0 s.brancher.frontier.nextId :=
      ⟨hS.unknown, hS.consistent, hS.lenient,
        hS.names.of_le (Multiset.add_le_add_left (Multiset.zero_le _)), hS.fits, hS.standard⟩
    obtain ⟨htended, hnodes, hvars, hnextE⟩ := tended_evaluate hold hall hevaluate hE
    obtain ⟨hlast, hnextLast, hvarsLast, hopenLast, hkeeps⟩ :=
      tended_keepPair htended hfirst hsecond (k := k) (by omega) (by omega) hfirstId hsecondId hdown
        hup hsound
    refine ⟨⟨hnextLast ▸ hlast.of_eq hunknown rfl rfl rfl, fun x hx => ?_⟩, ?_⟩
    · show ∃ m ∈ second.search.brancher.frontier.nodes + 0,
        m.Shelters p second.search.brancher.vars x
      rw [hvarsLast.trans hvars, Multiset.add_zero]
      obtain ⟨m, hm, hshelters⟩ := hS.shelters x hx
      rcases Multiset.mem_add.mp hm with hm | hm
      · exact ⟨m, hopenLast m (hnodes ▸ hm), hshelters⟩
      · rw [Multiset.mem_singleton.mp hm] at hshelters
        have hwhole := hS.fits.integral x hx
        obtain ⟨-, -, hreported, -⟩ := hr.shelters hsound hS.unknown hx (hfinite x hx) hshelters
        obtain ⟨hrounded, hbounds⟩ := hreported.rounded hS.standard hwhole hreported.score
        exact hkeeps x hx (hfinite x hx) (htwin.shelters hrounded hS.standard hbounds hwhole)
    · show second.search.brancher.frontier.nextId ≤ 2 * second.search.stats.processed + 1
      omega

end Serial

end BranchBound
