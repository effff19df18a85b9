import BranchBound.Proofs.Search.Confining
import BranchBound.Proofs.Search.Exhaustion

/-! # Coarse searches come to an end

If a search splits nodes only where they are wider than their grains, then an open node can pay for
its own processing and for that of all nodes that come of it, according to the halvings that are
left of it. A node that is a single point is queued once more at most. So the nodes that are
processed and what the open ones can still pay for keep within the limit set by the halvings of the
domain, whether the search fails in the end or not.

* **`Node.budget`** — for how many nodes an open node pays.
* **`Brancher.budget_opened`** — a node pays for itself and for the nodes that come of branching it.
* **`Search.Budgeted`** — processed nodes and budgets keep within a limit.
* **`Serial.processed_search_le`** — a search without strong branching processes no more nodes than
  the limit. -/

namespace BranchBound

variable {σ K : Type} [Field K] [LinearOrder K] [FloorRing K] {vars : List (Variable (Extended K))}
  {grains : Variable (Extended K) → K}

/-! ## Budgets -/

namespace Node

/-- How many nodes an open node pays for: itself and those that may come of it. -/
def budget (vars : List (Variable (Extended K))) (grains : Variable (Extended K) → K)
    (requeued : List Nat) (n : Node (Extended K)) : ℕ :=
  if n.box.isPoint = true ∧ n.id ∈ requeued then 1
  else 3 * 2 ^ Brancher.depthLeft vars grains n.box - 1

variable {n : Node (Extended K)} {requeued noted : List Nat}

/-- A node pays for no more than its halvings. -/
theorem budget_le (n : Node (Extended K)) (vars : List (Variable (Extended K)))
    (grains : Variable (Extended K) → K) (requeued : List Nat) :
    n.budget vars grains requeued ≤ 3 * 2 ^ Brancher.depthLeft vars grains n.box - 1 := by
  have hpos := Nat.two_pow_pos (Brancher.depthLeft vars grains n.box)
  unfold budget
  split <;> omega

/-- A node pays for itself at least. -/
theorem budget_pos (n : Node (Extended K)) (vars : List (Variable (Extended K)))
    (grains : Variable (Extended K) → K) (requeued : List Nat) :
    0 < n.budget vars grains requeued := by
  have hpos := Nat.two_pow_pos (Brancher.depthLeft vars grains n.box)
  unfold budget
  split <;> omega

/-- A node pays for no more once further ids are noted. -/
theorem budget_anti (n : Node (Extended K)) (hnoted : requeued ⊆ noted) :
    n.budget vars grains noted ≤ n.budget vars grains requeued := by
  by_cases honce : n.box.isPoint = true ∧ n.id ∈ requeued
  · unfold budget
    rw [if_pos honce, if_pos ⟨honce.1, hnoted honce.2⟩]
  · have hbudget : n.budget vars grains requeued
        = 3 * 2 ^ Brancher.depthLeft vars grains n.box - 1 := if_neg honce
    rw [hbudget]
    exact n.budget_le vars grains noted

end Node

variable [IsStrictOrderedRing K]

/-- A box inside the domain that is a single point stays one when it shrinks, unless it is
empty. -/
theorem Box.Shrunk.isPoint_of_inside {a b : Box (Extended K)} (hab : a.Shrunk b)
    (hb : b.Inside vars) (hfull : a.isEmpty = false) (hpoint : b.isPoint = true) :
    a.isPoint = true := by
  obtain ⟨hlower, hupper⟩ := Box.hasDimension_iff.mp hb.dimension
  rw [Box.isPoint_iff (x := b.lower) rfl (hupper.trans hlower.symm), hlower] at hpoint
  rw [Box.isPoint_iff (x := b.lower) hab.lower_length
    (hab.upper_length.trans (hupper.trans hlower.symm)), hlower]
  intro i hi
  obtain ⟨hlow, hle, hhigh⟩ := hab.le_of_isEmpty hb.dimension (fun j hj => hb.isNaN hj) hfull hi
  exact ⟨hle, Scalar.Ordered.le_trans hhigh (Scalar.Ordered.le_trans (hpoint i hi).2 hlow)⟩

namespace Brancher

variable {start : Search (Extended K)} {b c : Brancher (Extended K)} {parent n : Node (Extended K)}
  {point : List (Extended K)} {objective : Extended K} {outcome : Branching}

/-- The parts of a tightened node are inside the domain, and fewer halvings are left of them. -/
theorem depthLeft_opened_lt {i k l : Nat} {m : Node (Extended K)} (h : start.Coarse grains)
    (hvars : b.vars = start.brancher.vars) (hrule : b.rule = start.brancher.rule)
    (hn : n.box.Inside start.brancher.vars) (hparent : parent.Tightened n)
    (hfull : parent.box.isEmpty = false)
    (hjustified : b.Justified parent point start.settings.sizeTolerance (.split i k l))
    (hm : m ∈ b.opened parent objective (.split i k l)) :
    m.box.Inside start.brancher.vars
      ∧ depthLeft start.brancher.vars grains m.box
        < depthLeft start.brancher.vars grains n.box := by
  have hnonneg := fun v hv => (h.pos v hv).le
  have hinside := hn.shrunk hparent.box hfull
  have hsplit := splitFrom_opened hjustified hm
  obtain ⟨hrounded, hwide, hchoose⟩ := hjustified
  rw [hvars] at hsplit hrounded hwide hchoose
  have hhalf := hsplit.isHalf hinside h.standard
  obtain ⟨v, hv, -⟩ := hsplit.part
  refine ⟨hhalf.inside, ?_⟩
  -- the tightened box has no more halvings left, and a half of it fewer
  calc depthLeft start.brancher.vars grains m.box
      < depthLeft start.brancher.vars grains parent.box :=
        hhalf.depthLeft_lt hnonneg h.standard hv (h.pos v (List.mem_of_getElem? hv))
          (h.wide hinside ⟨hrounded, b, hvars, hrule, hwide, hchoose⟩ hv)
    _ ≤ depthLeft start.brancher.vars grains n.box :=
        depthLeft_le_of_shrunk hnonneg h.standard hn hparent.box hfull

omit [IsStrictOrderedRing K] in
/-- Two parts need less between them than a node that has more halvings left than each of them. -/
theorem sum_budget_split {i k l depth : Nat} {vars : List (Variable (Extended K))}
    {requeued : List Nat}
    (hless : ∀ m ∈ b.opened parent objective (.split i k l), depthLeft vars grains m.box < depth) :
    1 + ((b.opened parent objective (.split i k l)).map
      (Node.budget vars grains requeued)).sum ≤ 3 * 2 ^ depth - 1 := by
  have hpos := Nat.two_pow_pos depth
  have hpay : ∀ m ∈ b.opened parent objective (.split i k l),
      m.budget vars grains requeued + 1 ≤ 3 * 2 ^ (depth - 1) := by
    intro m hm
    have hle := m.budget_le vars grains requeued
    have hmono := Nat.pow_le_pow_right Nat.zero_lt_two (Nat.le_sub_one_of_lt (hless m hm))
    have hone := Nat.two_pow_pos (depthLeft vars grains m.box)
    omega
  rw [opened] at hpay hless ⊢
  cases hv : b.vars[i]? with
  | none =>
    show 1 + 0 ≤ _
    omega
  | some v =>
    rw [hv] at hpay hless
    dsimp only [Option.elim_some] at hpay hless ⊢
    have hdown := hpay _ (Multiset.mem_cons_self _ _)
    have hup := hpay _ (Multiset.mem_cons_of_mem (Multiset.mem_singleton_self _))
    have hleft := hless _ (Multiset.mem_cons_self _ _)
    have hdouble : 2 ^ depth = 2 * 2 ^ (depth - 1) := by
      rw [← Nat.pow_succ', Nat.succ_eq_add_one, Nat.sub_add_cancel (by omega)]
    rw [Multiset.insert_eq_cons, Multiset.map_cons, Multiset.map_singleton, Multiset.sum_cons,
      Multiset.sum_singleton]
    -- each part is one short of its share, so one is left for the node itself
    omega

/-- The nodes that come of branching a node are inside the domain, and the node pays for them and
for itself. -/
theorem budget_opened (h : start.Coarse grains) (hvars : b.vars = start.brancher.vars)
    (hrule : b.rule = start.brancher.rule) (hn : n.box.Inside start.brancher.vars)
    (hparent : parent.Tightened n) (hfull : parent.box.isEmpty = false) {requeued : List Nat}
    (honce : ¬ (parent.box.isPoint = true ∧ parent.id ∈ requeued))
    (hjustified : b.Justified parent point start.settings.sizeTolerance outcome) :
    (∀ m ∈ b.opened parent objective outcome, m.box.Inside start.brancher.vars)
      ∧ 1 + ((b.opened parent objective outcome).map
          (Node.budget start.brancher.vars grains (outcome.noted parent.id requeued))).sum
        ≤ n.budget start.brancher.vars grains requeued := by
  have hinside := hn.shrunk hparent.box hfull
  have hbudget : n.budget start.brancher.vars grains requeued
      = 3 * 2 ^ depthLeft start.brancher.vars grains n.box - 1 := by
    refine if_neg fun htwice => honce ?_
    exact ⟨hparent.box.isPoint_of_inside hn hfull htwice.1, hparent.id ▸ htwice.2⟩
  have hpos := Nat.two_pow_pos (depthLeft start.brancher.vars grains n.box)
  rw [hbudget]
  cases outcome with
  | dropped =>
    refine ⟨fun m hm => absurd hm (Multiset.notMem_zero m), ?_⟩
    show 1 + 0 ≤ _
    omega
  | requeued =>
    obtain ⟨hrounded, hpoint⟩ := hjustified
    rw [hvars] at hrounded hpoint
    refine ⟨fun m hm => ?_, ?_⟩
    · rw [Multiset.mem_singleton.mp hm, hvars]
      exact (inside_roundDiscrete hinside h.standard hrounded).1
    · -- the node is noted when it is queued again, which leaves it a budget of one
      show 1 + ({Node.budget start.brancher.vars grains (parent.id :: requeued) _} :
        Multiset ℕ).sum ≤ _
      rw [hvars, Multiset.sum_singleton, Node.budget, if_pos ⟨hpoint, List.mem_cons_self⟩]
      omega
  | split i k l =>
    have hparts := fun m (hm : m ∈ b.opened parent objective (.split i k l)) =>
      depthLeft_opened_lt h hvars hrule hn hparent hfull hjustified hm
    exact ⟨fun m hm => (hparts m hm).1, sum_budget_split fun m hm => (hparts m hm).2⟩

end Brancher

/-! ## Searches -/

namespace Search

/-- A search from a start whose processed nodes, and those that the open ones can pay for, keep
within a limit. -/
structure Budgeted (start : Search (Extended K)) (grains : Variable (Extended K) → K) (limit : ℕ)
    (s : Search (Extended K)) : Prop where
  /-- The state is one of the search. -/
  continues : start.Continues s
  /-- The open nodes are inside the domain. -/
  inside : ∀ n ∈ s.brancher.frontier.nodes, n.box.Inside start.brancher.vars
  /-- The processed nodes and the budgets keep within the limit. -/
  processed : s.stats.processed
    + (s.brancher.frontier.nodes.map (Node.budget start.brancher.vars grains s.requeued)).sum
      ≤ limit

variable {start s t : Search (Extended K)} {left limit : ℕ} {n : Node (Extended K)}
  {r : Report (Extended K)} {stage : Stage}

omit [IsStrictOrderedRing K] in
/-- Fewer nodes pay for less. -/
theorem sum_budget_le (vars : List (Variable (Extended K)))
    (grains : Variable (Extended K) → K) {fewer nodes : Multiset (Node (Extended K))}
    (h : fewer ≤ nodes) (requeued : List Nat) :
    (fewer.map (Node.budget vars grains requeued)).sum
      ≤ (nodes.map (Node.budget vars grains requeued)).sum := by
  obtain ⟨rest, rfl⟩ := Multiset.le_iff_exists_add.mp h
  rw [Multiset.map_add, Multiset.sum_add]
  exact Nat.le_add_right _ _

omit [IsStrictOrderedRing K] in
/-- Open nodes may be closed, and more nodes may be processed if the limit is raised for them. -/
theorem Budgeted.of_le (h : start.Budgeted grains left s) (ht : start.Continues t)
    (hnodes : t.brancher.frontier.nodes ≤ s.brancher.frontier.nodes)
    (hrequeued : t.requeued = s.requeued)
    (hprocessed : t.stats.processed + left ≤ s.stats.processed + limit) :
    start.Budgeted grains limit t := by
  have hsum := sum_budget_le start.brancher.vars grains hnodes s.requeued
  have hbefore := h.processed
  refine ⟨ht, fun n hn => h.inside n (Multiset.mem_of_le hnodes hn), ?_⟩
  rw [hrequeued]
  omega

/-- A search starts within the limit that is set by the halvings of its domain. -/
theorem Budgeted.new {given : List (Variable (Extended K))} {settings : Settings (Extended K)}
    (hstart : Search.new given settings = .ok start) :
    start.Budgeted grains (3 * 2 ^ start.depthLeft grains - 1) start := by
  obtain ⟨-, hprocessed, -, f, hf, hnodes, -, hfrontier⟩ := new_ok hstart
  have hroot : start.brancher.frontier.nodes ≤ {Node.root start.brancher.vars} := by
    have hle := hf.nodes_insert_le ⟨Node.root start.brancher.vars, 0, .unsplit⟩
    rwa [hnodes, ← hfrontier] at hle
  refine ⟨.new hstart, fun n hn => ?_, ?_⟩
  · rw [Multiset.mem_singleton.mp (Multiset.mem_of_le hroot hn)]
    exact Box.inside_root (standard_new hstart)
  · have hsum := sum_budget_le start.brancher.vars grains hroot start.requeued
    rw [Multiset.map_singleton, Multiset.sum_singleton] at hsum
    rw [hprocessed, Nat.zero_add]
    exact hsum.trans (Node.budget_le _ _ _ _)

omit [IsStrictOrderedRing K] in
/-- A node that is handed out takes what it can pay for out of the limit. -/
theorem Budgeted.next (h : start.Budgeted grains limit s) (hnext : s.next = (.ok n, t)) :
    n.box.Inside start.brancher.vars
      ∧ ∃ left, left + n.budget start.brancher.vars grains t.requeued = limit
        ∧ start.Budgeted grains left t := by
  have ht := h.continues.next hnext
  obtain ⟨m, f, hpop, rfl, rfl⟩ := Async.next_ok hnext
  have hnodes := h.continues.consistent.nodes_pop hpop
  have hprocessed := h.processed
  rw [hnodes, Multiset.map_cons, Multiset.sum_cons] at hprocessed
  refine ⟨h.inside _ (hnodes ▸ Multiset.mem_cons_self _ _),
    limit - m.node.budget start.brancher.vars grains s.requeued, ?_, ht, fun k hk => ?_, ?_⟩
  · show limit - m.node.budget _ _ s.requeued + m.node.budget _ _ s.requeued = limit
    omega
  · exact h.inside k (hnodes ▸ Multiset.mem_cons_of_mem hk)
  · show s.stats.processed + (f.nodes.map (Node.budget _ _ s.requeued)).sum ≤ _
    omega

omit [IsStrictOrderedRing K] in
/-- Recording a report counts a processed node. -/
theorem Budgeted.record (h : start.Budgeted grains left s) (r : Report (Extended K)) :
    start.Budgeted grains (left + 1) (s.record r).2 := by
  have hkeeps := s.keeps_record h.continues.consistent r
  refine h.of_le (h.continues.perform (.record r)) hkeeps.nodes_le hkeeps.requeued ?_
  rw [processed_record]
  omega

/-- Acting on the recorded report of a node pays with what the node can. -/
theorem Budgeted.settle (h : start.Budgeted grains (left + 1) s) (hcoarse : start.Coarse grains)
    (hn : n.box.Inside start.brancher.vars)
    (hr : r.stage = .postprocessed → r.node.Tightened n ∧ r.node.box.isEmpty = false)
    (hsettle : s.settle r = (.ok stage, t)) :
    start.Budgeted grains (left + n.budget start.brancher.vars grains s.requeued) t := by
  have ht := h.continues.perform (.settle r)
  rw [perform, hsettle] at ht
  have hpos := n.budget_pos start.brancher.vars grains s.requeued
  have hprocessed := processed_settle hsettle
  cases settlement hsettle with
  | fathomed =>
    have hkeeps := (Keeps.refl h.continues.consistent).countFathomed r
    exact h.of_le ht hkeeps.nodes_le hkeeps.requeued (by omega)
  | twice =>
    -- a single point that was evaluated twice opens nothing, and its own budget is left over
    exact h.of_le ht (le_refl _) rfl (by show s.stats.processed + _ ≤ _; omega)
  | @branched hopen honce outcome b hb =>
    obtain ⟨htight, hfull⟩ := hr hopen
    have hjustified := Brancher.branch_justified hb
    have hbranched := (Brancher.branch_cases hb).2
    rw [h.continues.alike.settings] at hjustified
    obtain ⟨hinside, hpay⟩ := Brancher.budget_opened hcoarse
      h.continues.alike.vars h.continues.alike.rule hn htight hfull honce hjustified
    have hnodes := hbranched.nodes_le h.continues.consistent
    obtain ⟨hbrancher, hrequeued⟩ := s.requeued_branched r b outcome
    refine ⟨ht, fun m hm => ?_, ?_⟩
    · rw [hbrancher] at hm
      rcases Multiset.mem_add.mp (Multiset.mem_of_le hnodes hm) with hm | hm
      · exact hinside m hm
      · exact h.inside m hm
    · have hsum := sum_budget_le start.brancher.vars grains hnodes
        (outcome.noted r.node.id s.requeued)
      rw [Multiset.map_add, Multiset.sum_add] at hsum
      -- ids that were noted lower the budgets of the nodes that were open before
      have hold : (s.brancher.frontier.nodes.map (Node.budget start.brancher.vars grains
            (outcome.noted r.node.id s.requeued))).sum
          ≤ (s.brancher.frontier.nodes.map
            (Node.budget start.brancher.vars grains s.requeued)).sum := by
        refine Multiset.sum_map_le_sum_map _ _ fun m _ => m.budget_anti ?_
        cases outcome with
        | requeued => exact List.subset_cons_self _ _
        | dropped | split => exact List.Subset.refl _
      have hbefore := h.processed
      rw [hprocessed, hbrancher, hrequeued]
      omega

end Search

/-! ## Rounds -/

namespace Serial

variable {solvers : Solvers σ (Extended K)} {start : Search (Extended K)}
  {run after : Run σ (Extended K)} {limit : ℕ}

/-- A round that does not end the search keeps the limit. -/
theorem budgeted_round (h : start.Budgeted grains limit run.search) (hcoarse : start.Coarse grains)
    (hstrong : start.settings.strongDepth = 0) (hs : solvers.Tighten Node.Shrunk)
    (hround : (round solvers).exec run = (.ok none, after)) :
    start.Budgeted grains limit after.search := by
  have hnow : start.Budgeted grains limit (now solvers run) :=
    h.of_le (h.continues.perform (.atTime _)) (le_refl _) rfl (le_refl _)
  obtain ⟨n, t, r, stage, hnext, hprocess, happly⟩ :=
    exec_round_ok (by rw [h.continues.alike.settings, hstrong]) hround
  obtain ⟨hn, left, hleft, ht⟩ := hnow.next hnext
  have hrequeued := (t.keeps_record ht.continues.consistent r).requeued
  obtain ⟨-, hsettle⟩ := Search.apply_ok happly
  have hafter := (ht.record r).settle hcoarse hn (Search.tightened_of_returns hs hprocess) hsettle
  rwa [hrequeued, hleft] at hafter

omit [IsStrictOrderedRing K] in
/-- No round processes more nodes than the limit, not even one that fails. -/
theorem processed_round_le (solvers : Solvers σ (Extended K))
    (h : start.Budgeted grains limit run.search)
    (hstrong : start.settings.strongDepth = 0) :
    ((round solvers).exec run).2.search.stats.processed ≤ limit := by
  have hnow : start.Budgeted grains limit (now solvers run) :=
    h.of_le (h.continues.perform (.atTime _)) (le_refl _) rfl (le_refl _)
  have hlimit := (Nat.le_add_right _ _).trans hnow.processed
  -- the node that is handed out has at least one node of the budget for itself
  have hout : ∀ {n t}, (now solvers run).next = (.ok n, t) → t.stats.processed + 1 ≤ limit := by
    intro n t hnext
    obtain ⟨-, left, hleft, ht⟩ := hnow.next hnext
    have hpos := n.budget_pos start.brancher.vars grains t.requeued
    have hprocessed := (Nat.le_add_right _ _).trans ht.processed
    omega
  have hdone : ∀ {n t r memory answer last}, (now solvers run).next = (.ok n, t) →
      (conclude solvers n.depth r).exec ⟨t, memory⟩ = (answer, last) →
      last.search.stats.processed ≤ limit := by
    intro n t r memory answer last hnext hconclude
    have hdepth : t.settings.strongDepth = 0 := by
      rw [(hnow.continues.next hnext).alike.settings, hstrong]
    rw [exec_conclude (hdepth.trans_le (Nat.zero_le _))] at hconclude
    rw [← (Prod.mk.inj hconclude).2]
    show (t.apply r).2.stats.processed ≤ limit
    rw [Search.processed_apply_eq]
    exact hout hnext
  have hrounded := exec_round solvers run
  generalize ((round solvers).exec run).1 = answer at hrounded
  generalize ((round solvers).exec run).2 = last at hrounded ⊢
  cases hrounded with
  | ended => exact hlimit
  | empty _ hnext =>
    obtain ⟨-, rfl⟩ := Prod.mk.inj hnext
    exact hlimit
  | unprocessed hnext => exact Nat.le_of_succ_le (hout hnext)
  | failed hnext hconclude => exact hdone hnext hconclude
  | next hnext hprocess hconclude => exact hdone hnext hconclude

/-- A search without strong branching that splits nodes only where they are wider than their grains
ends after so many nodes, whatever its solvers answer and whether it fails or not, if they do
nothing but shrink boxes when they tighten a node. -/
theorem processed_search_le {given : List (Variable (Extended K))}
    {settings : Settings (Extended K)} (hstart : Search.new given settings = .ok start)
    (hcoarse : start.Coarse grains) (hstrong : settings.strongDepth = 0)
    (hs : solvers.Tighten Node.Shrunk) (memory : σ) :
    (search solvers ⟨start, memory⟩).2.search.stats.processed
      ≤ 3 * 2 ^ start.depthLeft grains - 1 := by
  have hdepth : start.settings.strongDepth = 0 := by
    rw [(Search.new_frame hstart).2.2, hstrong]
  obtain ⟨last, after, hrounds, hends⟩ := exists_last_round solvers ⟨start, memory⟩
  have hlast : start.Budgeted grains (3 * 2 ^ start.depthLeft grains - 1) last.search := by
    clear hends
    induction hrounds with
    | refl => exact .new hstart
    | tail _ hround ih => exact budgeted_round ih hcoarse hdepth hs hround
  have hle := processed_round_le solvers hlast hdepth
  rcases hends with ⟨_, hround, hsearch⟩ | ⟨_, hround, hsearch⟩ <;> rw [hsearch] <;>
    rwa [hround] at hle

end Serial

end BranchBound
