import BranchBound.Proofs.Node.Answering
import BranchBound.Proofs.Search.Coverage
import BranchBound.Proofs.Search.Start
import Mathlib.Data.Rat.Floor
import Mathlib.Logic.Relation

/-! # Asynchronous searches

Any number of nodes may be out at once, their reports may come in in any order, and each may have
been processed against an incumbent that is no longer the best one. Under exact arithmetic and with
sound solvers, the bound of the search is a bound on every feasible point all the same.

* **`Async`**, **`Async.Step`** — a search together with the nodes that are out, and what can happen
  to it.
* **`Async.Sound`** — the invariant: every feasible point is accounted for by the search or held by
  a node that is out.
* **`Async.bound_le_value`** — the bound of every run is sound. -/

namespace BranchBound

variable {σ α : Type} [Scalar α] {p : Problem α} {solvers : Solvers σ α}

/-- A search together with the nodes that are out, as they were handed out. -/
structure Async (α : Type) where
  /-- The search. -/
  search : Search α
  /-- The nodes that are out. -/
  out : List (Node α)

namespace Async

/-- The lowest score of the nodes that are out. -/
def outLowest (s : Async α) : Option α :=
  match s.out with
  | [] => none
  | n :: rest => some (rest.foldl (fun low n => Scalar.least low n.score) n.score)

/-- What can happen to a search whose nodes are processed elsewhere. -/
inductive Step (solvers : Solvers σ α) : Async α → Async α → Prop
  /-- A node is handed out. -/
  | next {s : Async α} {n : Node α} {t : Search α} (h : s.search.next = (.ok n, t)) :
      Step solvers s ⟨t, n :: s.out⟩
  /-- A node that was out was processed, against an incumbent that was no better than the present
  one, and the report is taken in. -/
  | report {s : Async α} {before after : List (Node α)} {n : Node α} {cutoff : Cutoff α}
      {r : Report α} {memory left : σ} {stage : Stage} {t : Search α}
      (hout : s.out = before ++ n :: after)
      (hprocess : (processNode solvers n cutoff).Returns memory r left)
      (hstale : s.search.incumbent.value ≤ cutoff.incumbent)
      (happly : s.search.apply r = (.ok stage, t)) : Step solvers s ⟨t, before ++ after⟩
  /-- A node that was out is cancelled and put back as it was handed out. -/
  | requeue {s : Async α} {before after : List (Node α)} {n : Node α} {b : Brancher α}
      {answer : Except (Error α) Bool} {t : Search α} (hout : s.out = before ++ n :: after)
      (hcancel : s.search.brancher.cancel n.id = (.ok (), b))
      (hinsert : ({ s.search with brancher := b } : Search α).insertEvaluated n = (answer, t)) :
      Step solvers s ⟨t, before ++ after⟩

/-- The steps of a search, one after the other. -/
abbrev Run (solvers : Solvers σ α) : Async α → Async α → Prop :=
  Relation.ReflTransGen (Step solvers)

/-- The nodes have names of their own, and every feasible point is accounted for by the search or
held by a node that is out. -/
structure Lossless (p : Problem α) (s : Async α) : Prop where
  /-- The frontier is consistent. -/
  consistent : s.search.brancher.frontier.Consistent
  /-- The nodes have names of their own. -/
  names : Names (s.search.brancher.frontier.nodes + (↑s.out : Multiset (Node α)))
    s.search.requeued s.search.brancher.frontier.nextId
  /-- Each node that was processed has taken two ids at most. -/
  nextId_le : s.search.brancher.frontier.nextId ≤ 2 * s.search.stats.processed + 1
  /-- The feasible points are points of the domain. -/
  fits : p.Fits s.search.brancher.vars
  /-- No feasible point is lost. -/
  covers : ∀ x ∈ p.points, s.search.Covers p x ∨ ∃ n ∈ s.out, n.Guards p x

/-! ## The steps -/

variable {s t : Async α} {n : Node α} {search : Search α} {before after : List (Node α)}

/-- The node that a search hands out is taken out of the frontier. -/
theorem next_ok {u : Search α} (h : search.next = (.ok n, u)) :
    ∃ m f, search.brancher.frontier.pop? = some (m, f) ∧ m.node = n
      ∧ u = { search with brancher := { search.brancher with
          frontier := f
          waiting := search.brancher.waiting.insert m.id ⟨m.score, m.history⟩ } } := by
  unfold Search.next at h
  rcases search.brancher.next_cases with ⟨-, hnext⟩ | ⟨m, f, hpop, hnext⟩ <;> rw [hnext] at h <;>
    cases h
  exact ⟨m, f, hpop, rfl, rfl⟩

/-- A node is handed out if one is open. -/
theorem exists_next (h : search.brancher.frontier.Consistent)
    (hopen : search.brancher.frontier.isEmpty = false) : ∃ n u, search.next = (.ok n, u) := by
  unfold Search.next Brancher.next
  cases hpop : search.brancher.frontier.pop? with
  | none =>
    rw [h.isEmpty_iff.mpr (h.pop?_eq_none.mp hpop)] at hopen
    cases hopen
  | some popped => exact ⟨popped.1.node, _, rfl⟩

/-- Handing out a node loses no point. -/
theorem Lossless.next [Scalar.Ordered α] (h : s.Lossless p)
    (hnext : s.search.next = (.ok n, search)) :
    Lossless p ⟨search, n :: s.out⟩ := by
  obtain ⟨m, f, hpop, rfl, rfl⟩ := next_ok hnext
  obtain ⟨slot, -, -, rfl⟩ := Frontier.pop?_eq_some hpop
  refine ⟨h.consistent.pop hpop, ?_, h.nextId_le, h.fits, fun x hx => ?_⟩
  · have hnames := h.names
    rw [h.consistent.nodes_pop hpop, Multiset.cons_add, ← Multiset.add_cons] at hnames
    exact hnames
  · rcases h.covers x hx with hcovers | ⟨k, hk, hguards⟩
    · cases hcovers with
      | beaten h => exact .inl (.beaten h)
      | discarded h => exact .inl (.discarded h)
      | held hheld =>
        -- the node that leaves takes the points it holds along
        rcases hheld.pop h.consistent hpop with hguards | hheld
        · exact .inr ⟨m.node, List.mem_cons_self, hguards⟩
        · exact .inl (.held hheld)
    · exact .inr ⟨k, List.mem_cons_of_mem _ hk, hguards⟩

/-- The names of the nodes, with one that is out put in front. -/
theorem Lossless.names_cons (h : s.Lossless p) (hout : s.out = before ++ n :: after) :
    Names (n ::ₘ (s.search.brancher.frontier.nodes + ↑(before ++ after))) s.search.requeued
      s.search.brancher.frontier.nextId := by
  have hnames := h.names
  have hperm : (↑s.out : Multiset (Node α)) = n ::ₘ ↑(before ++ after) := by
    rw [hout, Multiset.cons_coe, Multiset.coe_eq_coe]
    exact List.perm_middle
  rw [hperm, Multiset.add_cons] at hnames
  exact hnames

/-- A point that the search does not account for is held by a given node that is out or by one of
the others. -/
theorem Lossless.covers_out (h : s.Lossless p) (hout : s.out = before ++ n :: after) {x : List α}
    (hx : x ∈ p.points) :
    s.search.Covers p x ∨ n.Guards p x ∨ ∃ m ∈ before ++ after, m.Guards p x := by
  rcases h.covers x hx with hcovers | ⟨m, hm, hguards⟩
  · exact .inl hcovers
  · rw [hout, List.perm_middle.mem_iff, List.mem_cons] at hm
    rcases hm with rfl | hm
    · exact .inr (.inl hguards)
    · exact .inr (.inr ⟨m, hm, hguards⟩)

/-- A node that is cancelled and put back is offered to the frontier, unless it does not fit the
variables. -/
theorem requeue_cases {u : Search α} {b : Brancher α} {answer : Except (Error α) Bool}
    (hcancel : search.brancher.cancel n.id = (.ok (), b))
    (hinsert : ({ search with brancher := b } : Search α).insertEvaluated n = (answer, u)) :
    ∃ c, u = { search with brancher := c } ∧ c.vars = search.brancher.vars
      ∧ ((∃ e, search.brancher.dimensionFault? n = some e
          ∧ c.frontier = search.brancher.frontier)
        ∨ ∃ score, c.frontier
            = ((search.brancher.frontier.reserveIds n.id).insert ⟨n, score, .unsplit⟩).2) := by
  have hu : u = { search with brancher := (b.insertNode n).2 } := by
    cases hinsert
    rfl
  rcases hinserted : b.insertNode n with ⟨taken, c⟩
  rw [hinserted] at hu
  -- cancelling the node concerns only what is waited for
  obtain ⟨_, hafter⟩ := search.brancher.exists_waiting_cancel n.id
  rw [hcancel] at hafter
  subst hafter
  refine ⟨c, hu, ?_⟩
  rcases Brancher.insertScored_cases hinserted with ⟨e, hfault, -, rfl⟩ | ⟨-, rfl⟩
  · exact ⟨rfl, .inl ⟨e, hfault, rfl⟩⟩
  · exact ⟨rfl, .inr ⟨_, rfl⟩⟩

/-- Putting back a node that was out loses no point. -/
theorem Lossless.requeue [Scalar.Ordered α] (h : s.Lossless p)
    (hout : s.out = before ++ n :: after) {b : Brancher α} {answer : Except (Error α) Bool}
    (hcancel : s.search.brancher.cancel n.id = (.ok (), b))
    (hinsert : ({ s.search with brancher := b } : Search α).insertEvaluated n = (answer, search)) :
    Lossless p ⟨search, before ++ after⟩ := by
  obtain ⟨c, rfl, hvars, hcases⟩ := requeue_cases hcancel hinsert
  have hnames := h.names_cons hout
  have hfits : p.Fits c.vars := hvars ▸ h.fits
  rcases hcases with ⟨e, hfault, hfrontier⟩ | ⟨score, hfrontier⟩
  · refine ⟨hfrontier ▸ h.consistent, ?_, hfrontier ▸ h.nextId_le, hfits, fun x hx => ?_⟩
    · show Names (c.frontier.nodes + _) _ c.frontier.nextId
      rw [hfrontier]
      exact hnames.of_le (Multiset.le_cons_self _ _)
    · rcases h.covers_out hout hx with hcovers | hguards | hothers
      · exact .inl (hcovers.of_eq rfl rfl hfrontier)
      · -- a node that holds a point has bounds for all variables
        rw [Brancher.dimensionFault_eq_none] at hfault
        · cases hfault
        · exact hguards.box.lower_length.trans (h.fits.length x hx)
        · exact hguards.box.upper_length.trans (h.fits.length x hx)
      · exact .inr hothers
  · rw [Frontier.reserveIds_of_lt (hnames.below n (Multiset.mem_cons_self n _))] at hfrontier
    refine ⟨?_, ?_, ?_, hfits, fun x hx => ?_⟩
    · exact hfrontier ▸ h.consistent.insert _
    · show Names (c.frontier.nodes + _) _ c.frontier.nextId
      rw [hfrontier, Frontier.nextId_insert]
      refine hnames.of_le ?_
      rw [← Multiset.cons_add]
      exact Multiset.add_le_add_right (h.consistent.nodes_insert_le _)
    · show c.frontier.nextId ≤ _
      rw [hfrontier, Frontier.nextId_insert]
      exact h.nextId_le
    · rcases h.covers_out hout hx with hcovers | hguards | hothers
      · cases hcovers with
        | beaten h => exact .inl (.beaten h)
        | discarded h => exact .inl (.discarded h)
        | held hheld => exact .inl (.held (hfrontier ▸ hheld.insert h.consistent _))
      · exact .inl (.held (hfrontier ▸ Frontier.holds_insert h.consistent hguards))
      · exact .inr hothers

/-! ## Replaying a run -/

/-- What is to happen next to a search. -/
inductive Move (α : Type)
  /-- A node is handed out. -/
  | next
  /-- The node that is out at a place is processed against a cutoff and its report taken in. -/
  | report (place : Nat) (cutoff : Cutoff α)
  /-- The node that is out at a place is cancelled and put back. -/
  | requeue (place : Nat)

/-- Does what is to happen next, if it can; the solvers are in a state that they do not leave. -/
def move (solvers : Solvers σ α) (memory : σ) (s : Async α) : Move α → Option (Async α)
  | .next =>
      match s.search.next with
      | (.ok n, t) => some ⟨t, n :: s.out⟩
      | _ => none
  | .report place cutoff =>
      match s.out.splitAt place with
      | (before, n :: after) =>
          match Id.run (StateT.run (ExceptT.run (processNode solvers n cutoff)) memory) with
          | (.ok r, _) =>
              match s.search.apply r with
              | (.ok _, t) =>
                  if s.search.incumbent.value ≤ cutoff.incumbent then some ⟨t, before ++ after⟩
                  else none
              | _ => none
          | _ => none
      | _ => none
  | .requeue place =>
      match s.out.splitAt place with
      | (before, n :: after) =>
          match s.search.brancher.cancel n.id with
          | (.ok (), b) =>
              some ⟨(({ s.search with brancher := b } : Search α).insertEvaluated n).2,
                before ++ after⟩
          | _ => none
      | _ => none

omit [Scalar α] in
/-- A list that is cut at a place is the two parts. -/
theorem eq_append_of_splitAt {xs : List (Node α)} {place : Nat} {n : Node α}
    (h : xs.splitAt place = (before, n :: after)) : xs = before ++ n :: after := by
  rw [List.splitAt_eq, Prod.mk.injEq] at h
  rw [← h.1, ← h.2, List.take_append_drop]

/-- What was done is a step. -/
theorem step_of_move {memory : σ} {m : Move α} (h : move solvers memory s m = some t) :
    Step solvers s t := by
  cases m with
  | next =>
    simp only [move] at h
    split at h
    · next hnext =>
      cases h
      exact .next hnext
    · cases h
  | report place cutoff =>
    simp only [move] at h
    split at h
    · next hout =>
      split at h
      · next hprocess =>
        split at h
        · next happly =>
          split at h
          · next hstale =>
            cases h
            exact .report (eq_append_of_splitAt hout) hprocess hstale happly
          · cases h
        · cases h
      · cases h
    · cases h
  | requeue place =>
    simp only [move] at h
    split at h
    · next hout =>
      split at h
      · next hcancel =>
        cases h
        exact .requeue (eq_append_of_splitAt hout) hcancel rfl
      · cases h
    · cases h

/-- What was done, one move after the other, is a run. -/
theorem run_of_moves {memory : σ} {moves : List (Move α)}
    (h : moves.foldlM (move solvers memory) s = some t) : Run solvers s t := by
  induction moves generalizing s with
  | nil =>
    cases h
    exact .refl
  | cons m rest ih =>
    rw [List.foldlM_cons] at h
    obtain ⟨u, hm, hrest⟩ := Option.bind_eq_some_iff.mp h
    exact .head (step_of_move hm) (ih hrest)

section Exact

variable [Scalar.Exact α]

/-- Taking in a report loses no point. -/
theorem Lossless.report (h : s.Lossless p) (hsound : solvers.Sound p)
    (hout : s.out = before ++ n :: after) {cutoff : Cutoff α} {r : Report α} {memory left : σ}
    {stage : Stage} (hprocess : (processNode solvers n cutoff).Returns memory r left)
    (hstale : s.search.incumbent.value ≤ cutoff.incumbent)
    (happly : s.search.apply r = (.ok stage, search))
    (hids : 2 * search.stats.processed + 1 < wordRange) :
    Lossless p ⟨search, before ++ after⟩ := by
  obtain ⟨hpart, haccounts⟩ :=
    processNode_spec hsound (Scalar.Ordered.isNaN_right_of_le hstale) hprocess
  have hprocessed := Search.processed_apply happly
  have hnext := h.nextId_le
  have hreplaces :=
    Search.replaces_apply happly h.consistent (h.names_cons hout) hpart.id (by omega)
  refine ⟨hreplaces.consistent, hreplaces.names, ?_, ?_, fun x hx => ?_⟩
  · have hle := hreplaces.nextId_le
    show search.brancher.frontier.nextId ≤ 2 * search.stats.processed + 1
    omega
  · show p.Fits search.brancher.vars
    rw [hreplaces.vars]
    exact h.fits
  · -- the report accounts for the points of its own node; the others are accounted for as before
    rcases h.covers_out hout hx with hcovers | hguards | hothers
    · exact .inl (hcovers.apply h.consistent happly)
    · refine .inl (Search.covers_apply h.consistent happly hstale
        (haccounts x hx hguards.box hguards.score) (h.fits.integral x hx) ?_)
      rw [hpart.id]
      exact (h.names_cons hout).isPoint n (Multiset.mem_cons_self n _)
    · exact .inr hothers

/-- A step keeps what is needed to lose no point, as long as the ids do not run out. -/
theorem Lossless.step (h : s.Lossless p) (hsound : solvers.Sound p) (hstep : Step solvers s t)
    (hids : 2 * t.search.stats.processed + 1 < wordRange) : t.Lossless p := by
  cases hstep with
  | next hnext => exact h.next hnext
  | report hout hprocess hstale happly => exact h.report hsound hout hprocess hstale happly hids
  | requeue hout hcancel hinsert => exact h.requeue hout hcancel hinsert

omit [Scalar.Exact α] in
/-- No step lowers the number of nodes that were processed. -/
theorem processed_le_of_step (h : Step solvers s t) :
    s.search.stats.processed ≤ t.search.stats.processed := by
  cases h with
  | next hnext =>
    obtain ⟨_, _, -, -, rfl⟩ := next_ok hnext
    exact Nat.le_refl _
  | report _ _ _ happly => exact Search.processed_apply happly ▸ Nat.le_succ _
  | requeue _ hcancel hinsert =>
    obtain ⟨_, rfl, -⟩ := requeue_cases hcancel hinsert
    exact Nat.le_refl _

/-- No run loses a point, as long as the ids do not run out. -/
theorem Lossless.run (h : s.Lossless p) (hsound : solvers.Sound p) (hrun : Run solvers s t)
    (hids : 2 * t.search.stats.processed + 1 < wordRange) : t.Lossless p := by
  induction hrun with
  | refl => exact h
  | tail _ hstep ih =>
    have hle := processed_le_of_step hstep
    exact (ih (by omega)).step hsound hstep hids

/-- No point is lost at the start. -/
theorem lossless_start {vars : List (Variable α)} {settings : Settings α} {start : Search α}
    (hstart : Search.new vars settings = .ok start) (hfits : p.Fits start.brancher.vars) :
    Lossless p ⟨start, []⟩ := by
  obtain ⟨hvars, hprocessed, hrequeued, f, hf, hnodes, hnext, hfrontier⟩ := Search.new_ok hstart
  refine ⟨?_, ?_, ?_, hfits, fun x hx => .inl (.held ?_)⟩
  · exact hfrontier ▸ hf.insert _
  · show Names (start.brancher.frontier.nodes + 0) start.requeued start.brancher.frontier.nextId
    have hle := hf.nodes_insert_le ⟨Node.root start.brancher.vars, 0, .unsplit⟩
    rw [← hfrontier, hnodes] at hle
    -- the root is the first name
    have hnone : Names (0 : Multiset (Node α)) [] 0 :=
      { nodup := Multiset.nodup_zero
        below := fun _ hn => absurd hn (Multiset.notMem_zero _)
        requeued_below := fun _ hid => absurd hid List.not_mem_nil
        isPoint := fun _ hn => absurd hn (Multiset.notMem_zero _) }
    rw [hrequeued, Multiset.add_zero, hfrontier, Frontier.nextId_insert, hnext, ← hfrontier]
    exact (hnone.child (n := Node.root start.brancher.vars) rfl).of_le hle
  · show start.brancher.frontier.nextId ≤ 2 * start.stats.processed + 1
    rw [hfrontier, Frontier.nextId_insert, hnext]
    omega
  · rw [hfrontier]
    refine Frontier.holds_insert hf ⟨hfits.contains_root (fun v hv => ?_) hx, ?_⟩
    · obtain ⟨u, -, hu⟩ := hvars v hv
      exact Variable.isFinite_of_validated hu
    · exact Scalar.Ordered.neg_infinity_le (p.defined x hx)

/-! ## The bound -/

omit [Scalar.Exact α] in
/-- The lowest score of the nodes that are out is at most what one of them is at most. -/
theorem outLowest_le [Scalar.Ordered α] {y : α} (h : ∃ n ∈ s.out, n.score ≤ y) :
    ∃ score, s.outLowest = some score ∧ score ≤ y := by
  obtain ⟨n, hn, hle⟩ := h
  unfold outLowest
  split
  · next hnone =>
    rw [hnone] at hn
    cases hn
  · next m rest hout =>
    rw [hout] at hn
    refine ⟨_, rfl, Scalar.foldl_least_le ?_⟩
    rcases List.mem_cons.mp hn with rfl | hn
    · exact .inl hle
    · exact .inr ⟨n, hn, hle⟩

/-- The bound of a search, with the nodes that are out taken into account, or its incumbent is a
bound on every feasible point, whatever the order of the steps and however old the incumbents that
nodes are processed against. If no node is out, the bound of the outcome is one. The ids of the
nodes must not run out, as they do not before half as many nodes are processed as there are
words. -/
theorem bound_le_value {vars : List (Variable α)} {settings : Settings α} {start : Search α}
    (hstart : Search.new vars settings = .ok start) (hfits : p.Fits start.brancher.vars)
    (hsound : solvers.Sound p) (hrun : Run solvers ⟨start, []⟩ s)
    (hids : 2 * s.search.stats.processed + 1 < wordRange) :
    ∀ x ∈ p.points,
      Scalar.least (s.search.provenBound s.outLowest) s.search.incumbent.value ≤ p.value x
        ∧ (s.out = [] → ∀ status termination error,
            (s.search.solution status termination error).lowerBound ≤ p.value x) := by
  -- whatever is not resolved is in the tree or out, and the bound includes both
  have hlossless := (lossless_start hstart hfits).run hsound hrun hids
  intro x hx
  refine ⟨?_, fun hout status termination error => ?_⟩
  · rcases hlossless.covers x hx with hcovers | ⟨n, hn, hguards⟩
    · exact hcovers.bound_le _
    · refine Scalar.least_le_of_left (Search.provenBound_le_iff.mpr (.inl (.inl (.inr ?_))))
      exact outLowest_le ⟨n, hn, hguards.score⟩
  · rcases hlossless.covers x hx with hcovers | ⟨n, hn, -⟩
    · exact hcovers.bound_le none
    · rw [hout] at hn
      cases hn

end Exact

/-- A whole number from zero to two. -/
def sampleVars : List (Variable (Extended ℚ)) := [⟨0, .point 2, .integer, 1, "x"⟩]

/-- A whole number from zero to two and a number from zero to one. -/
def mixedVars : List (Variable (Extended ℚ)) :=
  [⟨0, .point 2, .integer, 1, "x"⟩, ⟨0, 1, .continuous, 1, "y"⟩]

/-- The point one is the only feasible one. -/
def sampleProblem : Problem (Extended ℚ) where
  points := {[1]}
  value _ := 1
  defined _ _ := rfl

/-- Solvers that bound every node by minus one and always find the point. -/
def sampleSolvers : Solvers Unit (Extended ℚ) where
  lower _ _ := pure (.ofBound (-1) [])
  upper _ _ incumbent := pure (.ofPoint 1 [1] incumbent)

/-- The solvers are sound. -/
theorem sound_sampleSolvers : sampleSolvers.Sound sampleProblem where
  preprocess h := by
    obtain ⟨rfl, rfl⟩ := Prod.mk.inj (Call.returns_pure h)
    exact ⟨rfl, rfl, rfl, .refl _, fun _ _ hx _ => ⟨rfl, hx⟩⟩
  postprocess h := by
    obtain ⟨rfl, rfl⟩ := Prod.mk.inj (Call.returns_pure h)
    exact ⟨rfl, rfl, rfl, .refl _, fun _ _ hx _ => ⟨rfl, hx⟩⟩
  lower h x _ _ _ := by
    obtain rfl := Call.returns_pure h
    exact ⟨rfl, show (-1 : Extended ℚ) ≤ 1 by decide +kernel⟩
  lower_converged h _ hconverged := by
    obtain rfl := Call.returns_pure h
    cases hconverged
  upper_converged h hconverged := by
    obtain rfl := Call.returns_pure h
    cases hconverged
  upper_point h _ x _ _ hlt := by
    obtain rfl := Call.returns_pure h
    exact ⟨decide_eq_true hlt, rfl, show (1 : Extended ℚ) ≤ 1 by decide +kernel⟩

/-- The solvers answer every call. -/
theorem reliable_sampleSolvers : sampleSolvers.Reliable where
  preprocess n _ memory := ⟨(false, n), memory, rfl, rfl⟩
  lower _ _ memory := ⟨_, memory, rfl, trivial⟩
  upper _ _ _ memory := ⟨_, memory, rfl, trivial⟩
  postprocess n _ _ _ memory := ⟨(false, n), memory, rfl, rfl⟩

/-- Their bounds are defined. -/
theorem defined_sampleSolvers : sampleSolvers.Defined := by
  intro n v memory answer after h
  obtain rfl := Call.returns_pure h
  rfl

/-- The root goes out and comes back once before its report is taken in, and two nodes go out. -/
def sampleMoves : List (Move (Extended ℚ)) :=
  [.next, .requeue 0, .next, .report 0 ⟨Scalar.infinity, 0, 0⟩, .next, .next]

/-- The moves can be made. -/
theorem exists_sampleMoves : ∃ start ∈ (Search.new sampleVars .standard).toOption,
    start.brancher.vars.length = 1
      ∧ (∀ v ∈ start.brancher.vars, v.lower ≤ 1 ∧ 1 ≤ v.upper)
      ∧ ∃ s ∈ sampleMoves.foldlM (move sampleSolvers ()) ⟨start, []⟩,
        s.out.length = 2 ∧ 2 * s.search.stats.processed + 1 < wordRange := by
  decide +kernel

/-- The bound while two nodes are out is a bound on the point. -/
theorem bound_le_value_sampleMoves : ∃ start s, Search.new sampleVars .standard = .ok start
    ∧ Run sampleSolvers ⟨start, []⟩ s ∧ s.out.length = 2
    ∧ Scalar.least (s.search.provenBound s.outLowest) s.search.incumbent.value
      ≤ sampleProblem.value [1] := by
  obtain ⟨start, hnew, hlength, hvars, s, hmoves, hout, hids⟩ := exists_sampleMoves
  have hstart : Search.new sampleVars .standard = .ok start := by
    cases h : Search.new sampleVars .standard with
    | error e =>
      rw [h] at hnew
      cases hnew
    | ok u =>
      rw [h] at hnew
      exact congrArg Except.ok (Option.some.inj hnew)
  -- the only point is one, and so is the only coordinate
  have hfits : sampleProblem.Fits start.brancher.vars :=
    { length := fun x hx => by
        rw [Set.mem_singleton_iff.mp hx, hlength]
        rfl
      bounds := fun x hx i v hv => by
        have hi := (List.getElem?_eq_some_iff.mp hv).1
        rw [hlength, Nat.lt_one_iff] at hi
        rw [Set.mem_singleton_iff.mp hx, hi]
        exact hvars v (List.mem_of_getElem? hv)
      integral := fun x hx i v hv _ => by
        have hi := (List.getElem?_eq_some_iff.mp hv).1
        rw [hlength, Nat.lt_one_iff] at hi
        rw [Set.mem_singleton_iff.mp hx, hi]
        show Scalar.IsWhole (1 : Extended ℚ)
        unfold Scalar.IsWhole
        decide +kernel }
  have hrun := run_of_moves hmoves
  exact ⟨start, s, hstart, hrun, hout,
    (bound_le_value hstart hfits sound_sampleSolvers hrun hids [1] rfl).1⟩

end Async

end BranchBound
