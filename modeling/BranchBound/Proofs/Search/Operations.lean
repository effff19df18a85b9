import BranchBound.Proofs.Brancher.Children
import BranchBound.Proofs.Search.Coverage
import BranchBound.Proofs.Search.Start

/-! # The states of a search

The operations on a search as data, and the states they lead to from a search at its start, whatever
their order and whether they succeed or not. What every operation keeps holds in all these states.

* **`Search.Op`**, **`Search.perform`** — the operations, and what they make of a search.
* **`Search.Reachable`** — the states of a search.
* **`Reachable.consistent`** — the frontier is consistent in all of them. -/

namespace BranchBound

variable {α : Type} [Scalar α]

/-! ## Operations -/

/-- The operations on a search. -/
inductive Search.Op (α : Type)
  /-- The clock shows another time. -/
  | atTime (elapsed : Duration)
  /-- A node is handed out. -/
  | next
  /-- A point is offered. -/
  | offer (c : Candidate α)
  /-- A report is recorded. -/
  | record (r : Report α)
  /-- A recorded report is acted on. -/
  | settle (r : Report α)
  /-- A report is taken in. -/
  | apply (r : Report α)
  /-- A node that is out is cancelled. -/
  | cancel (id : Nat)
  /-- A node that was evaluated before is queued. -/
  | insertEvaluated (n : Node α)
  /-- The children of a reported node in every dimension are handed out. -/
  | strongChildren (r : Report α)
  /-- A fathomed node is counted. -/
  | countFathomed (r : Report α)
  /-- A split is counted. -/
  | countBranched
  /-- A dropped node is counted. -/
  | countDropped

/-- The state that an operation leaves, whether it succeeds or not. -/
def Search.perform (s : Search α) : Search.Op α → Search α
  | .atTime elapsed => s.atTime elapsed
  | .next => s.next.2
  | .offer c => (s.offer c).2
  | .record r => (s.record r).2
  | .settle r => (s.settle r).2
  | .apply r => (s.apply r).2
  | .cancel id => { s with brancher := (s.brancher.cancel id).2 }
  | .insertEvaluated n => (s.insertEvaluated n).2
  | .strongChildren r => (s.strongChildren r).2
  | .countFathomed r => s.countFathomed r
  | .countBranched => s.countBranched
  | .countDropped => s.countDropped

/-- The states that a search gets into. -/
inductive Search.Reachable : Search α → Prop
  /-- A search at its start. -/
  | new {vars : List (Variable α)} {settings : Settings α} {s : Search α}
      (h : Search.new vars settings = .ok s) : Reachable s
  /-- A search after one more operation. -/
  | perform {s : Search α} (h : Reachable s) (op : Search.Op α) : Reachable (s.perform op)

/-! ## What the operations change -/

namespace Brancher

variable {b : Brancher α} {n : Node α}

/-- Splitting a node in every dimension changes the next id and what is waited for. -/
theorem allChildren_frontier (b : Brancher α) (parent : Node α) (point : List α) :
    ∃ id, (b.allChildren parent point).2.frontier = { b.frontier with nextId := id }
      ∧ (b.allChildren parent point).2.vars = b.vars := by
  refine allChildren_frame (motive := fun c =>
    ∃ id, c.frontier = { b.frontier with nextId := id } ∧ c.vars = b.vars) parent point
    ⟨b.frontier.nextId, rfl, rfl⟩ ?_
  rintro d i v down up e - hsplit ⟨id, hfrontier, hvars⟩
  rw [handOut_split hsplit, hfrontier]
  exact ⟨_, rfl, hvars⟩

end Brancher

namespace Search

/-- Queuing a node offers it to the frontier under its selection score, or changes nothing. -/
theorem insertEvaluated_cases (s : Search α) (n : Node α) :
    (s.insertEvaluated n).2 = s ∨ (s.insertEvaluated n).2 = { s with
      brancher := { s.brancher with frontier :=
        ((s.brancher.frontier.reserveIds n.id).insert (s.brancher.toOpen n .unsplit)).2 } } := by
  show ({ s with brancher := (s.brancher.insertNode n).2 } : Search α) = s ∨
    ({ s with brancher := (s.brancher.insertNode n).2 } : Search α) = _
  rcases s.brancher.insertNode_cases n with hsame | hqueued
  · exact .inl (by rw [hsame])
  · exact .inr (by rw [hqueued])

/-- If that is no error, the node was offered. -/
theorem eq_of_insertEvaluated_ok {s t : Search α} {n : Node α} {taken : Bool}
    (h : s.insertEvaluated n = (.ok taken, t)) : t = { s with
      brancher := { s.brancher with frontier :=
        ((s.brancher.frontier.reserveIds n.id).insert (s.brancher.toOpen n .unsplit)).2 } } := by
  rcases hinsert : s.brancher.insertNode n with ⟨answer, b⟩
  rw [insertEvaluated, hinsert] at h
  cases h
  rw [Brancher.insertScored_ok hinsert]
  rfl

/-! ## Consistency -/

variable [Scalar.Ordered α] {s : Search α}

/-- Acting on a report keeps the frontier consistent, whether it succeeds or not. -/
theorem consistent_settle (hs : s.brancher.frontier.Consistent) (r : Report α) :
    (s.settle r).2.brancher.frontier.Consistent := by
  rcases hsettle : s.settle r with ⟨e | stage, t⟩
  · rw [(settle_error hsettle).1]
    exact hs
  · cases settlement hsettle with
    | fathomed => exact ((Keeps.refl hs).countFathomed r).consistent
    | twice => exact hs
    | branched _ _ hb =>
      rw [(s.requeued_branched r _ _).1]
      exact (Brancher.branch_cases hb).2.consistent hs

/-- Every operation keeps the frontier consistent. -/
theorem consistent_perform (hs : s.brancher.frontier.Consistent) (op : Op α) :
    (s.perform op).brancher.frontier.Consistent := by
  -- to settle a node comes down to offering nodes to the frontier
  cases op with
  | atTime => exact hs
  | next =>
    show s.brancher.next.2.frontier.Consistent
    rcases s.brancher.next_cases with ⟨-, hnext⟩ | ⟨n, f, hpop, hnext⟩ <;> rw [hnext]
    · exact hs
    · exact hs.pop hpop
  | offer c => exact ((Keeps.refl hs).offer c).consistent
  | record r => exact (s.keeps_record hs r).consistent
  | settle r => exact consistent_settle hs r
  | apply r =>
    have hrecord := (s.keeps_record hs r).consistent
    show (s.apply r).2.brancher.frontier.Consistent
    rcases s.apply_cases r with ⟨e, -, happly⟩ | ⟨-, happly⟩ <;> rw [happly]
    · exact hrecord
    · exact consistent_settle hrecord r
  | cancel id =>
    rw [perform, s.brancher.frontier_cancel id]
    exact hs
  | insertEvaluated n =>
    rw [perform]
    rcases s.insertEvaluated_cases n with hsame | hqueued
    · rw [hsame]
      exact hs
    · rw [hqueued]
      exact (hs.reserveIds n.id).insert _
  | strongChildren r =>
    obtain ⟨id, hfrontier, -⟩ := s.brancher.allChildren_frontier r.node r.point
    show (s.brancher.allChildren r.node r.point).2.frontier.Consistent
    rw [hfrontier]
    exact hs.withNextId id
  | countFathomed r => exact ((Keeps.refl hs).countFathomed r).consistent
  | countBranched => exact hs
  | countDropped => exact hs

/-- The frontier is consistent in every state that a search gets into. -/
theorem Reachable.consistent (h : Reachable s) : s.brancher.frontier.Consistent := by
  induction h with
  | new h =>
    obtain ⟨-, -, -, f, hf, -, -, hfrontier⟩ := new_ok h
    rw [hfrontier]
    exact hf.insert _
  | perform _ op ih => exact consistent_perform ih op

end Search

end BranchBound
