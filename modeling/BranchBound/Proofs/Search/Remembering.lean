import BranchBound.Proofs.Search.Balance
import BranchBound.Proofs.Search.Recalling

/-! # Whatever is done, histories name variables

A report can be recorded as long as the history of its node names a variable. Every operation on a
search keeps that for the nodes that are open or out, whether it succeeds or not, so the only
reports that cannot be recorded are those on nodes that are not waited for.

* **`Search.Recalls.perform`** — what every operation keeps.
* **`Recalls.waiting_record`**, **`Recalls.notMem_of_record_error`** — a node is not waited for any
  more once its report was recorded, and one whose report cannot be recorded was not before. -/

namespace BranchBound

variable {α : Type} [Scalar α]

omit [Scalar α] in
/-- Nothing is forgotten of a node that is not waited for. -/
theorem Waiting.erase_of_notMem {w : Waiting α} {id : Nat} (h : id ∉ w.ids) : w.erase id = w :=
  List.filter_eq_self.mpr fun e he =>
    decide_eq_true fun heq => h (List.mem_map.mpr ⟨e, he, heq⟩)

namespace Search

variable [Scalar.Ordered α] {s t : Search α} {r : Report α} {P : α → Prop}

omit [Scalar.Ordered α] in
/-- Nodes may leave the tree, and what is waited for may be forgotten. -/
theorem Recalls.of_le (h : s.Recalls P) (ht : t.brancher.frontier.Consistent)
    (hvars : t.brancher.vars = s.brancher.vars)
    (hmembers : t.brancher.frontier.members ≤ s.brancher.frontier.members)
    (hwaiting : ∀ e ∈ t.brancher.waiting, e ∈ s.brancher.waiting) : t.Recalls P :=
  ⟨ht, fun m hm => hvars ▸ h.opened m (Multiset.mem_of_le hmembers hm),
    fun e he => hvars ▸ h.waited e (hwaiting e he)⟩

omit [Scalar.Ordered α] in
/-- The brancher may stay as it is. -/
theorem Recalls.of_eq (h : s.Recalls P) (hbrancher : t.brancher = s.brancher) : t.Recalls P := by
  refine h.of_le ?_ ?_ ?_ ?_ <;> rw [hbrancher]
  · exact h.consistent
  · exact fun e he => he

omit [Scalar.Ordered α] in
/-- Handing out no node changes nothing. -/
theorem next_eq_of_error {e : Error α} (h : s.next = (.error e, t)) : t = s := by
  unfold Search.next at h
  rcases s.brancher.next_cases with ⟨-, hnext⟩ | ⟨m, f, -, hnext⟩ <;> rw [hnext] at h <;> cases h
  rfl

omit [Scalar.Ordered α] in
/-- Queuing a node fails if it has not all bounds, and then changes nothing. -/
theorem insertEvaluated_eq_of_error {n : Node α} {e : Error α}
    (h : s.insertEvaluated n = (.error e, t)) : t = s := by
  rcases hanswer : s.brancher.insertNode n with ⟨answer, b⟩
  rw [Search.insertEvaluated, hanswer] at h
  cases h
  rw [Brancher.insertScored_error hanswer]

omit [Scalar.Ordered α] in
/-- So does making the children of such a node in every dimension. -/
theorem strongChildren_eq_of_error {e : Error α} (h : s.strongChildren r = (.error e, t)) :
    t = s := by
  rcases hanswer : s.brancher.allChildren r.node r.point with ⟨answer, b⟩
  rw [Search.strongChildren, hanswer] at h
  cases h
  rw [Brancher.allChildren_error hanswer]

omit [Scalar.Ordered α] in
/-- Offering a point waits for no further node. -/
theorem waiting_offer (s : Search α) (c : Candidate α) :
    (s.offer c).2.brancher.waiting = s.brancher.waiting := by
  by_cases hlt : c.value < s.incumbent.value
  · rw [offer_of_lt hlt, brancher_noteDiscarded]
    rfl
  · rw [offer_of_not_lt hlt]

/-- Acting on a report remembers the histories of the nodes that are opened. -/
theorem Recalls.settle (h : s.Recalls fun _ => True) (r : Report α) :
    (s.settle r).2.Recalls fun _ => True := by
  rcases hsettle : s.settle r with ⟨e | final, t⟩
  · rw [(settle_error hsettle).1]
    exact h
  · cases settlement hsettle with
    | fathomed => exact h.of_eq (s.countFathomed_frame r).1
    | twice => exact h.of_eq rfl
    | branched _ _ hbranch => exact h.branched (Brancher.branch_cases hbranch).2 fun _ _ => trivial

/-- Whatever is done to a search, the histories of its nodes name variables. -/
theorem Recalls.perform (h : s.Recalls fun _ => True) (op : Op α) :
    (s.perform op).Recalls fun _ => True := by
  cases op with
  | atTime => exact h.of_eq rfl
  | next =>
    rcases hnext : s.next with ⟨e | n, t⟩ <;> rw [Search.perform, hnext]
    · rw [next_eq_of_error hnext]
      exact h
    · exact (h.next hnext).1
  | offer c =>
    -- a better point lowers the threshold, which drops nodes and changes none
    by_cases hlt : c.value < s.incumbent.value
    · rw [Search.perform, offer_of_lt hlt]
      refine h.of_le ?_ ?_ ?_ ?_ <;> rw [brancher_noteDiscarded]
      · exact h.consistent.lowerThreshold c.value
      · rfl
      · exact h.consistent.members_lowerThreshold_le c.value
      · exact fun e he => he
    · rw [Search.perform, offer_of_not_lt hlt]
      exact h
  | record r => exact h.record r
  | settle r => exact h.settle r
  | apply r =>
    have hrecord := h.record r
    rw [Search.perform, Search.apply]
    split
    · next hanswer => rw [hanswer] at hrecord; exact hrecord
    · next hanswer => rw [hanswer] at hrecord; exact hrecord.settle r
  | cancel id =>
    rcases s.brancher.cancel_cases id with ⟨-, hcancel⟩ | ⟨-, hcancel⟩
    · refine h.of_le ?_ ?_ ?_ ?_ <;> rw [Search.perform, hcancel]
      · exact h.consistent
      · exact fun e he => (List.mem_filter.mp he).1
    · refine h.of_eq ?_
      rw [Search.perform, hcancel]
  | insertEvaluated n => exact h.insertEvaluated trivial
  | strongChildren r => exact h.strongChildren trivial
  | countFathomed r => exact h.of_eq (s.countFathomed_frame r).1
  | countBranched => exact h.of_eq rfl
  | countDropped => exact h.of_eq rfl

/-- The node of a report is not waited for once the report was recorded, or could not be. -/
theorem Recalls.waiting_record (h : s.Recalls P) (r : Report α) :
    (s.record r).2.brancher.waiting = s.brancher.waiting.erase r.node.id := by
  by_cases hid : r.node.id ∈ s.brancher.waiting.ids
  · exact (h.record_ok hid).2
  · have hwaiting := (s.account_frame r).1
    show ((s.account r).brancher.confirm r.node.id r.node).2.waiting = _
    rw [Brancher.confirm, hwaiting, Waiting.lookup_eq_none_iff.mpr hid,
      Waiting.erase_of_notMem hid, ← hwaiting]

/-- A report that cannot be recorded is one on a node that is not waited for. -/
theorem Recalls.notMem_of_record_error (h : s.Recalls P) {e : Error α}
    (hrecord : (s.record r).1 = .error e) : r.node.id ∉ s.brancher.waiting.ids := by
  intro hid
  rw [(h.record_ok hid).1] at hrecord
  cases hrecord

end Search

end BranchBound
