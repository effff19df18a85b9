import BranchBound.Proofs.Search.Bounds
import BranchBound.Proofs.Search.Tracking

/-! # Nodes that are put back

A node that is out may be cancelled and put back as it was handed out. Every node that is open or
out has bounds for all variables, so it can be put back, and then it is open again or the bound of
the search includes its score.

* **`Search.Fitted s out`** — all nodes that are open or out have bounds for all variables.
* **`Search.Has s n`** — the search has a node: the node is open, or its score is among those of the
  refused ones.
* **`Search.Tracks.requeue`** — a node that is out is put back. -/

namespace BranchBound

variable {α : Type} [Scalar α]

/-! ## Bounds for all variables -/

namespace Brancher

variable {b c : Brancher α} {parent : Node α} {point : List α} {objective : α}
  {outcome : Branching} {k : Nat}

/-- The nodes that branching opens have bounds for all variables. -/
theorem Branched.hasDimension (h : Branched b parent point objective outcome c)
    (hb : b.frontier.Consistent) (hdim : parent.box.hasDimension b.vars.length = true)
    [Scalar.Ordered α] {n : Node α} (hn : n ∈ c.frontier.nodes) :
    n ∈ b.frontier.nodes ∨ n.box.hasDimension b.vars.length = true := by
  have hrounded := hasDimension_roundDiscrete hdim b.vars
  cases h with
  | dropped => exact .inl hn
  | requeued =>
    rcases Multiset.mem_cons.mp (Multiset.mem_of_le (hb.nodes_insert_le _) hn) with rfl | hold
    · exact .inr hrounded
    · exact .inl hold
  | @split i v hv down up d hsplit =>
    have hd := split_consistent hsplit hb
    obtain ⟨hdown, hup⟩ := split_nodes hsplit
    have hbox : (b.rounded parent objective).box.hasDimension b.vars.length = true := hrounded
    have hparts := hasDimension_parts hbox v.kind i
    -- only the two parts are new
    have hnodes : d.frontier.nodes = b.frontier.nodes := by
      rw [split_brancher hsplit]
      rfl
    rcases Multiset.mem_cons.mp (Multiset.mem_of_le ((hd.insert down).nodes_insert_le up) hn)
      with rfl | hn
    · rw [hup]
      exact .inr hparts.2
    · rcases Multiset.mem_cons.mp (Multiset.mem_of_le (hd.nodes_insert_le down) hn) with rfl | hn
      · rw [hdown]
        exact .inr hparts.1
      · exact .inl (hnodes ▸ hn)

end Brancher

namespace Search

variable {s t : Search α} {n : Node α} {out other : List (Node α)} {r : Report α}

/-- All nodes that are open or out have bounds for all variables. -/
def Fitted (s : Search α) (out : List (Node α)) : Prop :=
  ∀ n, n ∈ s.brancher.frontier.nodes ∨ n ∈ out → n.box.hasDimension s.brancher.vars.length = true

omit [Scalar α] in
/-- Nodes that were out may be so no more. -/
theorem Fitted.subset (h : s.Fitted out) (hsub : ∀ n ∈ other, n ∈ out) : s.Fitted other :=
  fun n hn => h n (hn.imp_right (hsub n))

/-- No node became open. -/
theorem Fitted.keeps (h : s.Fitted out) (hkeeps : s.Keeps t) : t.Fitted out := by
  intro n hn
  rw [hkeeps.vars]
  exact h n (hn.imp_left (Multiset.mem_of_le hkeeps.nodes_le))

variable [Scalar.Ordered α]

/-- At the start only the root is open. -/
theorem Fitted.new {vars : List (Variable α)} {settings : Settings α}
    (h : Search.new vars settings = .ok s) : s.Fitted [] := by
  intro n hn
  rw [eq_root_of_new h (hn.resolve_right List.not_mem_nil), Box.hasDimension_iff]
  exact ⟨List.length_map _, List.length_map _⟩

omit [Scalar.Ordered α] in
/-- A node goes out. -/
theorem Fitted.next (h : s.Fitted out) (hs : s.brancher.frontier.Consistent)
    (hnext : s.next = (.ok n, t)) : t.Fitted (n :: out) := by
  obtain ⟨m, f, hpop, rfl, rfl⟩ := Async.next_ok hnext
  intro k hk
  refine h k ?_
  rw [hs.nodes_pop hpop, Multiset.mem_cons]
  rcases hk with hopen | hout
  · exact .inl (.inr hopen)
  · exact (List.mem_cons.mp hout).imp_left .inl

/-- A report comes in, and is accepted or refused. -/
theorem Fitted.apply (h : s.Fitted out) (hs : s.brancher.frontier.Consistent) (r : Report α) :
    (s.apply r).2.Fitted out := by
  have hkeeps := s.keeps_record hs r
  have hrecord := h.keeps hkeeps
  rcases happly : s.apply r with ⟨e | stage, t⟩
  · rw [(apply_error happly).1]
    exact hrecord
  · cases settlement (apply_ok happly).2 with
    | fathomed => exact hrecord.keeps ((Keeps.refl hkeeps.consistent).countFathomed r)
    | twice => exact hrecord
    | @branched _ _ outcome b hb =>
      -- a node of which some bound is missing is refused, so the new ones have all of theirs
      obtain ⟨hfault, hbranched⟩ := Brancher.branch_cases hb
      intro k hk
      rw [(requeued_branched _ r b outcome).1] at hk ⊢
      rw [hbranched.vars]
      rcases hk with hopen | hout
      · rcases hbranched.hasDimension hkeeps.consistent
          (Brancher.dimensionFault_eq_none_iff.mp hfault) hopen with hold | hdim
        · exact hrecord k (.inl hold)
        · exact hdim
      · exact hrecord k (.inr hout)

/-! ## Putting a node back -/

/-- The search once a node that was out is cancelled and put back as it was handed out. -/
def requeue (s : Search α) (n : Node α) : Search α :=
  { s with brancher := ((s.brancher.cancel n.id).2.insertNode n).2 }

omit [Scalar.Ordered α] in
/-- A node that the search waits for is cancelled first. -/
theorem requeue_of_cancel {b : Brancher α} {n : Node α}
    (h : s.brancher.cancel n.id = (.ok (), b)) :
    s.requeue n = { s with brancher := (b.insertNode n).2 } := by
  rw [requeue, h]

/-- The node is open, or its score is among those of the refused nodes. -/
def Has (s : Search α) (n : Node α) : Prop :=
  n ∈ s.brancher.frontier.nodes ∨ s.brancher.frontier.lowestRefused ≤ n.score

/-- The bound includes the score of such a node, unless the score is undefined. -/
theorem Has.bound_le (h : s.Has n) (hscore : Scalar.isNaN n.score = false)
    (outLowest : Option α) : s.provenBound outLowest ≤ n.score := by
  rw [provenBound_le_iff]
  rcases h with hopen | hrefused
  · obtain ⟨m, hm, rfl⟩ := Frontier.mem_nodes.mp hopen
    exact .inl (.inl (.inl (s.brancher.frontier.isLowest_lowestScore.le _ ⟨m, hm, rfl⟩ hscore)))
  · exact .inr hrefused

omit [Scalar.Ordered α] in
/-- A node that is out is not waited for any more once it is put back, and is offered to the
frontier. -/
theorem Tracks.requeue_eq (h : s.Tracks (n :: out)) (hfitted : s.Fitted (n :: out)) :
    (s.brancher.cancel n.id).1 = .ok () ∧ ∃ score, s.requeue n = { s with brancher :=
      { s.brancher with
        waiting := s.brancher.waiting.erase n.id
        frontier := (s.brancher.frontier.insert ⟨n, score, .unsplit⟩).2 } } := by
  have hwaiting := h.mem_waiting List.mem_cons_self
  have hcancel : s.brancher.cancel n.id
      = (.ok (), { s.brancher with waiting := s.brancher.waiting.erase n.id }) := by
    unfold Brancher.cancel
    split
    · next hnone => exact absurd hwaiting (Waiting.lookup_eq_none_iff.mp hnone)
    · rfl
  refine ⟨by rw [hcancel], s.brancher.selectionScore n, ?_⟩
  unfold Search.requeue
  rw [hcancel]
  rcases hinsert : Brancher.insertNode
    { s.brancher with waiting := s.brancher.waiting.erase n.id } n with ⟨answer, c⟩
  rcases Brancher.insertScored_cases hinsert with ⟨e, hfault, -⟩ | ⟨-, rfl⟩
  · have hnone : s.brancher.dimensionFault? n = none :=
      Brancher.dimensionFault_eq_none_iff.mpr (hfitted n (.inr List.mem_cons_self))
    cases hnone.symm.trans hfault
  · -- the id of the node was given out before
    have hreserved := Frontier.reserveIds_of_lt
      (h.names_cons.below n (Multiset.mem_cons_self n _))
    show ({ s with brancher := { s.brancher with
      waiting := s.brancher.waiting.erase n.id
      frontier := ((s.brancher.frontier.reserveIds n.id).insert
        ⟨n, s.brancher.selectionScore n, .unsplit⟩).2 } } : Search α) = _
    rw [hreserved]

/-- A node that is out is put back: it is not waited for any more, and it is open or its score is
among those of the refused nodes. -/
theorem Tracks.requeue (h : s.Tracks (n :: out)) (hfitted : s.Fitted (n :: out)) :
    (s.requeue n).Tracks out ∧ (s.requeue n).Fitted out ∧ (s.requeue n).Has n := by
  obtain ⟨-, score, hrequeue⟩ := h.requeue_eq hfitted
  have hle := h.consistent.nodes_insert_le ⟨n, score, .unsplit⟩
  rw [hrequeue]
  refine ⟨⟨h.consistent.insert _, ?_, ?_, h.waiting_erase⟩, fun m hm => ?_, ?_⟩
  · -- open and out together there are the nodes of before, or one fewer if the node is refused
    refine Names.of_le ?_ ((Multiset.add_le_add_right hle).trans (Multiset.cons_add _ _ _).le)
    show Names _ _ (s.brancher.frontier.insert _).2.nextId
    rw [Frontier.nextId_insert]
    exact h.names_cons
  · show (s.brancher.frontier.insert _).2.nextId ≤ _
    rw [Frontier.nextId_insert]
    exact h.nextId_le
  · refine hfitted m ?_
    rcases hm with hopen | hout
    · rcases Multiset.mem_cons.mp (Multiset.mem_of_le hle hopen) with rfl | hold
      · exact .inr List.mem_cons_self
      · exact .inl hold
    · exact .inr (List.mem_cons_of_mem _ hout)
  · exact h.consistent.mem_or_refused_insert _

omit [Scalar.Ordered α] in
/-- A node is cancelled first and queued then. -/
theorem requeue_eq (s : Search α) (n : Node α) :
    s.requeue n = (s.perform (.cancel n.id)).perform (.insertEvaluated n) := rfl

/-- Putting a node back does not raise the bound. -/
theorem lowers_requeue (hs : s.brancher.frontier.Consistent) (n : Node α) :
    s.Lowers (s.requeue n) := by
  have hcancelled := lowers_perform hs (show Op.cancel n.id ≠ .next from nofun)
  have hinserted := lowers_perform (consistent_perform hs (.cancel n.id))
    (show Op.insertEvaluated n ≠ .next from nofun)
  rw [requeue_eq]
  exact hcancelled.trans hinserted

/-- The search has the nodes that it had before another one was put back. -/
theorem Tracks.has_requeue (h : s.Tracks (n :: out)) (hfitted : s.Fitted (n :: out)) {m : Node α}
    (hm : s.Has m) : (s.requeue n).Has m := by
  obtain ⟨-, score, hrequeue⟩ := h.requeue_eq hfitted
  rw [hrequeue]
  exact hm.imp (h.consistent.mem_nodes_insert _)
    (s.brancher.frontier.lowestRefused_insert_le _)

end Search

end BranchBound
