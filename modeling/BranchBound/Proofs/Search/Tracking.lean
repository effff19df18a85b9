import BranchBound.Proofs.Search.Asynchronous
import BranchBound.Proofs.Search.Reporting
import Mathlib.Data.Multiset.UnionInter

/-! # A search keeps track of the nodes that are out

Whoever hands out the nodes of a search knows which of them are out, and the search waits for
exactly these: no two nodes that are open or out share an id, and the ids it waits for are those of
the nodes that are out (`Search.Tracks`). Handing out a node and taking in a report keep this,
whether the report is accepted or not.

* **`Search.Tracks s out`** — the search waits for the nodes `out`.
* **`Tracks.next`**, **`Tracks.apply`**, **`Tracks.apply_error`** — a node goes out, and a report on
  it comes in. -/

namespace BranchBound.Search

variable {α : Type} [Scalar α]

/-- The search waits for the nodes that are out, and no two nodes share an id. -/
structure Tracks (s : Search α) (out : List (Node α)) : Prop where
  /-- The frontier is consistent. -/
  consistent : s.brancher.frontier.Consistent
  /-- The nodes have names of their own. -/
  names : Names (s.brancher.frontier.nodes + (↑out : Multiset (Node α))) s.requeued
    s.brancher.frontier.nextId
  /-- Each node that was processed has taken two ids at most. -/
  nextId_le : s.brancher.frontier.nextId ≤ 2 * s.stats.processed + 1
  /-- The search waits for the nodes that are out and for no other. -/
  waiting : s.brancher.waiting.ids.Perm (out.map Node.id)

variable {s t : Search α} {n : Node α} {out : List (Node α)} {r : Report α}

namespace Tracks

/-- The order of the nodes that are out does not matter. -/
theorem perm {other : List (Node α)} (h : s.Tracks out) (hperm : out.Perm other) :
    s.Tracks other where
  consistent := h.consistent
  names := Multiset.coe_eq_coe.mpr hperm ▸ h.names
  nextId_le := h.nextId_le
  waiting := h.waiting.trans (hperm.map _)

/-- The clock does not matter. -/
theorem atTime (h : s.Tracks out) (d : Duration) : (s.atTime d).Tracks out :=
  ⟨h.consistent, h.names, h.nextId_le, h.waiting⟩

/-- The nodes that are out have ids of their own. -/
theorem nodup_ids (h : s.Tracks out) : (out.map Node.id).Nodup := by
  have hnodup := h.names.nodup
  rw [Multiset.map_add] at hnodup
  exact Multiset.coe_nodup.mp (Multiset.nodup_of_le (Multiset.le_add_left _ _) hnodup)

/-- No node that is out shares its id with an open one. -/
theorem ne_of_open (h : s.Tracks out) {m : Node α} (hn : n ∈ out)
    (hm : m ∈ s.brancher.frontier.nodes) : m.id ≠ n.id := by
  intro heq
  have hnodup := h.names.nodup
  rw [Multiset.map_add] at hnodup
  have hdisjoint := Multiset.disjoint_of_nodup_add hnodup
  refine Multiset.disjoint_left.mp hdisjoint (Multiset.mem_map_of_mem Node.id hm) ?_
  rw [heq]
  exact Multiset.mem_map_of_mem Node.id (Multiset.mem_coe.mpr hn)

/-- The names, with a node that is out put in front. -/
theorem names_cons (h : s.Tracks (n :: out)) :
    Names (n ::ₘ (s.brancher.frontier.nodes + ↑out)) s.requeued s.brancher.frontier.nextId := by
  rw [← Multiset.add_cons, Multiset.cons_coe]
  exact h.names

/-- The search waits for a node that is out. -/
theorem mem_waiting (h : s.Tracks out) (hn : n ∈ out) : n.id ∈ s.brancher.waiting.ids :=
  h.waiting.symm.subset (List.mem_map_of_mem hn)

/-- The nodes the search waits for once one of them is forgotten. -/
theorem waiting_erase (h : s.Tracks (n :: out)) :
    (s.brancher.waiting.erase n.id).ids.Perm (out.map Node.id) := by
  rw [Waiting.ids_erase]
  have hfilter := h.waiting.filter (· ≠ n.id)
  rw [List.map_cons, Waiting.filter_ne_cons (h.nodup_ids)] at hfilter
  exact hfilter

variable [Scalar.Ordered α]

/-- A search at its start waits for no node. -/
theorem new {vars : List (Variable α)} {settings : Settings α}
    (h : Search.new vars settings = .ok s) : s.Tracks [] := by
  obtain ⟨-, hprocessed, hrequeued, f, hf, hnodes, hnext, hfrontier⟩ := Search.new_ok h
  -- before the root is offered there is no node at all
  have hnone : Names (0 : Multiset (Node α)) [] 0 :=
    { nodup := Multiset.nodup_zero
      below := fun _ hn => absurd hn (Multiset.notMem_zero _)
      requeued_below := fun _ hid => absurd hid List.not_mem_nil
      isPoint := fun _ hn => absurd hn (Multiset.notMem_zero _) }
  have hle := hf.nodes_insert_le ⟨Node.root s.brancher.vars, 0, .unsplit⟩
  rw [← hfrontier, hnodes] at hle
  refine ⟨hfrontier ▸ hf.insert _, ?_, ?_, ?_⟩
  · rw [hrequeued, hfrontier, Frontier.nextId_insert, hnext, ← hfrontier]
    exact (hnone.child (n := Node.root s.brancher.vars) rfl).of_le
      (by rw [Multiset.coe_nil, Multiset.add_zero]; exact hle)
  · rw [hfrontier, Frontier.nextId_insert, hnext]
    omega
  · rw [(Search.new_frame h).2.1]
    exact List.Perm.refl _

/-- A node goes out if one is open. -/
theorem next (h : s.Tracks out) (hopen : s.brancher.frontier.isEmpty = false) :
    ∃ n t, s.next = (.ok n, t) ∧ t.Tracks (n :: out) := by
  obtain ⟨n, t, hnext⟩ := Async.exists_next h.consistent hopen
  obtain ⟨m, f, hpop, rfl, rfl⟩ := Async.next_ok hnext
  obtain ⟨slot, -, -, rfl⟩ := Frontier.pop?_eq_some hpop
  have hnames := h.names
  rw [h.consistent.nodes_pop hpop, Multiset.cons_add, ← Multiset.add_cons, Multiset.cons_coe]
    at hnames
  refine ⟨m.node, _, hnext, h.consistent.pop hpop, hnames, h.nextId_le, ?_⟩
  rw [Waiting.ids_insert, List.map_cons]
  -- the node was open, so it was not waited for
  have hnew : ∀ id ∈ s.brancher.waiting.ids, decide (id ≠ m.id) = true := by
    intro id hid
    refine decide_eq_true fun heq => ?_
    obtain ⟨k, hk, hkid⟩ := List.mem_map.mp (h.waiting.subset hid)
    have hm : m.node ∈ s.brancher.frontier.nodes := by
      rw [h.consistent.nodes_pop hpop]
      exact Multiset.mem_cons_self _ _
    exact h.ne_of_open hk hm (heq.symm.trans hkid.symm)
  rw [List.filter_eq_self.mpr hnew]
  exact h.waiting.cons _

/-- The report on a node that is out comes in. -/
theorem apply {stage : Stage} (h : s.Tracks (n :: out)) (hid : r.node.id = n.id)
    (happly : s.apply r = (.ok stage, t)) (hids : 2 * t.stats.processed + 1 < wordRange) :
    t.Tracks out := by
  have hprocessed := Search.processed_apply happly
  have hnext := h.nextId_le
  -- the node has at most two children, and it is counted when they take their ids
  have hreplaces := Search.replaces_apply happly h.consistent h.names_cons hid (by omega)
  have hle := hreplaces.nextId_le
  refine ⟨hreplaces.consistent, hreplaces.names, by omega, ?_⟩
  rw [Search.waiting_apply happly, hid]
  exact h.waiting_erase

/-- The report on a node that is out comes in and is refused. The node is not waited for any more
all the same. -/
theorem apply_error {e : Error α} (h : s.Tracks (n :: out)) (hid : r.node.id = n.id)
    (happly : s.apply r = (.error e, t)) : t.Tracks out ∧ ∃ fault, e = .invalidProblem fault := by
  obtain ⟨rfl, ⟨-, hunknown⟩ | ⟨hfault, hwaiting⟩⟩ := Search.apply_error happly
  · rw [hid] at hunknown
    exact absurd (h.mem_waiting List.mem_cons_self) hunknown
  · -- the box is found not to be valid when the report was recorded already
    have hkeeps := s.keeps_record h.consistent r
    have hprocessed := Search.processed_record s r
    have hnext := h.nextId_le
    have hnames := h.names_cons.of_le (Multiset.le_cons_self _ _)
    refine ⟨⟨hkeeps.consistent, hkeeps.names hnames, ?_, ?_⟩, hfault⟩
    · rw [hkeeps.nextId]
      omega
    · rw [hwaiting, hid]
      exact h.waiting_erase

end Tracks

end BranchBound.Search
