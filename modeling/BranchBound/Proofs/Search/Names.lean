import BranchBound.Node.Basic
import Mathlib.Data.Multiset.MapFold

/-! # The names of nodes

The nodes that are open or out have ids of their own, all of them given out before, and an id that
is noted as that of a single point queued once more belongs to a single point. This is what lets a
search tell a node it has evaluated twice.

* **`Names live requeued next`** — the invariant, of the nodes `live`, the ids `requeued` and the
  next id.
* **`Names.of_le`**, **`Names.fresh`**, **`Names.requeue`** — nodes leave, are made, and are queued
  once more. -/

namespace BranchBound

variable {α : Type} [Scalar α]

/-! ## Ids -/

/-- The nodes have ids of their own below the next one, and the ids that are noted belong to single
points. -/
structure Names (live : Multiset (Node α)) (requeued : List Nat) (next : Nat) : Prop where
  /-- No two nodes share an id. -/
  nodup : (live.map Node.id).Nodup
  /-- The ids of the nodes were given out before. -/
  below : ∀ n ∈ live, n.id < next
  /-- The ids that are noted were given out before. -/
  requeued_below : ∀ id ∈ requeued, id < next
  /-- An id that is noted is that of a single point. -/
  isPoint : ∀ n ∈ live, n.id ∈ requeued → n.box.isPoint = true

namespace Names

variable {live fewer : Multiset (Node α)} {requeued : List Nat} {next : Nat} {n m : Node α}

/-- Nodes may leave. -/
theorem of_le (h : Names live requeued next) (hle : fewer ≤ live) :
    Names fewer requeued next where
  nodup := Multiset.nodup_of_le (Multiset.map_le_map hle) h.nodup
  below n hn := h.below n (Multiset.mem_of_le hle hn)
  requeued_below := h.requeued_below
  isPoint n hn := h.isPoint n (Multiset.mem_of_le hle hn)

/-- A new node may take an id that was not given out before. -/
theorem fresh (h : Names live requeued next) {later : Nat} (hfirst : next ≤ n.id)
    (hlast : n.id < later) : Names (n ::ₘ live) requeued later where
  nodup := by
    rw [Multiset.map_cons, Multiset.nodup_cons]
    -- the ids that were given out are below the new one
    refine ⟨fun hmem => ?_, h.nodup⟩
    obtain ⟨m, hm, heq⟩ := Multiset.mem_map.mp hmem
    have := h.below m hm
    omega
  below m hm := by
    rcases Multiset.mem_cons.mp hm with rfl | hm
    · exact hlast
    · have := h.below m hm
      omega
  requeued_below id hid := by
    have := h.requeued_below id hid
    omega
  isPoint m hm hnoted := by
    rcases Multiset.mem_cons.mp hm with rfl | hm
    · have := h.requeued_below _ hnoted
      omega
    · exact h.isPoint m hm hnoted

/-- A new node may take the next id. -/
theorem child (h : Names live requeued next) (hid : n.id = next) :
    Names (n ::ₘ live) requeued (next + 1) :=
  h.fresh hid.ge (hid ▸ Nat.lt_succ_self next)

/-- Ids may be given out to nodes that do not stay. -/
theorem later (h : Names live requeued next) {next' : Nat} (hle : next ≤ next') :
    Names live requeued next' where
  nodup := h.nodup
  below n hn := Nat.lt_of_lt_of_le (h.below n hn) hle
  requeued_below id hid := Nat.lt_of_lt_of_le (h.requeued_below id hid) hle
  isPoint := h.isPoint

/-- A node may be replaced by a single point of the same id, which is then noted. -/
theorem requeue (h : Names (n ::ₘ live) requeued next) (hid : m.id = n.id)
    (hpoint : m.box.isPoint = true) : Names (m ::ₘ live) (n.id :: requeued) next where
  nodup := by
    have hnodup := h.nodup
    rw [Multiset.map_cons] at hnodup ⊢
    rw [hid]
    exact hnodup
  below k hk := by
    rcases Multiset.mem_cons.mp hk with rfl | hk
    · rw [hid]
      exact h.below n (Multiset.mem_cons_self n live)
    · exact h.below k (Multiset.mem_cons_of_mem hk)
  requeued_below id hid := by
    rcases List.mem_cons.mp hid with rfl | hid
    · exact h.below n (Multiset.mem_cons_self n live)
    · exact h.requeued_below id hid
  isPoint k hk hnoted := by
    rcases Multiset.mem_cons.mp hk with rfl | hk
    · exact hpoint
    · rcases List.mem_cons.mp hnoted with heq | hnoted
      · -- no other node has the id of the one that is replaced
        have hnodup := h.nodup
        rw [Multiset.map_cons, Multiset.nodup_cons, ← heq] at hnodup
        exact absurd (Multiset.mem_map_of_mem Node.id hk) hnodup.1
      · exact h.isPoint k (Multiset.mem_cons_of_mem hk) hnoted

end Names

end BranchBound
