import BranchBound.Frontier.Heap
import Mathlib.Logic.Equiv.Basic

/-! # Order in a binary heap

`Heap.Ordered before heap` says that no entry must come out before its parent. Moving an entry up
or down restores this order when only that entry is out of place, and every operation keeps the
entries, up to their order in the array.

* **`Heap.Ranked`** — what the order of the entries has to satisfy: a strict weak order, in which
  several entries may be level.
* **`siftUp_ordered`**, **`siftDown_orderedFrom`** — one moved entry; `UpReady` and `DownReady` say
  from where.
* **`push_ordered`**, **`dropRoot_ordered`**, **`heapify_ordered`** — the operations.
* **`push_perm`**, **`dropRoot_perm`**, **`heapify_perm`** — what they hold.
* **`not_precedes_root`** — nothing in an ordered heap must come out before its root. -/

namespace BranchBound.Heap

variable {β : Type} {before : β → β → Bool} {heap : Array β} {i j p q c : Nat}

/-! ## Strict weak orders on the entries -/

/-- On the entries of `heap`, `before` is a strict weak order: it is asymmetric, and "need not come
out before" is transitive. -/
structure Ranked (before : β → β → Bool) (heap : Array β) : Prop where
  /-- Of two entries at most one must come out before the other. -/
  asymm : ∀ x ∈ heap, ∀ y ∈ heap, before x y = true → before y x = false
  /-- What need not precede an entry that need not precede a third, need not precede the third. -/
  trans : ∀ x ∈ heap, ∀ y ∈ heap, ∀ z ∈ heap,
    before x y = false → before y z = false → before x z = false

/-- A strict weak order on some entries is one on fewer entries. -/
theorem Ranked.mono {smaller : Array β} (h : Ranked before heap)
    (sub : ∀ x ∈ smaller, x ∈ heap) : Ranked before smaller where
  asymm x hx y hy := h.asymm x (sub x hx) y (sub y hy)
  trans x hx y hy z hz := h.trans x (sub x hx) y (sub y hy) z (sub z hz)

/-- The reading of `precedes` within the array. -/
theorem precedes_of_lt (hi : i < heap.size) (hj : j < heap.size) :
    precedes before heap i j = before heap[i] heap[j] := by
  simp only [precedes, Array.getElem?_eq_getElem hi, Array.getElem?_eq_getElem hj]

/-- Nothing beyond the end precedes. -/
theorem precedes_of_size_le_left (h : heap.size ≤ i) : precedes before heap i j = false := by
  simp only [precedes, Array.getElem?_eq_none h]

/-- Nothing precedes what is beyond the end. -/
theorem precedes_of_size_le_right (h : heap.size ≤ j) : precedes before heap i j = false := by
  rw [precedes, Array.getElem?_eq_none h]
  split <;> first | rfl | contradiction

/-- Of two positions at most one must come out before the other. -/
theorem Ranked.precedes_asymm (h : Ranked before heap) (hij : precedes before heap i j = true) :
    precedes before heap j i = false := by
  by_cases hi : i < heap.size
  · by_cases hj : j < heap.size
    · rw [precedes_of_lt hi hj] at hij
      rw [precedes_of_lt hj hi]
      exact h.asymm _ (Array.getElem_mem hi) _ (Array.getElem_mem hj) hij
    · exact precedes_of_size_le_left (Nat.le_of_not_lt hj)
  · exact precedes_of_size_le_right (Nat.le_of_not_lt hi)

/-- "Need not come out before" is transitive through a position within the array. -/
theorem Ranked.not_precedes_trans (h : Ranked before heap) (hj : j < heap.size)
    (hij : precedes before heap i j = false) (hjq : precedes before heap j q = false) :
    precedes before heap i q = false := by
  by_cases hi : i < heap.size
  · by_cases hq : q < heap.size
    · rw [precedes_of_lt hi hj] at hij
      rw [precedes_of_lt hj hq] at hjq
      rw [precedes_of_lt hi hq]
      exact h.trans _ (Array.getElem_mem hi) _ (Array.getElem_mem hj) _ (Array.getElem_mem hq)
        hij hjq
    · exact precedes_of_size_le_right (Nat.le_of_not_lt hq)
  · exact precedes_of_size_le_left (Nat.le_of_not_lt hi)

/-- Nothing precedes itself. -/
theorem Ranked.not_precedes_self (h : Ranked before heap) : precedes before heap i i = false := by
  cases hself : precedes before heap i i with
  | false => rfl
  | true => rw [h.precedes_asymm hself] at hself; exact hself.symm

/-! ## Exchanging two entries -/

/-- The entries after an exchange are the old ones at exchanged positions. -/
theorem getElem?_swapIfInBounds (hp : p < heap.size) (hq : q < heap.size) (k : Nat) :
    (heap.swapIfInBounds p q)[k]? = heap[Equiv.swap p q k]? := by
  rw [Array.swapIfInBounds_def, dif_pos hp, dif_pos hq, Array.getElem?_swap]
  by_cases hkq : q = k
  · subst hkq
    rw [if_pos rfl, Equiv.swap_apply_right, Array.getElem?_eq_getElem hp]
  · rw [if_neg hkq]
    by_cases hkp : p = k
    · subst hkp
      rw [if_pos rfl, Equiv.swap_apply_left, Array.getElem?_eq_getElem hq]
    · rw [if_neg hkp, Equiv.swap_apply_of_ne_of_ne (Ne.symm hkp) (Ne.symm hkq)]

/-- What precedes what after an exchange is read off at exchanged positions. -/
theorem precedes_swapIfInBounds (hp : p < heap.size) (hq : q < heap.size) (i j : Nat) :
    precedes before (heap.swapIfInBounds p q) i j
      = precedes before heap (Equiv.swap p q i) (Equiv.swap p q j) := by
  simp only [precedes, getElem?_swapIfInBounds hp hq]

/-- An exchange keeps the entries. -/
theorem swapIfInBounds_perm (heap : Array β) (p q : Nat) :
    (heap.swapIfInBounds p q).toList.Perm heap.toList := by
  rw [Array.swapIfInBounds_def]
  split
  · split
    · exact (Array.swap_perm _ _).toList
    · exact List.Perm.refl _
  · exact List.Perm.refl _

/-- A strict weak order on the entries is one after an exchange. -/
theorem Ranked.swap (h : Ranked before heap) (p q : Nat) :
    Ranked before (heap.swapIfInBounds p q) := by
  refine h.mono fun x hx => ?_
  rw [← Array.mem_toList_iff] at hx ⊢
  exact (swapIfInBounds_perm heap p q).mem_iff.mp hx

/-! ## Ordered heaps -/

/-- `c` is one of the two children of `p`. -/
def IsChild (c p : Nat) : Prop := c = 2 * p + 1 ∨ c = 2 * p + 2

/-- Every position but the root is the child of its parent. -/
theorem isChild_parent (h : i ≠ 0) : IsChild i ((i - 1) / 2) := by
  unfold IsChild
  omega

/-- No entry must come out before its parent, as far as parents from `start` on are concerned. -/
def OrderedFrom (before : β → β → Bool) (heap : Array β) (start : Nat) : Prop :=
  ∀ p c, start ≤ p → IsChild c p → precedes before heap c p = false

/-- No entry must come out before its parent. -/
def Ordered (before : β → β → Bool) (heap : Array β) : Prop := OrderedFrom before heap 0

/-- Whether a heap is in order depends on the order of its entries only. -/
theorem Ordered.congr {before' : β → β → Bool} (h : Ordered before heap)
    (hsame : ∀ x ∈ heap, ∀ y ∈ heap, before' x y = before x y) : Ordered before' heap := by
  intro p c hp hc
  have hold := h p c hp hc
  by_cases hcs : c < heap.size
  · by_cases hps : p < heap.size
    · rw [precedes_of_lt hcs hps] at hold ⊢
      rw [hsame _ (Array.getElem_mem hcs) _ (Array.getElem_mem hps)]
      exact hold
    · exact precedes_of_size_le_right (Nat.le_of_not_lt hps)
  · exact precedes_of_size_le_left (Nat.le_of_not_lt hcs)

/-- Nothing in an ordered heap must come out before its root. -/
theorem not_precedes_root (hr : Ranked before heap) (h : Ordered before heap) (i : Nat) :
    precedes before heap i 0 = false := by
  induction i using Nat.strongRecOn with
  | ind i ih =>
    by_cases h0 : i = 0
    · subst h0
      exact hr.not_precedes_self
    · by_cases hi : i < heap.size
      · have hparent := h _ i (Nat.zero_le _) (isChild_parent h0)
        exact hr.not_precedes_trans (by omega) hparent (ih _ (by omega))
      · exact precedes_of_size_le_left (Nat.le_of_not_lt hi)

/-! ## Moving an entry up -/

/-- Only the entry at `hole` may have to come out before its parent: all other entries are in order
with theirs, and the children of the hole are in order with its parent. -/
structure UpReady (before : β → β → Bool) (heap : Array β) (hole : Nat) : Prop where
  /-- All entries but the one at the hole are in order with their parents. -/
  except : ∀ p c, IsChild c p → c ≠ hole → precedes before heap c p = false
  /-- The children of the hole are in order with its parent. -/
  grand : ∀ p c, IsChild hole p → IsChild c hole → precedes before heap c p = false

/-- Exchanging the hole with its parent moves the hole up. -/
theorem UpReady.swap {hole parent : Nat} (hr : Ranked before heap) (h : UpReady before heap hole)
    (hchild : IsChild hole parent) (hbefore : precedes before heap hole parent = true) :
    UpReady before (heap.swapIfInBounds hole parent) parent := by
  have hhole : hole < heap.size := lt_size_of_precedes before hbefore
  have hlt : parent < hole := by unfold IsChild at hchild; omega
  have hparent : parent < heap.size := Nat.lt_trans hlt hhole
  have hback := hr.precedes_asymm hbefore
  constructor
  · intro p c hc hne
    rw [precedes_swapIfInBounds hhole hparent]
    -- the exchange concerns the hole, its parent and their children only
    by_cases hch : c = hole
    · -- the old parent is now a child of the entry that moved up
      have hp : p = parent := by unfold IsChild at hc hchild; omega
      rw [hch, hp, Equiv.swap_apply_left, Equiv.swap_apply_right]
      exact hback
    · rw [Equiv.swap_apply_of_ne_of_ne hch hne]
      by_cases hph : p = hole
      · rw [hph, Equiv.swap_apply_left]
        exact h.grand parent c hchild (hph ▸ hc)
      · by_cases hpp : p = parent
        · -- the sibling of the hole was in order with the old parent
          rw [hpp, Equiv.swap_apply_right]
          exact hr.not_precedes_trans hparent (h.except parent c (hpp ▸ hc) hch) hback
        · rw [Equiv.swap_apply_of_ne_of_ne hph hpp]
          exact h.except p c hc hch
  · intro p c hp hc
    have hppar : p < parent := by unfold IsChild at hp; omega
    have hup := h.except p parent hp (Nat.ne_of_lt hlt)
    have hphole : p ≠ hole := by omega
    rw [precedes_swapIfInBounds hhole hparent,
      Equiv.swap_apply_of_ne_of_ne hphole (Nat.ne_of_lt hppar)]
    by_cases hch : c = hole
    · rw [hch, Equiv.swap_apply_left]
      exact hup
    · have hcp : c ≠ parent := by unfold IsChild at hc; omega
      rw [Equiv.swap_apply_of_ne_of_ne hch hcp]
      exact hr.not_precedes_trans hparent (h.except parent c hc hch) hup

/-- Moving up keeps the entries. -/
theorem siftUp_perm (before : β → β → Bool) (heap : Array β) (position : Nat) :
    (siftUp before heap position).toList.Perm heap.toList := by
  fun_induction siftUp before heap position with
  | case1 => exact List.Perm.refl _
  | case2 heap position _ parent _ ih => exact ih.trans (swapIfInBounds_perm _ _ _)
  | case3 => exact List.Perm.refl _

/-- Moving up the only entry that may be out of place orders the heap. -/
theorem siftUp_ordered {position : Nat} (hr : Ranked before heap)
    (h : UpReady before heap position) : Ordered before (siftUp before heap position) := by
  fun_induction siftUp before heap position with
  | case1 heap =>
    intro p c _ hc
    exact h.except p c hc (by unfold IsChild at hc; omega)
  | case2 heap position hne parent hbefore ih =>
    exact ih (hr.swap _ _) (h.swap hr (isChild_parent hne) hbefore)
  | case3 heap position hne parent hbefore =>
    intro p c _ hc
    by_cases hcp : c = position
    · have hp : p = parent := by
        have := isChild_parent hne
        unfold IsChild at hc this
        omega
      rw [hcp, hp]
      exact Bool.not_eq_true _ ▸ hbefore
    · exact h.except p c hc hcp

/-! ## Moving an entry down -/

/-- Only the entry at `hole` may have to come out after one of its children, as far as parents from
`start` on are concerned: all other parents are in order with their children, and the children of
the hole are in order with its parent. -/
structure DownReady (before : β → β → Bool) (heap : Array β) (start hole : Nat) : Prop where
  /-- All parents but the one at the hole are in order with their children. -/
  except : ∀ p c, start ≤ p → p ≠ hole → IsChild c p → precedes before heap c p = false
  /-- The children of the hole are in order with its parent. -/
  grand : ∀ p c, start ≤ p → IsChild hole p → IsChild c hole → precedes before heap c p = false

/-- The earliest child is a child, must come out before its parent, and need not come out after its
sibling. -/
theorem earliestChild_spec (hr : Ranked before heap) {hole child : Nat}
    (h : earliestChild before heap hole = some child) :
    IsChild child hole ∧ precedes before heap child hole = true
      ∧ ∀ c, IsChild c hole → precedes before heap c child = false := by
  simp only [earliestChild] at h
  split at h
  · next hl =>
    split at h
    · next hrl =>
      obtain rfl := Option.some.inj h
      refine ⟨.inr rfl, ?_, ?_⟩
      · -- were the right child level with its parent, the left one would be level with the right
        by_contra hrp
        have hlt := lt_size_of_precedes before hl
        have hnot := hr.not_precedes_trans (by omega) (Bool.not_eq_true _ ▸ hrp)
          (hr.precedes_asymm hl)
        rw [hrl] at hnot
        cases hnot
      · rintro c (rfl | rfl)
        · exact hr.precedes_asymm hrl
        · exact hr.not_precedes_self
    · next hrl =>
      obtain rfl := Option.some.inj h
      refine ⟨.inl rfl, hl, ?_⟩
      rintro c (rfl | rfl)
      · exact hr.not_precedes_self
      · exact Bool.not_eq_true _ ▸ hrl
  · next hl =>
    split at h
    · next hrp =>
      obtain rfl := Option.some.inj h
      have hlt := lt_size_of_precedes before hrp
      refine ⟨.inr rfl, hrp, ?_⟩
      rintro c (rfl | rfl)
      · exact hr.not_precedes_trans (by omega) (Bool.not_eq_true _ ▸ hl) (hr.precedes_asymm hrp)
      · exact hr.not_precedes_self
    · cases h

/-- Without an earliest child, no child must come out before its parent. -/
theorem not_precedes_of_earliestChild {hole : Nat} (h : earliestChild before heap hole = none)
    (hc : IsChild c hole) : precedes before heap c hole = false := by
  simp only [earliestChild] at h
  split at h
  · split at h <;> cases h
  · next hl =>
    split at h
    · cases h
    · next hrp =>
      rcases hc with rfl | rfl
      · exact Bool.not_eq_true _ ▸ hl
      · exact Bool.not_eq_true _ ▸ hrp

/-- Exchanging the hole with its earliest child moves the hole down. -/
theorem DownReady.swap {start hole child : Nat} (hr : Ranked before heap)
    (h : DownReady before heap start hole) (hstart : start ≤ hole)
    (hearliest : earliestChild before heap hole = some child) :
    DownReady before (heap.swapIfInBounds hole child) start child := by
  obtain ⟨hchild, hbefore, hmin⟩ := earliestChild_spec hr hearliest
  have hlt : hole < child ∧ child < heap.size := earliestChild_bounds before hearliest
  have hhole : hole < heap.size := Nat.lt_trans hlt.1 hlt.2
  constructor
  · intro p c hp hne hc
    rw [precedes_swapIfInBounds hhole hlt.2]
    by_cases hph : p = hole
    · subst hph
      rw [Equiv.swap_apply_left]
      -- the children of the old place are the entry that moved up and its sibling
      by_cases hcc : c = child
      · rw [hcc, Equiv.swap_apply_right]
        exact hr.precedes_asymm hbefore
      · have hcp : c ≠ p := by unfold IsChild at hc; omega
        rw [Equiv.swap_apply_of_ne_of_ne hcp hcc]
        exact hmin c hc
    · rw [Equiv.swap_apply_of_ne_of_ne hph hne]
      -- the child has come under the parent of the hole, where it is in order
      by_cases hch : c = hole
      · rw [hch, Equiv.swap_apply_left]
        exact h.grand p child hp (hch ▸ hc) hchild
      · have hcc : c ≠ child := by unfold IsChild at hc hchild; omega
        rw [Equiv.swap_apply_of_ne_of_ne hch hcc]
        exact h.except p c hp hph hc
  · intro p c hp hchild' hc
    have hph : p = hole := by unfold IsChild at hchild hchild'; omega
    have hch : c ≠ hole := by unfold IsChild at hc; omega
    have hcc : c ≠ child := by unfold IsChild at hc; omega
    rw [precedes_swapIfInBounds hhole hlt.2, hph, Equiv.swap_apply_left,
      Equiv.swap_apply_of_ne_of_ne hch hcc]
    exact h.except child c (by omega) (by omega) hc

/-- Moving down keeps the entries. -/
theorem siftDown_perm (before : β → β → Bool) (heap : Array β) (position : Nat) :
    (siftDown before heap position).toList.Perm heap.toList := by
  fun_induction siftDown before heap position with
  | case1 heap position child _ ih => exact ih.trans (swapIfInBounds_perm _ _ _)
  | case2 => exact List.Perm.refl _

/-- Moving down the only entry that may be out of place orders the heap from `start` on. -/
theorem siftDown_orderedFrom {start position : Nat} (hr : Ranked before heap)
    (h : DownReady before heap start position) (hstart : start ≤ position) :
    OrderedFrom before (siftDown before heap position) start := by
  fun_induction siftDown before heap position with
  | case1 heap position child hearliest ih =>
    have hlt := (earliestChild_bounds before hearliest).1
    exact ih (hr.swap _ _) (h.swap hr hstart hearliest) (by omega)
  | case2 heap position hnone =>
    intro p c hp hc
    by_cases hpp : p = position
    · subst hpp
      exact not_precedes_of_earliestChild hnone hc
    · exact h.except p c hp hpp hc

/-! ## The operations -/

/-- Adding an entry keeps the entries and adds it. -/
theorem push_perm (before : β → β → Bool) (heap : Array β) (x : β) :
    (push before heap x).toList.Perm (x :: heap.toList) := by
  refine (siftUp_perm _ _ _).trans ?_
  rw [Array.toList_push]
  exact List.perm_append_singleton x heap.toList

/-- Adding an entry keeps a heap ordered. -/
theorem push_ordered {x : β} (hr : Ranked before (heap.push x)) (h : Ordered before heap) :
    Ordered before (push before heap x) := by
  refine siftUp_ordered hr ⟨fun p c hc hne => ?_, fun p c _ hc => ?_⟩
  · by_cases hlt : c < heap.size
    · have hp : p < heap.size := by unfold IsChild at hc; omega
      have hold := h p c (Nat.zero_le _) hc
      rw [precedes_of_lt hlt hp] at hold
      rw [precedes_of_lt (by simp; omega) (by simp; omega), Array.getElem_push_lt hlt,
        Array.getElem_push_lt hp]
      exact hold
    · exact precedes_of_size_le_left (by simp; omega)
  · exact precedes_of_size_le_left (by unfold IsChild at hc; simp; omega)

/-- Taking the root out keeps the other entries. -/
theorem dropRoot_perm (before : β → β → Bool) {x : β} (h : heap[0]? = some x) :
    (x :: (dropRoot before heap).toList).Perm heap.toList := by
  have hsize : 0 < heap.size := (Array.getElem?_eq_some_iff.mp h).1
  have hlast : heap.size - 1 < heap.size := by omega
  refine (List.Perm.cons x (siftDown_perm _ _ _)).trans ?_
  refine List.Perm.trans ?_ (swapIfInBounds_perm heap 0 (heap.size - 1))
  generalize hs : heap.swapIfInBounds 0 (heap.size - 1) = swapped
  have hsize' : 0 < swapped.size := by rw [← hs, Array.size_swapIfInBounds]; exact hsize
  have hback : swapped.back? = some x := by
    rw [Array.back?, ← hs, Array.size_swapIfInBounds, getElem?_swapIfInBounds hsize hlast,
      Equiv.swap_apply_right, h]
  obtain ⟨front, rfl⟩ := Array.back?_eq_some_iff.mp hback
  rw [Array.pop_push, Array.toList_push]
  exact (List.perm_append_singleton x front.toList).symm

/-- Taking the root out keeps a heap ordered. -/
theorem dropRoot_ordered (hr : Ranked before heap) (h : Ordered before heap) :
    Ordered before (dropRoot before heap) := by
  refine siftDown_orderedFrom (hr.mono fun x hx => ?_) ⟨fun p c _ hp hc => ?_, fun p c _ hc => ?_⟩
    (Nat.zero_le _)
  · rw [← Array.mem_toList_iff] at hx ⊢
    rw [Array.toList_pop] at hx
    exact (swapIfInBounds_perm _ _ _).mem_iff.mp (List.dropLast_subset _ hx)
  · -- positions other than the root and the last keep their entries
    by_cases hlt : c < heap.size - 1
    · have hpc : p < c := by unfold IsChild at hc; omega
      have hold := h p c (Nat.zero_le _) hc
      have hsize : (heap.swapIfInBounds 0 (heap.size - 1)).pop.size = heap.size - 1 := by simp
      rw [precedes_of_lt (by omega) (by omega)] at hold
      rw [precedes_of_lt (by omega) (by omega), Array.getElem_pop, Array.getElem_pop]
      rw [Array.getElem_swapIfInBounds, Array.getElem_swapIfInBounds]
      have hc0 : c ≠ 0 := by omega
      have hcl : c ≠ heap.size - 1 := by omega
      have hpl : p ≠ heap.size - 1 := by omega
      simpa [hc0, hcl, hp, hpl] using hold
    · exact precedes_of_size_le_left (by simp; omega)
  · unfold IsChild at hc
    omega

/-- Moving down the parents below `n` one after the other keeps the entries. -/
theorem foldl_siftDown_perm (before : β → β → Bool) (positions : List Nat) (heap : Array β) :
    (positions.foldl (siftDown before) heap).toList.Perm heap.toList := by
  induction positions generalizing heap with
  | nil => exact List.Perm.refl _
  | cons position rest ih => exact (ih _).trans (siftDown_perm _ _ _)

/-- Ordering an array keeps the entries. -/
theorem heapify_perm (before : β → β → Bool) (heap : Array β) :
    (heapify before heap).toList.Perm heap.toList :=
  foldl_siftDown_perm before _ heap

/-- Moving down the first `n` positions, from the last to the first, orders a heap that is ordered
from `n` on. -/
theorem foldl_siftDown_ordered (n : Nat) (hr : Ranked before heap)
    (h : OrderedFrom before heap n) :
    Ordered before ((List.range n).reverse.foldl (siftDown before) heap) := by
  induction n generalizing heap with
  | zero => exact h
  | succ n ih =>
    rw [List.range_succ, List.reverse_append, List.foldl_append]
    refine ih (hr.mono fun x hx => ?_)
      (siftDown_orderedFrom hr ⟨fun p c hp hne hc => h p c (by omega) hc, fun p c hp hc => ?_⟩
        (Nat.le_refl n))
    · rw [← Array.mem_toList_iff] at hx ⊢
      exact (siftDown_perm _ _ _).mem_iff.mp hx
    · unfold IsChild at hc
      omega

/-- Ordering an array makes it an ordered heap. -/
theorem heapify_ordered (hr : Ranked before heap) : Ordered before (heapify before heap) := by
  refine foldl_siftDown_ordered _ hr fun p c hp hc => precedes_of_size_le_left ?_
  unfold IsChild at hc
  omega

end BranchBound.Heap
