import BranchBound.Frontier.Basic
import BranchBound.Proofs.Frontier.HeapOrder
import BranchBound.Proofs.Scalar.Order
import Mathlib.Data.List.Basic

/-! # The arena of a frontier

A frontier is consistent if its slots are divided up between the heap and the free ones and the heap
is in order. All operations keep this, and what they do to the open nodes can then be said without
the arena, up to the order in which `Frontier.toList` lists them.

* **`Frontier.Consistent`** — the invariant; `consistent_new` has it at the start, and one
  `Consistent.…` theorem for each operation keeps it.
* **`Consistent.toList_place`**, **`Consistent.toList_pop`**, **`Consistent.toList_fathomFrom`**,
  **`toList_setSelection`** — what the operations do to the open nodes.
* **`Consistent.not_prefers_of_pop`** — no node that stays is preferred to the one that comes out.
* **`isLowest_lowestScore`**, **`Consistent.isLowest_fathomFrom`** — the lowest scores answered. -/

namespace BranchBound

variable {α : Type} [Scalar α]

/-! ## The preference for a node -/

namespace NodeSelection

variable {selection : NodeSelection} {a b c : OpenNode α}

/-- Best bound first does not prefer a node of a lower selection score, nor one of the same
selection score that has no lower id. -/
theorem bestBound_not_prefers : bestBound.prefers a b = false ↔
    Scalar.order a.selectionScore b.selectionScore = .lt
      ∨ Scalar.order a.selectionScore b.selectionScore = .eq ∧ b.id ≤ a.id := by
  simp only [prefers]
  cases Scalar.order a.selectionScore b.selectionScore <;> simp

variable [Scalar.Ordered α]

/-- Of two nodes at most one is preferred to the other. -/
theorem prefers_asymm (h : selection.prefers a b = true) : selection.prefers b a = false := by
  cases selection with
  | bestBound =>
    rw [bestBound_not_prefers, Scalar.order_eq_swap b.selectionScore]
    simp only [prefers] at h
    cases hab : Scalar.order a.selectionScore b.selectionScore with
    | lt => rw [hab] at h; cases h
    | gt => exact .inl rfl
    | eq =>
      rw [hab] at h
      exact .inr ⟨rfl, Nat.le_of_lt (of_decide_eq_true h)⟩
  | depthFirst =>
    simp only [prefers, decide_eq_true_eq, decide_eq_false_iff_not] at h ⊢
    omega
  | breadthFirst =>
    simp only [prefers, decide_eq_true_eq, decide_eq_false_iff_not] at h ⊢
    omega

/-- A node that is not preferred to a second one, which is not preferred to a third one, is not
preferred to the third. -/
theorem not_prefers_trans (hab : selection.prefers a b = false)
    (hbc : selection.prefers b c = false) : selection.prefers a c = false := by
  cases selection with
  | bestBound =>
    rw [bestBound_not_prefers] at hab hbc ⊢
    rcases hab with hab | ⟨hab, hid⟩
    · rcases hbc with hbc | ⟨hbc, -⟩
      · exact .inl (Std.TransCmp.lt_trans hab hbc)
      · exact .inl (Std.TransCmp.lt_of_lt_of_eq hab hbc)
    · rcases hbc with hbc | ⟨hbc, hid'⟩
      · exact .inl (Std.TransCmp.lt_of_eq_of_lt hab hbc)
      · exact .inr ⟨Std.TransCmp.eq_trans hab hbc, Nat.le_trans hid' hid⟩
  | depthFirst =>
    simp only [prefers, decide_eq_false_iff_not] at hab hbc ⊢
    omega
  | breadthFirst =>
    simp only [prefers, decide_eq_false_iff_not] at hab hbc ⊢
    omega

end NodeSelection

namespace Frontier

variable {f : Frontier α} {n m : OpenNode α} {slot : Nat}

/-! ## Consistent frontiers -/

/-- The slots are divided up between the heap and the free ones, and the heap is in order. -/
structure Consistent (f : Frontier α) : Prop where
  /-- The heap holds no slot twice. -/
  nodup : f.heap.toList.Nodup
  /-- The heap holds the slots in use. -/
  inUse : ∀ slot, slot ∈ f.heap.toList ↔ (f.nodeAt? slot).isSome
  /-- No slot is free twice. -/
  freeNodup : f.free.Nodup
  /-- The other slots are free. -/
  vacant : ∀ slot, slot ∈ f.free ↔ f.slots[slot]? = some none
  /-- No slot comes out before its parent. -/
  ordered : Heap.Ordered f.slotBefore f.heap

/-- Whether a frontier is consistent depends on its arena, its heap and its selection only. -/
theorem Consistent.of_eq {g : Frontier α} (h : f.Consistent) (hslots : g.slots = f.slots)
    (hfree : g.free = f.free) (hheap : g.heap = f.heap) (hselection : g.selection = f.selection) :
    g.Consistent := by
  cases g
  subst hslots hfree hheap hselection
  exact ⟨h.nodup, h.inUse, h.freeNodup, h.vacant, h.ordered⟩

/-- The next id does not matter. -/
theorem Consistent.withNextId (h : f.Consistent) (id : Nat) :
    ({ f with nextId := id } : Frontier α).Consistent :=
  h.of_eq rfl rfl rfl rfl

/-- So ids may be kept clear of. -/
theorem Consistent.reserveIds (h : f.Consistent) (id : Nat) : (f.reserveIds id).Consistent :=
  h.withNextId _

/-- An empty frontier is consistent. -/
theorem consistent_new (selection : NodeSelection) :
    (Frontier.new selection : Frontier α).Consistent where
  nodup := List.nodup_nil
  inUse slot := by simp [Frontier.new, nodeAt?]
  freeNodup := List.nodup_nil
  vacant slot := by simp [Frontier.new]
  ordered p c _ _ := Heap.precedes_of_size_le_left (Nat.zero_le _)

/-- An empty frontier holds no node. -/
@[simp] theorem toList_new (selection : NodeSelection) :
    (Frontier.new selection : Frontier α).toList = [] := rfl

/-- The open nodes are those in the slots. -/
theorem Consistent.mem_toList (h : f.Consistent) :
    n ∈ f.toList ↔ ∃ slot, f.nodeAt? slot = some n := by
  rw [toList, List.mem_filterMap]
  constructor
  · rintro ⟨slot, -, hslot⟩
    exact ⟨slot, hslot⟩
  · rintro ⟨slot, hslot⟩
    exact ⟨slot, (h.inUse slot).mpr (by rw [hslot]; rfl), hslot⟩

/-- As many slots of the heap as are listed hold as many nodes. -/
theorem Consistent.length_filterMap (h : f.Consistent) {slots : List Nat}
    (hslots : ∀ slot ∈ slots, slot ∈ f.heap.toList) :
    (slots.filterMap f.nodeAt?).length = slots.length := by
  induction slots with
  | nil => rfl
  | cons slot rest ih =>
    have hin := hslots slot (List.mem_cons_self ..)
    obtain ⟨n, hn⟩ := Option.isSome_iff_exists.mp ((h.inUse slot).mp hin)
    rw [List.filterMap_cons_some hn, List.length_cons, List.length_cons,
      ih fun s hs => hslots s (List.mem_cons_of_mem _ hs)]

/-- The size of a frontier is the number of its nodes. -/
theorem Consistent.size_eq_length (h : f.Consistent) : f.size = f.toList.length := by
  rw [toList, h.length_filterMap fun slot => id, Array.length_toList]
  rfl

/-- A frontier is empty if it has no nodes. -/
theorem Consistent.isEmpty_iff (h : f.Consistent) : f.isEmpty = true ↔ f.toList = [] := by
  rw [← List.length_eq_zero_iff, ← h.size_eq_length, isEmpty, size, Array.isEmpty_iff_size_eq_zero]

/-- The order of two slots in use is that of their nodes. -/
theorem slotBefore_eq {a b : Nat} {x y : OpenNode α} (ha : f.nodeAt? a = some x)
    (hb : f.nodeAt? b = some y) : f.slotBefore a b = f.selection.prefers x y := by
  simp only [slotBefore, ha, hb]

/-- The order of two slots depends on the selection and the nodes in them. -/
theorem slotBefore_congr {g : Frontier α} {a b : Nat} (hselection : g.selection = f.selection)
    (ha : g.nodeAt? a = f.nodeAt? a) (hb : g.nodeAt? b = f.nodeAt? b) :
    g.slotBefore a b = f.slotBefore a b := by
  simp only [slotBefore, ha, hb, hselection]

/-- Slots in use are ranked. -/
theorem ranked_slotBefore [Scalar.Ordered α] {heap : Array Nat}
    (h : ∀ slot ∈ heap, (f.nodeAt? slot).isSome) : Heap.Ranked f.slotBefore heap where
  asymm a ha b hb hab := by
    obtain ⟨x, hx⟩ := Option.isSome_iff_exists.mp (h a ha)
    obtain ⟨y, hy⟩ := Option.isSome_iff_exists.mp (h b hb)
    rw [slotBefore_eq hx hy] at hab
    rw [slotBefore_eq hy hx]
    exact NodeSelection.prefers_asymm hab
  trans a ha b hb c hc hab hbc := by
    obtain ⟨x, hx⟩ := Option.isSome_iff_exists.mp (h a ha)
    obtain ⟨y, hy⟩ := Option.isSome_iff_exists.mp (h b hb)
    obtain ⟨z, hz⟩ := Option.isSome_iff_exists.mp (h c hc)
    rw [slotBefore_eq hx hy] at hab
    rw [slotBefore_eq hy hz] at hbc
    rw [slotBefore_eq hx hz]
    exact NodeSelection.not_prefers_trans hab hbc

/-- The slots of a consistent frontier are ranked. -/
theorem Consistent.ranked [Scalar.Ordered α] (h : f.Consistent) :
    Heap.Ranked f.slotBefore f.heap :=
  ranked_slotBefore fun slot hslot => (h.inUse slot).mp (Array.mem_toList_iff.mpr hslot)

/-! ## Offering a node -/

/-- The slot for a new node was not in use. -/
theorem Consistent.nodeAt?_claimSlot (h : f.Consistent) (n : OpenNode α) :
    f.nodeAt? (f.claimSlot n).1 = none := by
  unfold claimSlot
  split
  · next slot free hfree =>
    have hvacant := (h.vacant slot).mp (by rw [hfree]; exact List.mem_cons_self ..)
    rw [nodeAt?, hvacant]
    rfl
  · rw [nodeAt?, Array.getElem?_eq_none (Nat.le_refl _)]
    rfl

/-- The new node lies in its slot, and the other slots are as before. -/
theorem Consistent.getElem?_claimSlot (h : f.Consistent) (n : OpenNode α) (k : Nat) :
    (f.claimSlot n).2.1[k]? = if k = (f.claimSlot n).1 then some (some n) else f.slots[k]? := by
  unfold claimSlot
  split
  · next slot free hfree =>
    have hvacant := (h.vacant slot).mp (by rw [hfree]; exact List.mem_cons_self ..)
    have hlt : slot < f.slots.size := (Array.getElem?_eq_some_iff.mp hvacant).1
    show (f.slots.setIfInBounds slot (some n))[k]? = _
    rw [Array.getElem?_setIfInBounds]
    by_cases hk : slot = k
    · rw [if_pos hk, if_pos hk.symm, if_pos (hk ▸ hlt)]
    · rw [if_neg hk, if_neg (Ne.symm hk)]
  · show (f.slots.push (some n))[k]? = _
    rw [Array.getElem?_push]

/-- The slot for a new node is no longer free, and the other free slots are as before. -/
theorem Consistent.mem_free_claimSlot (h : f.Consistent) (n : OpenNode α) (k : Nat) :
    k ∈ (f.claimSlot n).2.2 ↔ k ≠ (f.claimSlot n).1 ∧ k ∈ f.free := by
  unfold claimSlot
  split
  · next slot free hfree =>
    have hnodup := h.freeNodup
    rw [hfree, List.nodup_cons] at hnodup
    rw [hfree, List.mem_cons]
    constructor
    · intro hk
      exact ⟨fun (heq : k = slot) => hnodup.1 (heq ▸ hk), .inr hk⟩
    · rintro ⟨hne, heq | hk⟩
      · exact absurd heq hne
      · exact hk
  · next hfree =>
    rw [hfree]
    simp

/-- The frontier once a node was taken. -/
def place (f : Frontier α) (n : OpenNode α) : Frontier α :=
  let g := { f with slots := (f.claimSlot n).2.1, free := (f.claimSlot n).2.2 }
  { g with heap := Heap.push g.slotBefore g.heap (f.claimSlot n).1 }

/-- A node of a dominated score is refused and leaves its score. -/
theorem insert_of_dominates (hn : f.dominates n.score = true) :
    f.insert n = (false, { f with lowestRefused := Scalar.least f.lowestRefused n.score }) := by
  rw [insert, if_pos hn]

/-- A node of any other score is taken. -/
theorem insert_of_not_dominates (hn : f.dominates n.score = false) :
    f.insert n = (true, f.place n) := by
  rw [insert, if_neg (by rw [hn]; decide)]
  rfl

/-- The nodes in the slots once a node was taken. -/
theorem Consistent.nodeAt?_place (h : f.Consistent) (n : OpenNode α) (k : Nat) :
    (f.place n).nodeAt? k = if k = (f.claimSlot n).1 then some n else f.nodeAt? k := by
  show ((f.claimSlot n).2.1[k]?).join = _
  rw [h.getElem?_claimSlot]
  split <;> rfl

/-- The slots in use once a node was taken. -/
theorem place_heap_perm (f : Frontier α) (n : OpenNode α) :
    (f.place n).heap.toList.Perm ((f.claimSlot n).1 :: f.heap.toList) := Heap.push_perm _ _ _

/-- The slots that were in use hold the same nodes once a node was taken. -/
theorem Consistent.nodeAt?_place_of_mem (h : f.Consistent) (n : OpenNode α)
    (hslot : slot ∈ f.heap.toList) : (f.place n).nodeAt? slot = f.nodeAt? slot := by
  rw [h.nodeAt?_place, if_neg]
  rintro rfl
  have hin := (h.inUse _).mp hslot
  rw [h.nodeAt?_claimSlot] at hin
  cases hin

/-- Taking a node adds it to the open nodes. -/
theorem Consistent.toList_place (h : f.Consistent) (n : OpenNode α) :
    (f.place n).toList.Perm (n :: f.toList) := by
  refine ((place_heap_perm f n).filterMap _).trans (List.Perm.of_eq ?_)
  rw [List.filterMap_cons_some (by rw [h.nodeAt?_place, if_pos rfl]), toList]
  congr 1
  exact List.filterMap_congr fun slot hslot => h.nodeAt?_place_of_mem n hslot

/-- Taking a node keeps a frontier consistent. -/
theorem Consistent.place [Scalar.Ordered α] (h : f.Consistent) (n : OpenNode α) :
    (f.place n).Consistent := by
  -- the slot that is taken is not in the heap, as it holds no node yet
  have hnew : (f.claimSlot n).1 ∉ f.heap.toList := by
    rw [h.inUse, h.nodeAt?_claimSlot]
    exact Bool.false_ne_true
  have inUse : ∀ slot, slot ∈ (f.place n).heap.toList ↔ ((f.place n).nodeAt? slot).isSome := by
    intro slot
    rw [(place_heap_perm f n).mem_iff, List.mem_cons, h.nodeAt?_place, h.inUse]
    by_cases hslot : slot = (f.claimSlot n).1
    · simp [hslot]
    · simp [hslot]
  constructor
  case nodup => exact (place_heap_perm f n).nodup_iff.mpr (List.nodup_cons.mpr ⟨hnew, h.nodup⟩)
  case inUse => exact inUse
  case freeNodup =>
    show (f.claimSlot n).2.2.Nodup
    have hfree := h.freeNodup
    unfold claimSlot
    split
    · next slot free heq => rw [heq] at hfree; exact hfree.of_cons
    · exact List.nodup_nil
  case vacant =>
    intro slot
    show slot ∈ (f.claimSlot n).2.2 ↔ (f.claimSlot n).2.1[slot]? = some none
    rw [h.mem_free_claimSlot, h.vacant, h.getElem?_claimSlot]
    by_cases hslot : slot = (f.claimSlot n).1
    · simp [hslot]
    · simp [hslot]
  case ordered =>
    -- the slots that were in use hold what they held, so their order is as before
    refine Heap.push_ordered (ranked_slotBefore fun slot hslot => ?_)
      (h.ordered.congr fun a ha b hb => ?_)
    · rw [← Array.mem_toList_iff, Array.toList_push, List.mem_append, List.mem_singleton] at hslot
      refine (inUse slot).mp ((place_heap_perm f n).mem_iff.mpr ?_)
      exact List.mem_cons.mpr hslot.symm
    · exact slotBefore_congr rfl (h.nodeAt?_place_of_mem n (Array.mem_toList_iff.mpr ha))
        (h.nodeAt?_place_of_mem n (Array.mem_toList_iff.mpr hb))

/-! ## Taking the next node out -/

/-- A frontier without nodes has none to take out. -/
theorem Consistent.pop?_eq_none (h : f.Consistent) : f.pop? = none ↔ f.toList = [] := by
  rw [← h.isEmpty_iff, isEmpty, Array.isEmpty_iff_size_eq_zero]
  unfold pop?
  split
  · next hroot =>
    rw [Array.getElem?_eq_none_iff] at hroot
    exact iff_of_true rfl (Nat.le_zero.mp hroot)
  · next slot hroot =>
    have hlt : 0 < f.heap.size := (Array.getElem?_eq_some_iff.mp hroot).1
    have hslot : slot ∈ f.heap.toList := Array.mem_toList_iff.mpr (Array.mem_of_getElem? hroot)
    rw [Option.map_eq_none_iff]
    refine iff_of_false ?_ (Nat.ne_of_gt hlt)
    intro hnone
    have hin := (h.inUse slot).mp hslot
    rw [hnone] at hin
    cases hin

/-- The node that is taken out is the one looked at. -/
theorem peek?_eq_map_pop? (f : Frontier α) : f.peek? = f.pop?.map (·.1) := by
  unfold peek? pop?
  cases f.heap[0]? with
  | none => rfl
  | some slot =>
    simp only [Option.bind_eq_bind, Option.bind_some, Option.map_map]
    cases f.nodeAt? slot <;> rfl

/-- What taking a node out does: it was in the root of the heap. -/
theorem pop?_eq_some {g : Frontier α} (h : f.pop? = some (n, g)) :
    ∃ slot, f.heap[0]? = some slot ∧ f.nodeAt? slot = some n ∧
      g = { f with
        heap := Heap.dropRoot f.slotBefore f.heap
        slots := f.slots.setIfInBounds slot none
        free := slot :: f.free } := by
  unfold pop? at h
  split at h
  · cases h
  · next slot hroot =>
    rw [Option.map_eq_some_iff] at h
    obtain ⟨m, hm, heq⟩ := h
    cases heq
    exact ⟨slot, hroot, hm, rfl⟩

omit [Scalar α] in
/-- The nodes in the slots once a slot was emptied. -/
theorem nodeAt?_setIfInBounds (f : Frontier α) (slot k : Nat) :
    ((f.slots.setIfInBounds slot none)[k]?).join = if k = slot then none else f.nodeAt? k := by
  rw [Array.getElem?_setIfInBounds]
  by_cases hk : slot = k
  · rw [if_pos hk, if_pos hk.symm]
    split <;> rfl
  · rw [if_neg hk, if_neg (Ne.symm hk)]
    rfl

variable {g : Frontier α}

/-- Taking a node out leaves the other open nodes. -/
theorem Consistent.toList_pop (h : f.Consistent) (hpop : f.pop? = some (n, g)) :
    f.toList.Perm (n :: g.toList) := by
  obtain ⟨slot, hroot, hn, rfl⟩ := pop?_eq_some hpop
  have hperm := Heap.dropRoot_perm f.slotBefore hroot
  have hnodup := (hperm.nodup_iff.mpr h.nodup)
  refine (hperm.symm.filterMap _).trans (List.Perm.of_eq ?_)
  rw [List.filterMap_cons_some hn, toList]
  congr 1
  refine List.filterMap_congr fun k hk => ?_
  show _ = ((f.slots.setIfInBounds slot none)[k]?).join
  rw [nodeAt?_setIfInBounds, if_neg]
  rintro rfl
  exact (List.nodup_cons.mp hnodup).1 hk

/-- Taking a node out keeps a frontier consistent. -/
theorem Consistent.pop [Scalar.Ordered α] (h : f.Consistent) (hpop : f.pop? = some (n, g)) :
    g.Consistent := by
  obtain ⟨slot, hroot, hn, rfl⟩ := pop?_eq_some hpop
  have hperm := Heap.dropRoot_perm f.slotBefore hroot
  have hnodup := List.nodup_cons.mp (hperm.nodup_iff.mpr h.nodup)
  -- a slot beyond the arena would hold no node
  have hlt : slot < f.slots.size := by
    by_contra hge
    rw [nodeAt?, Array.getElem?_eq_none (Nat.le_of_not_lt hge)] at hn
    cases hn
  constructor
  case nodup => exact hnodup.2
  case inUse =>
    intro k
    show k ∈ (Heap.dropRoot f.slotBefore f.heap).toList
      ↔ ((f.slots.setIfInBounds slot none)[k]?).join.isSome
    rw [nodeAt?_setIfInBounds]
    by_cases hk : k = slot
    · subst hk
      simp [hnodup.1]
    · rw [if_neg hk, ← h.inUse, ← hperm.mem_iff, List.mem_cons]
      simp [hk]
  case freeNodup =>
    -- a slot that is free already holds no node
    refine List.nodup_cons.mpr ⟨fun hslot => ?_, h.freeNodup⟩
    rw [h.vacant] at hslot
    rw [nodeAt?, hslot] at hn
    cases hn
  case vacant =>
    intro k
    show k ∈ slot :: f.free ↔ (f.slots.setIfInBounds slot none)[k]? = some none
    rw [List.mem_cons, h.vacant, Array.getElem?_setIfInBounds]
    by_cases hk : slot = k
    · simp [hk, hk ▸ hlt]
    · simp [hk, Ne.symm hk]
  case ordered =>
    -- the slots that stay in the heap hold what they held
    refine (Heap.dropRoot_ordered h.ranked h.ordered).congr fun a ha b hb => ?_
    have hsame : ∀ k ∈ Heap.dropRoot f.slotBefore f.heap,
        ((f.slots.setIfInBounds slot none)[k]?).join = f.nodeAt? k := by
      intro k hk
      rw [nodeAt?_setIfInBounds, if_neg]
      rintro rfl
      exact hnodup.1 (Array.mem_toList_iff.mpr hk)
    exact slotBefore_congr rfl (hsame a ha) (hsame b hb)

/-- No node that stays is preferred to the one that comes out. -/
theorem Consistent.not_prefers_of_pop [Scalar.Ordered α] (h : f.Consistent)
    (hpop : f.pop? = some (n, g)) (hm : m ∈ g.toList) : f.selection.prefers m n = false := by
  have hmem : m ∈ f.toList := (h.toList_pop hpop).mem_iff.mpr (List.mem_cons_of_mem _ hm)
  obtain ⟨slot, hroot, hn, rfl⟩ := pop?_eq_some hpop
  obtain ⟨k, hk⟩ := h.mem_toList.mp hmem
  have hin : k ∈ f.heap.toList := (h.inUse k).mpr (by rw [hk]; rfl)
  obtain ⟨i, hi⟩ := Array.mem_iff_getElem?.mp (Array.mem_toList_iff.mp hin)
  have hroot' := Heap.not_precedes_root h.ranked h.ordered i
  rw [Heap.precedes, hi, hroot] at hroot'
  rw [← slotBefore_eq hk hn]
  exact hroot'

/-! ## Lowering the threshold -/

omit [Scalar α] in
/-- The slots once some of them were emptied. -/
theorem getElem?_foldl_vacate (dead : List Nat) (slots : Array (Option (OpenNode α))) (k : Nat) :
    (dead.foldl (fun slots slot => slots.setIfInBounds slot none) slots)[k]?
      = if k ∈ dead then slots[k]?.map fun _ => none else slots[k]? := by
  induction dead generalizing slots with
  | nil => simp
  | cons slot rest ih =>
    rw [List.foldl_cons, ih, Array.getElem?_setIfInBounds]
    by_cases hslot : slot = k
    · subst hslot
      rw [if_pos rfl, if_pos (List.mem_cons_self ..)]
      by_cases hlt : slot < slots.size
      · rw [if_pos hlt, Array.getElem?_eq_getElem hlt]
        split <;> rfl
      · rw [if_neg hlt, Array.getElem?_eq_none (Nat.le_of_not_lt hlt)]
        split <;> rfl
    · rw [if_neg hslot]
      simp only [List.mem_cons, Ne.symm hslot, false_or]

/-- The frontier with another threshold, before any node is fathomed. -/
def withThreshold (f : Frontier α) (threshold : α) : Frontier α := { f with threshold := threshold }

/-- The score of the node in a slot; infinity if there is none. -/
def scoreAt (f : Frontier α) (slot : Nat) : α :=
  (f.nodeAt? slot).elim Scalar.infinity OpenNode.score

/-- Whether a threshold dominates the node in a slot. -/
def dead (f : Frontier α) (threshold : α) (slot : Nat) : Bool :=
  (f.withThreshold threshold).dominates (f.scoreAt slot)

/-- The frontier once the nodes were fathomed that a threshold dominates. -/
def fathomFrom (f : Frontier α) (threshold : α) : Frontier α :=
  let out := f.heap.toList.filter (f.dead threshold)
  let g := { f with
    threshold := threshold
    slots := out.foldl (fun slots slot => slots.setIfInBounds slot none) f.slots
    free := out.reverse ++ f.free
    fathomed := f.fathomed + out.length }
  let kept := f.heap.toList.filter fun slot => !f.dead threshold slot
  { g with heap := Heap.heapify g.slotBefore kept.toArray }

/-- A threshold that is undefined or higher changes nothing. -/
theorem lowerThreshold_of_ignored {threshold : α}
    (h : Scalar.isNaN threshold = true ∨ f.threshold < threshold) :
    f.lowerThreshold threshold = (Scalar.infinity, f) := by
  rw [lowerThreshold, if_pos h]

/-- Any other threshold fathoms the nodes it dominates and answers their lowest score. -/
theorem lowerThreshold_of_not_ignored {threshold : α}
    (h : ¬ (Scalar.isNaN threshold = true ∨ f.threshold < threshold)) :
    f.lowerThreshold threshold =
      ((f.heap.toList.filter (f.dead threshold)).foldl
        (fun lowest slot => Scalar.least lowest (f.scoreAt slot)) Scalar.infinity,
        f.fathomFrom threshold) := by
  rw [lowerThreshold, if_neg h]
  simp only [List.partition_eq_filter_filter]
  rfl

variable {threshold : α}

/-- The nodes in the slots once a threshold was lowered. -/
theorem Consistent.nodeAt?_fathomFrom (h : f.Consistent) (threshold : α) (k : Nat) :
    (f.fathomFrom threshold).nodeAt? k = if f.dead threshold k then none else f.nodeAt? k := by
  have hslots : (f.fathomFrom threshold).nodeAt? k
      = if k ∈ f.heap.toList.filter (f.dead threshold) then none else f.nodeAt? k := by
    simp only [nodeAt?, fathomFrom]
    rw [getElem?_foldl_vacate]
    split
    · cases f.slots[k]? <;> rfl
    · rfl
  rw [hslots]
  cases hdead : f.dead threshold k with
  | false => simp [hdead]
  | true =>
    -- a slot that is not in the heap holds nothing anyway
    by_cases hk : k ∈ f.heap.toList
    · simp [hdead, hk]
    · rw [h.inUse, Option.not_isSome_iff_eq_none] at hk
      simp [hk]

/-- The slots in use once a threshold was lowered. -/
theorem fathomFrom_heap_perm (f : Frontier α) (threshold : α) :
    (f.fathomFrom threshold).heap.toList.Perm
      (f.heap.toList.filter fun slot => !f.dead threshold slot) := by
  refine (Heap.heapify_perm _ _).trans ?_
  rw [List.toList_toArray]

/-- Filtering slots by what is in them is filtering the nodes. -/
theorem Consistent.filterMap_filter (h : f.Consistent) (p : OpenNode α → Bool)
    (q : Nat → Bool) (hpq : ∀ slot n, f.nodeAt? slot = some n → q slot = p n) :
    (f.heap.toList.filter q).filterMap f.nodeAt? = f.toList.filter p := by
  rw [toList, List.filterMap_filter, List.filter_filterMap]
  refine List.filterMap_congr fun slot hslot => ?_
  obtain ⟨n, hn⟩ := Option.isSome_iff_exists.mp ((h.inUse slot).mp hslot)
  rw [hn, hpq slot n hn, Option.filter_some]

/-- Lowering the threshold leaves the open nodes that it does not dominate. -/
theorem Consistent.toList_fathomFrom (h : f.Consistent) (threshold : α) :
    (f.fathomFrom threshold).toList.Perm
      (f.toList.filter fun n => !(f.withThreshold threshold).dominates n.score) := by
  refine ((fathomFrom_heap_perm f threshold).filterMap _).trans (List.Perm.of_eq ?_)
  rw [← h.filterMap_filter (fun n => !(f.withThreshold threshold).dominates n.score)
    (fun slot => !f.dead threshold slot)
    (fun slot n hn => by rw [dead, scoreAt, hn]; rfl)]
  refine List.filterMap_congr fun slot hslot => ?_
  rw [List.mem_filter, Bool.not_eq_true'] at hslot
  rw [h.nodeAt?_fathomFrom, if_neg (by rw [hslot.2]; decide)]

/-- The slots of the nodes that a threshold dominates. -/
theorem Consistent.filterMap_dead (h : f.Consistent) (threshold : α) :
    (f.heap.toList.filter (f.dead threshold)).filterMap f.nodeAt?
      = f.toList.filter fun n => (f.withThreshold threshold).dominates n.score :=
  h.filterMap_filter _ _ fun slot n hn => by rw [dead, scoreAt, hn]; rfl

/-- Lowering the threshold counts the open nodes that it dominates. -/
theorem Consistent.fathomed_fathomFrom (h : f.Consistent) (threshold : α) :
    (f.fathomFrom threshold).fathomed = f.fathomed
      + (f.toList.filter fun n => (f.withThreshold threshold).dominates n.score).length := by
  rw [← h.filterMap_dead, h.length_filterMap fun slot => List.mem_of_mem_filter]
  rfl

/-- Lowering the threshold answers the lowest score of the open nodes that it dominates. -/
theorem Consistent.isLowest_fathomFrom [Scalar.Ordered α] (h : f.Consistent) (threshold : α) :
    Scalar.IsLowest
      {x | ∃ n ∈ f.toList, (f.withThreshold threshold).dominates n.score ∧ n.score = x}
      ((f.heap.toList.filter (f.dead threshold)).foldl
        (fun lowest slot => Scalar.least lowest (f.scoreAt slot)) Scalar.infinity) := by
  have hlow := Scalar.isLowest_foldl (f.heap.toList.filter (f.dead threshold)) f.scoreAt
  -- each node has one slot, so the scores of the nodes are those of the slots
  convert hlow using 1
  ext x
  have hscore : ∀ slot n, f.nodeAt? slot = some n → f.scoreAt slot = n.score := by
    intro slot n hn
    rw [scoreAt, hn]
    rfl
  constructor
  · rintro ⟨n, hn, hdom, rfl⟩
    obtain ⟨slot, hslot⟩ := h.mem_toList.mp hn
    have hin : slot ∈ f.heap.toList := (h.inUse slot).mpr (by rw [hslot]; rfl)
    refine ⟨slot, List.mem_filter.mpr ⟨hin, ?_⟩, hscore slot n hslot⟩
    rw [dead, hscore slot n hslot]
    exact hdom
  · rintro ⟨slot, hslot, rfl⟩
    obtain ⟨hin, hdead⟩ := List.mem_filter.mp hslot
    obtain ⟨n, hn⟩ := Option.isSome_iff_exists.mp ((h.inUse slot).mp hin)
    rw [dead, hscore slot n hn] at hdead
    exact ⟨n, h.mem_toList.mpr ⟨slot, hn⟩, hdead, (hscore slot n hn).symm⟩

/-- Lowering the threshold keeps a frontier consistent. -/
theorem Consistent.fathomFrom [Scalar.Ordered α] (h : f.Consistent) (threshold : α) :
    (f.fathomFrom threshold).Consistent := by
  have hperm := fathomFrom_heap_perm f threshold
  have inUse : ∀ slot, slot ∈ (f.fathomFrom threshold).heap.toList
      ↔ ((f.fathomFrom threshold).nodeAt? slot).isSome := by
    intro slot
    rw [hperm.mem_iff, List.mem_filter, h.nodeAt?_fathomFrom, h.inUse]
    cases f.dead threshold slot <;> simp
  have hfilter : (f.heap.toList.filter (f.dead threshold)).Nodup := h.nodup.filter _
  constructor
  case nodup => exact hperm.nodup_iff.mpr (h.nodup.filter _)
  case inUse => exact inUse
  case freeNodup =>
    show (_ ++ f.free).Nodup
    refine List.nodup_append.mpr ⟨(List.reverse_perm _).nodup_iff.mpr hfilter, h.freeNodup, ?_⟩
    -- a slot that becomes free held a node, so it was not free before
    rintro slot hslot _ hfree rfl
    rw [List.mem_reverse] at hslot
    have hin := (h.inUse slot).mp (List.mem_of_mem_filter hslot)
    rw [nodeAt?, (h.vacant slot).mp hfree] at hin
    cases hin
  case vacant =>
    intro slot
    simp only [Frontier.fathomFrom]
    rw [getElem?_foldl_vacate, List.mem_append, List.mem_reverse, h.vacant]
    by_cases hslot : slot ∈ f.heap.toList.filter (f.dead threshold)
    · rw [if_pos hslot]
      refine iff_of_true (.inl hslot) ?_
      obtain ⟨n, hn⟩ :=
        Option.isSome_iff_exists.mp ((h.inUse slot).mp (List.mem_of_mem_filter hslot))
      rw [Option.join_eq_some_iff.mp hn]
      rfl
    · rw [if_neg hslot]
      simp only [hslot, false_or]
  case ordered =>
    -- the order is made anew, which needs a node in each slot of the heap only
    refine Heap.heapify_ordered (ranked_slotBefore fun slot hslot => (inUse slot).mp ?_)
    rw [hperm.mem_iff]
    exact Array.mem_toList_iff.mpr hslot

/-! ## Changing the selection -/

/-- Changing the selection keeps the open nodes. -/
theorem toList_setSelection (f : Frontier α) (selection : NodeSelection) :
    (f.setSelection selection).toList.Perm f.toList := by
  unfold setSelection
  split
  · exact List.Perm.refl _
  · exact (Heap.heapify_perm _ _).filterMap _

/-- Changing the selection keeps a frontier consistent. -/
theorem Consistent.setSelection [Scalar.Ordered α] (h : f.Consistent)
    (selection : NodeSelection) : (f.setSelection selection).Consistent := by
  unfold Frontier.setSelection
  split
  · exact h
  · let g := { f with selection := selection }
    have hperm : (Heap.heapify g.slotBefore f.heap).toList.Perm f.heap.toList :=
      Heap.heapify_perm _ _
    refine ⟨hperm.nodup_iff.mpr h.nodup, fun slot => hperm.mem_iff.trans (h.inUse slot),
      h.freeNodup, h.vacant, Heap.heapify_ordered (ranked_slotBefore fun slot hslot => ?_)⟩
    exact (h.inUse slot).mp (Array.mem_toList_iff.mpr hslot)

/-! ## Lowest scores -/

/-- The lowest score of a frontier is the lowest one of its nodes. -/
theorem isLowest_lowestScore [Scalar.Ordered α] (f : Frontier α) :
    Scalar.IsLowest {x | ∃ n ∈ f.toList, n.score = x} f.lowestScore :=
  Scalar.isLowest_foldl f.toList OpenNode.score

end Frontier

end BranchBound
