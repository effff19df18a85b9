import BranchBound.Proofs.Frontier.Checking
import Mathlib.Order.Bounds.Basic

/-! # The slots of a frontier

Every slot of the arena is either in the heap or free, and it is in the heap just if it holds a
node. A node that is offered goes into a free slot if there is one, so the arena grows only when all
its slots hold nodes: it never has more slots than nodes were open at one time.

* **`Frontier.Consistent.perm_range`** — the slots in the heap and the free ones are all slots.
* **`Frontier.Consistent.size_eq_countP`** — the size counts the slots that hold a node.
* **`Frontier.slots_step`** — a request that makes the arena grow finds no slot free and leaves none
  free.
* **`Frontier.sizes`**, **`Frontier.Consistent.isGreatest_slots`** — after a run of requests, the
  arena has as many slots as nodes were ever open at one time.
* **`Frontier.stowed_after`** — what holds of the slots after any requests. -/

namespace BranchBound.Frontier

variable {α : Type} [Scalar α] {f : Frontier α} {slot : Nat}

/-! ## One frontier -/

/-- A slot is in the heap just if it holds a node. -/
theorem Consistent.mem_heap_iff (h : f.Consistent) :
    slot ∈ f.heap.toList ↔ ∃ n, f.slots[slot]? = some (some n) := by
  rw [h.inUse, Option.isSome_iff_exists]
  exact exists_congr fun n => Option.join_eq_some_iff

/-- The slots in the heap and the free ones are all slots of the arena. -/
theorem Consistent.perm_range (h : f.Consistent) :
    (f.heap.toList ++ f.free).Perm (List.range f.slots.size) := by
  have hnodup : (f.heap.toList ++ f.free).Nodup := by
    refine List.nodup_append.mpr ⟨h.nodup, h.freeNodup, ?_⟩
    rintro slot hheap _ hfree rfl
    obtain ⟨n, hn⟩ := h.mem_heap_iff.mp hheap
    rw [(h.vacant slot).mp hfree] at hn
    cases hn
  refine (List.perm_ext_iff_of_nodup hnodup List.nodup_range).mpr fun slot => ?_
  rw [List.mem_append, List.mem_range]
  constructor
  · rintro (hheap | hfree)
    · exact h.lt_size hheap
    · exact h.lt_size_of_free hfree
  · intro hlt
    rw [h.mem_heap_iff, h.vacant, Array.getElem?_eq_getElem hlt]
    cases f.slots[slot] with
    | none => exact .inr rfl
    | some n => exact .inl ⟨n, rfl⟩

/-- The slots are as many as the open nodes and the free slots. -/
theorem Consistent.size_add_length_free (h : f.Consistent) :
    f.size + f.free.length = f.slots.size := by
  have hlength := h.perm_range.length_eq
  rwa [List.length_append, Array.length_toList, List.length_range] at hlength

omit [Scalar α] in
/-- The contents of the arena, slot by slot. -/
theorem slots_toList (f : Frontier α) :
    f.slots.toList = (List.range f.slots.size).map f.nodeAt? := by
  refine List.ext_getElem (by simp) fun slot hslot _ => ?_
  rw [List.getElem_map, List.getElem_range, Array.getElem_toList]
  exact Option.some.inj ((Array.getElem?_eq_getElem _).symm.trans (Checked.getElem?_of_lt hslot))

/-- The size is the number of slots that hold a node. -/
theorem Consistent.size_eq_countP (h : f.Consistent) : f.size = f.slots.countP Option.isSome := by
  have hheap : f.heap.toList.countP (fun slot => (f.nodeAt? slot).isSome) = f.heap.toList.length :=
    List.countP_eq_length.mpr fun slot => (h.inUse slot).mp
  have hfree : f.free.countP (fun slot => (f.nodeAt? slot).isSome) = 0 := by
    refine List.countP_eq_zero.mpr fun slot hslot => ?_
    rw [nodeAt?, (h.vacant slot).mp hslot]
    exact Bool.false_ne_true
  calc f.size
    _ = (f.heap.toList ++ f.free).countP (fun slot => (f.nodeAt? slot).isSome) := by
        rw [List.countP_append, hheap, hfree, Array.length_toList]
        rfl
    _ = (List.range f.slots.size).countP (fun slot => (f.nodeAt? slot).isSome) :=
        h.perm_range.countP_eq _
    _ = f.slots.countP Option.isSome := by
        rw [← Array.countP_toList, slots_toList, List.countP_map]
        rfl

/-- No entry of the heap has a child in it whose node is preferred to its own. -/
theorem Consistent.not_prefers_child (h : f.Consistent) {p c a b : Nat} (hchild : Heap.IsChild c p)
    (hp : f.heap[p]? = some a) (hc : f.heap[c]? = some b) :
    ∃ m n, f.nodeAt? a = some m ∧ f.nodeAt? b = some n ∧ f.selection.prefers n m = false := by
  have hin {i slot : Nat} (hi : f.heap[i]? = some slot) : ∃ n, f.nodeAt? slot = some n :=
    Option.isSome_iff_exists.mp
      ((h.inUse slot).mp (Array.mem_toList_iff.mpr (Array.mem_of_getElem? hi)))
  obtain ⟨m, hm⟩ := hin hp
  obtain ⟨n, hn⟩ := hin hc
  have hordered := h.ordered p c (Nat.zero_le p) hchild
  rw [Heap.precedes, hc, hp] at hordered
  exact ⟨m, n, hm, hn, slotBefore_eq hn hm ▸ hordered⟩

/-! ## One request -/

omit [Scalar α] in
/-- Emptying slots keeps the arena. -/
theorem size_foldl_vacate (dead : List Nat) (slots : Array (Option (OpenNode α))) :
    (dead.foldl (fun slots slot => slots.setIfInBounds slot none) slots).size = slots.size := by
  induction dead generalizing slots with
  | nil => rfl
  | cons slot rest ih => rw [List.foldl_cons, ih, Array.size_setIfInBounds]

/-- Taking a node keeps the size of the arena, or it adds a slot when none is free, and uses it. -/
theorem slots_place (f : Frontier α) (n : OpenNode α) :
    (f.place n).slots.size = f.slots.size
      ∨ f.free = [] ∧ (f.place n).free = [] ∧ (f.place n).slots.size = f.slots.size + 1 := by
  simp only [place, claimSlot]
  cases f.free with
  | nil => exact .inr ⟨rfl, rfl, Array.size_push _⟩
  | cons slot free => exact .inl Array.size_setIfInBounds

/-- A request keeps the size of the arena, or it adds a slot when none is free, and uses it. -/
theorem slots_step (f : Frontier α) (op : Op α) :
    (f.step op).2.slots.size = f.slots.size
      ∨ f.free = [] ∧ (f.step op).2.free = [] ∧ (f.step op).2.slots.size = f.slots.size + 1 := by
  cases op with
  | insert n =>
    rw [step]
    cases hdom : f.dominates n.score with
    | true =>
      rw [insert_of_dominates hdom]
      exact .inl rfl
    | false =>
      rw [insert_of_not_dominates hdom]
      -- only a node that is taken needs a slot
      exact f.slots_place n
  | pop =>
    refine .inl ?_
    unfold step
    dsimp only
    split
    · rfl
    · next hpop =>
      obtain ⟨slot, -, -, rfl⟩ := pop?_eq_some hpop
      exact Array.size_setIfInBounds
  | lowerThreshold threshold =>
    refine .inl ?_
    show (f.lowerThreshold threshold).2.slots.size = _
    by_cases hignored : Scalar.isNaN threshold = true ∨ f.threshold < threshold
    · rw [lowerThreshold_of_ignored hignored]
    · rw [lowerThreshold_of_not_ignored hignored]
      exact size_foldl_vacate _ _
  | setSelection selection =>
    refine .inl ?_
    show (f.setSelection selection).slots.size = _
    unfold setSelection
    split <;> rfl
  | setTolerances | takeId | reserveIds => exact .inl rfl

/-! ## Runs of requests -/

/-- The sizes that a frontier has had in the course of some requests. -/
def sizes (f : Frontier α) (ops : List (Op α)) : Set Nat :=
  {k | ∃ before, before <+: ops ∧ (f.after before).size = k}

/-- Before the first request there is one size. -/
theorem sizes_nil (f : Frontier α) : f.sizes [] = {f.size} := by
  ext k
  constructor
  · rintro ⟨before, hbefore, rfl⟩
    rw [List.prefix_nil.mp hbefore]
    rfl
  · rintro rfl
    exact ⟨[], List.prefix_refl _, rfl⟩

/-- One more request adds one size. -/
theorem sizes_concat (f : Frontier α) (ops : List (Op α)) (op : Op α) :
    f.sizes (ops ++ [op]) = Insert.insert (f.after (ops ++ [op])).size (f.sizes ops) := by
  ext k
  constructor
  · rintro ⟨before, hbefore, rfl⟩
    rcases List.prefix_concat_iff.mp hbefore with rfl | hbefore
    · exact .inl rfl
    · exact .inr ⟨before, hbefore, rfl⟩
  · rintro (rfl | ⟨before, hbefore, rfl⟩)
    · exact ⟨_, List.prefix_refl _, rfl⟩
    · exact ⟨before, hbefore.trans (List.prefix_append ops [op]), rfl⟩

variable [Scalar.Ordered α]

/-- After a request the arena is as large as before, or as large as the open nodes require. -/
theorem Consistent.slots_size_step (h : f.Consistent) (op : Op α) :
    (f.step op).2.slots.size = max f.slots.size (f.step op).2.size := by
  have hafter := (h.step op).size_add_length_free
  rcases f.slots_step op with hsame | ⟨-, hfull, hgrown⟩
  · omega
  · rw [hfull, List.length_nil] at hafter
    omega

/-- Through a run of requests from a frontier without slots, the arena has as many slots as nodes
were ever open at one time. -/
theorem Consistent.isGreatest_slots (h : f.Consistent) (hnone : f.slots.size = 0)
    (ops : List (Op α)) : IsGreatest (f.sizes ops) (f.after ops).slots.size := by
  induction ops using List.reverseRecOn with
  | nil =>
    have hsize : f.slots.size = f.size := by
      have := h.size_add_length_free
      omega
    rw [sizes_nil, after_nil, hsize]
    exact isGreatest_singleton
  | append_singleton rest op ih =>
    have hstep := (h.after rest).slots_size_step op
    rw [← after_nil ((f.after rest).step op).2, ← after_cons, ← after_append] at hstep
    rw [sizes_concat, hstep, max_comm]
    exact ih.insert _

/-- How nodes lie in the slots of a frontier that has answered some requests. -/
structure Stowed (f : Frontier α) (ops : List (Op α)) : Prop where
  /-- The heap holds no slot twice. -/
  heapNodup : (f.after ops).heap.toList.Nodup
  /-- No slot is free twice. -/
  freeNodup : (f.after ops).free.Nodup
  /-- The slots in the heap and the free ones are all slots of the arena. -/
  slots : ((f.after ops).heap.toList ++ (f.after ops).free).Perm
    (List.range (f.after ops).slots.size)
  /-- A slot is in the heap just if it holds a node. -/
  inUse : ∀ slot, slot ∈ (f.after ops).heap.toList
    ↔ ∃ n, (f.after ops).slots[slot]? = some (some n)
  /-- No entry of the heap has a child in it whose node is preferred to its own. -/
  ordered : ∀ p c a b, Heap.IsChild c p → (f.after ops).heap[p]? = some a →
    (f.after ops).heap[c]? = some b → ∃ m n, (f.after ops).nodeAt? a = some m
      ∧ (f.after ops).nodeAt? b = some n ∧ (f.after ops).selection.prefers n m = false
  /-- No request accesses a slot that does not exist or takes a node out of one that holds none. -/
  run : Checked.run f ops = some (f.run ops)
  /-- Nor does looking at the next node. -/
  peek : Checked.peek? (f.after ops) = some (f.after ops).peek?
  /-- Nor does listing the open nodes. -/
  toList : Checked.toList (f.after ops) = some (f.after ops).toList
  /-- The size is the number of slots that hold a node. -/
  size : (f.after ops).size = (f.after ops).slots.countP Option.isSome
  /-- There are as many slots as nodes were ever open at one time. -/
  peak : IsGreatest (f.sizes ops) (f.after ops).slots.size
  /-- A request makes the arena grow only if no slot is free. -/
  reused : ∀ op, (f.after ops).slots.size < ((f.after ops).step op).2.slots.size →
    (f.after ops).free = []

/-- Whatever is asked of a new frontier, every slot is free or in the heap, no access to a slot
fails, and slots are used again before the arena grows. -/
theorem stowed_after (selection : NodeSelection) (ops : List (Op α)) :
    (Frontier.new selection : Frontier α).Stowed ops := by
  have hnew := consistent_new (α := α) selection
  have h := hnew.after ops
  exact {
    heapNodup := h.nodup
    freeNodup := h.freeNodup
    slots := h.perm_range
    inUse := fun _ => h.mem_heap_iff
    ordered := fun _ _ _ _ => h.not_prefers_child
    run := hnew.checked_run ops
    peek := h.checked_peek
    toList := h.checked_toList
    size := h.size_eq_countP
    peak := hnew.isGreatest_slots rfl ops
    reused := fun op hgrows => by
      rcases slots_step ((Frontier.new selection).after ops) op with hsame | ⟨hfree, -⟩
      · omega
      · exact hfree }

/-- Requests that offer nodes of equal ids and one of no defined score; nodes are taken out and
fathomed, and more are offered under another selection. -/
def crowdedRequests : List (Op Float) :=
  [.insert (sampleNode 3 1), .insert (sampleNode (0 / 0) 1), .insert (sampleNode 3 1),
    .insert (sampleNode 1 1), .pop, .lowerThreshold 2, .setSelection .depthFirst,
    .insert (sampleNode 0 1), .insert (sampleNode 1 0), .pop]

/-- Four nodes are open at one time and two at the end; two of the four slots are free then. -/
theorem stowed_after_crowdedRequests :
    (Frontier.new .bestBound : Frontier Float).Stowed crowdedRequests
      ∧ ((Frontier.new .bestBound).after crowdedRequests).size = 2
      ∧ ((Frontier.new .bestBound).after crowdedRequests).slots.size = 4
      ∧ ((Frontier.new .bestBound).after crowdedRequests).free.length = 2 :=
  ⟨stowed_after .bestBound crowdedRequests, by decide +kernel, by decide +kernel,
    by decide +kernel⟩

end BranchBound.Frontier
