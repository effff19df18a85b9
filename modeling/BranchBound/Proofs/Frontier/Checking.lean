import BranchBound.Proofs.Frontier.Examining

/-! # Access to the arena, checked

A slot that the arena does not have reads as one that holds nothing, and nothing happens if it is
written to, so an operation that went astray would go unnoticed. Here are the operations of a
frontier again with every access checked: there is no answer if a slot is accessed that does not
exist, or if a node is to be taken out of a slot that holds none. Consistent frontiers always
answer, and they answer what the operations without checks do.

* **`Heap.Checked`** — moving entries of a heap by comparisons that may fail. `siftUp_eq` and
  `siftDown_eq` say that only entries of the heap are compared.
* **`Frontier.Checked`** — the operations with checks, up to `Checked.run`.
* **`Frontier.Consistent.checked_step`**, **`Frontier.Consistent.checked_run`** — the checks never
  fail. -/

namespace BranchBound

/-! ## Heaps -/

namespace Heap.Checked

variable {β : Type} (before? : β → β → Option Bool)

/-- Whether the entry at `i` must come out before the entry at `j`; false unless both exist. -/
def precedes (heap : Array β) (i j : Nat) : Option Bool :=
  match heap[i]?, heap[j]? with
  | some x, some y => before? x y
  | _, _ => some false

/-- Moves the entry at a position up until its parent need not come out after it. -/
def siftUp (heap : Array β) (position : Nat) : Option (Array β) :=
  if position = 0 then some heap
  else do
    let parent := (position - 1) / 2
    if ← precedes before? heap position parent then
      siftUp (heap.swapIfInBounds position parent) parent
    else some heap
termination_by position
decreasing_by omega

/-- The child that must come out before its parent and before its sibling, if a child must come out
before its parent at all; of two equal children, the left one. -/
def earliestChild (heap : Array β) (position : Nat) : Option (Option Nat) := do
  let left := 2 * position + 1
  let right := 2 * position + 2
  if ← precedes before? heap left position then
    if ← precedes before? heap right left then some (some right) else some (some left)
  else if ← precedes before? heap right position then some (some right)
  else some none

variable {before? : β → β → Option Bool} {heap : Array β}

/-- An entry that precedes another is within the array. -/
theorem lt_size_of_precedes {i j : Nat} (h : precedes before? heap i j = some true) :
    i < heap.size := by
  unfold precedes at h
  split at h
  · next x y hx _ => exact (Array.getElem?_eq_some_iff.1 hx).1
  · cases h

/-- The child chosen by `earliestChild` lies below its parent and within the array. -/
theorem earliestChild_bounds {position child : Nat}
    (h : earliestChild before? heap position = some (some child)) :
    position < child ∧ child < heap.size := by
  simp only [earliestChild, Option.bind_eq_bind, Option.bind_eq_some_iff] at h
  obtain ⟨hleft, hl, h⟩ := h
  -- an entry that comes before another one is an entry of the heap
  split at h
  · next hl' =>
    rw [hl'] at hl
    have := lt_size_of_precedes hl
    obtain ⟨hright, hr, h⟩ := Option.bind_eq_some_iff.mp h
    split at h
    · next hr' =>
      rw [hr'] at hr
      have := lt_size_of_precedes hr
      cases h
      omega
    · cases h
      omega
  · obtain ⟨hright, hr, h⟩ := Option.bind_eq_some_iff.mp h
    split at h
    · next hr' =>
      rw [hr'] at hr
      have := lt_size_of_precedes hr
      cases h
      omega
    · cases h

variable (before?) in
/-- Moves the entry at a position down until no child must come out before it. -/
def siftDown (heap : Array β) (position : Nat) : Option (Array β) :=
  match _h : earliestChild before? heap position with
  | some (some child) => siftDown (heap.swapIfInBounds position child) child
  | some none => some heap
  | none => none
termination_by heap.size - position
decreasing_by
  have := earliestChild_bounds ‹_ = some (some child)›
  simp only [Array.size_swapIfInBounds]
  omega

variable (before?) in
/-- Orders a whole array, from the last parent to the root. -/
def heapify (heap : Array β) : Option (Array β) :=
  (List.range (heap.size / 2)).reverse.foldlM (siftDown before?) heap

variable (before?) in
/-- Adds an entry at the end and moves it up. -/
def push (heap : Array β) (x : β) : Option (Array β) := siftUp before? (heap.push x) heap.size

variable (before?) in
/-- Takes the root out: the last entry takes its place and moves down. -/
def dropRoot (heap : Array β) : Option (Array β) :=
  siftDown before? ((heap.swapIfInBounds 0 (heap.size - 1)).pop) 0

/-! ### Comparisons that succeed -/

/-- The comparisons of the entries of a heap all succeed. -/
def Agrees (before? : β → β → Option Bool) (before : β → β → Bool) (heap : Array β) : Prop :=
  ∀ x ∈ heap, ∀ y ∈ heap, before? x y = some (before x y)

variable {before : β → β → Bool}

/-- Comparisons that succeed on some entries succeed on fewer entries. -/
theorem Agrees.mono {smaller : Array β} (h : Agrees before? before heap)
    (sub : ∀ x ∈ smaller.toList, x ∈ heap.toList) : Agrees before? before smaller := by
  intro x hx y hy
  rw [← Array.mem_toList_iff] at hx hy
  exact h x (Array.mem_toList_iff.mp (sub x hx)) y (Array.mem_toList_iff.mp (sub y hy))

/-- An exchange compares no new entries. -/
theorem Agrees.swap (h : Agrees before? before heap) (i j : Nat) :
    Agrees before? before (heap.swapIfInBounds i j) :=
  h.mono fun _ => (swapIfInBounds_perm heap i j).mem_iff.mp

/-- Two positions can be compared. -/
theorem precedes_eq (h : Agrees before? before heap) (i j : Nat) :
    precedes before? heap i j = some (Heap.precedes before heap i j) := by
  unfold precedes Heap.precedes
  cases hx : heap[i]? with
  | none => rfl
  | some x => cases hy : heap[j]? with
    | none => rfl
    | some y => exact h x (Array.mem_of_getElem? hx) y (Array.mem_of_getElem? hy)

/-- Entries are moved up. -/
theorem siftUp_eq (h : Agrees before? before heap) (position : Nat) :
    siftUp before? heap position = some (Heap.siftUp before heap position) := by
  fun_induction Heap.siftUp before heap position with
  | case1 heap =>
    rw [siftUp, if_pos rfl]
  | case2 heap position hne parent hbefore ih =>
    rw [siftUp, if_neg hne]
    dsimp only
    rw [precedes_eq h, hbefore]
    exact ih (h.swap _ _)
  | case3 heap position hne parent hbefore =>
    rw [siftUp, if_neg hne]
    dsimp only
    rw [precedes_eq h, Bool.eq_false_iff.mpr hbefore]
    rfl

/-- The earliest child is found. -/
theorem earliestChild_eq (h : Agrees before? before heap) (position : Nat) :
    earliestChild before? heap position = some (Heap.earliestChild before heap position) := by
  unfold earliestChild Heap.earliestChild
  simp only [precedes_eq h, Option.bind_eq_bind, Option.bind_some]
  split
  · split <;> rfl
  · split <;> rfl

/-- Entries are moved down. -/
theorem siftDown_eq (h : Agrees before? before heap) (position : Nat) :
    siftDown before? heap position = some (Heap.siftDown before heap position) := by
  fun_induction Heap.siftDown before heap position with
  | case1 heap position child hearliest ih =>
    have hchild := hearliest ▸ earliestChild_eq h position
    rw [siftDown]
    split
    · next hfound =>
      cases hchild.symm.trans hfound
      exact ih (h.swap _ _)
    · next hfound => cases hchild.symm.trans hfound
    · next hfound => cases hchild.symm.trans hfound
  | case2 heap position hearliest =>
    have hchild := hearliest ▸ earliestChild_eq h position
    rw [siftDown]
    split
    · next hfound => cases hchild.symm.trans hfound
    · rfl
    · next hfound => cases hchild.symm.trans hfound

/-- Entries are moved down one after the other. -/
theorem foldlM_siftDown_eq (h : Agrees before? before heap) (positions : List Nat) :
    positions.foldlM (siftDown before?) heap
      = some (positions.foldl (Heap.siftDown before) heap) := by
  induction positions generalizing heap with
  | nil => rfl
  | cons position rest ih =>
    rw [List.foldlM_cons, siftDown_eq h]
    exact ih (h.mono fun _ => (siftDown_perm _ _ _).mem_iff.mp)

/-- An array is put in order. -/
theorem heapify_eq (h : Agrees before? before heap) :
    heapify before? heap = some (Heap.heapify before heap) :=
  foldlM_siftDown_eq h _

/-- An entry is added. -/
theorem push_eq {x : β} (h : Agrees before? before (heap.push x)) :
    push before? heap x = some (Heap.push before heap x) :=
  siftUp_eq h _

/-- The root is taken out. -/
theorem dropRoot_eq (h : Agrees before? before heap) :
    dropRoot before? heap = some (Heap.dropRoot before heap) := by
  refine siftDown_eq (h.mono fun x hx => ?_) 0
  rw [Array.toList_pop] at hx
  exact (swapIfInBounds_perm _ _ _).mem_iff.mp (List.dropLast_subset _ hx)

end Heap.Checked

/-! ## Frontiers -/

namespace Frontier

variable {α : Type}

namespace Checked

/-! ### The arena -/

/-- Puts a node into a slot, or empties it. -/
def write (slots : Array (Option (OpenNode α))) (slot : Nat) (content : Option (OpenNode α)) :
    Option (Array (Option (OpenNode α))) :=
  if slot < slots.size then some (slots.setIfInBounds slot content) else none

/-- Some slots with what is in them. -/
def readAll (f : Frontier α) (slots : List Nat) : Option (List (Nat × Option (OpenNode α))) :=
  slots.mapM fun slot => f.slots[slot]?.map fun content => (slot, content)

variable {f : Frontier α} {slot : Nat}

/-- A slot of the arena can be written to. -/
theorem write_of_lt {slots : Array (Option (OpenNode α))} {content : Option (OpenNode α)}
    (h : slot < slots.size) : write slots slot content = some (slots.setIfInBounds slot content) :=
  if_pos h

/-- Slots of the arena can be emptied one after the other. -/
theorem foldlM_write {slots : Array (Option (OpenNode α))} {dead : List Nat}
    (h : ∀ slot ∈ dead, slot < slots.size) :
    dead.foldlM (fun slots slot => write slots slot none) slots
      = some (dead.foldl (fun slots slot => slots.setIfInBounds slot none) slots) := by
  induction dead generalizing slots with
  | nil => rfl
  | cons slot rest ih =>
    rw [List.foldlM_cons, write_of_lt (h slot List.mem_cons_self)]
    refine ih fun k hk => ?_
    rw [Array.size_setIfInBounds]
    exact h k (List.mem_cons_of_mem _ hk)

/-- A slot of the arena can be read. -/
theorem getElem?_of_lt (h : slot < f.slots.size) : f.slots[slot]? = some (f.nodeAt? slot) := by
  rw [nodeAt?, Array.getElem?_eq_getElem h]
  rfl

/-- Slots of the arena can be read one after the other. -/
theorem readAll_eq {slots : List Nat} (h : ∀ slot ∈ slots, slot < f.slots.size) :
    readAll f slots = some (slots.map fun slot => (slot, f.nodeAt? slot)) := by
  induction slots with
  | nil => rfl
  | cons slot rest ih =>
    have hrest := ih fun k hk => h k (List.mem_cons_of_mem _ hk)
    unfold readAll at hrest ⊢
    rw [List.mapM_cons, getElem?_of_lt (h slot List.mem_cons_self), hrest]
    rfl

/-! ### The operations -/

variable [Scalar α]

/-- Whether the node in slot `a` comes out before the node in slot `b`. -/
def slotBefore (f : Frontier α) (a b : Nat) : Option Bool := do
  let m? ← f.slots[a]?
  let n? ← f.slots[b]?
  match m?, n? with
  | some m, some n => some (f.selection.prefers m n)
  | _, _ => some false

/-- The slot for the next node, with the arena and the free slots once it is taken. -/
def claimSlot (f : Frontier α) (n : OpenNode α) :
    Option (Nat × Array (Option (OpenNode α)) × List Nat) :=
  match f.free with
  | slot :: free => (write f.slots slot (some n)).map fun slots => (slot, slots, free)
  | [] => some (f.slots.size, f.slots.push (some n), [])

/-- Offers a node; says whether it was taken. -/
def insert (f : Frontier α) (n : OpenNode α) : Option (Bool × Frontier α) :=
  if f.dominates n.score then
    some (false, { f with lowestRefused := Scalar.least f.lowestRefused n.score })
  else do
    let (slot, slots, free) ← claimSlot f n
    let f := { f with slots, free }
    let heap ← Heap.Checked.push (slotBefore f) f.heap slot
    some (true, { f with heap })

/-- The node that comes out next. -/
def peek? (f : Frontier α) : Option (Option (OpenNode α)) :=
  match f.heap[0]? with
  | none => some none
  | some slot => f.slots[slot]?

/-- Takes the next node out of its slot. -/
def pop? (f : Frontier α) : Option (Option (OpenNode α × Frontier α)) :=
  match f.heap[0]? with
  | none => some none
  | some slot => do
      let heap ← Heap.Checked.dropRoot (slotBefore f) f.heap
      let content ← f.slots[slot]?
      let n ← content
      let slots ← write f.slots slot none
      some (some (n, { f with heap, slots, free := slot :: f.free }))

/-- The open nodes, in the order of the heap. -/
def toList (f : Frontier α) : Option (List (OpenNode α)) :=
  (readAll f f.heap.toList).map fun entries => entries.filterMap Prod.snd

/-- Lowers the threshold and fathoms the nodes that reach it; returns their lowest score. -/
def lowerThreshold (f : Frontier α) (threshold : α) : Option (α × Frontier α) :=
  if Scalar.isNaN threshold ∨ f.threshold < threshold then some (Scalar.infinity, f)
  else do
    let f := { f with threshold }
    let entries ← readAll f f.heap.toList
    let scoreOf (entry : Nat × Option (OpenNode α)) :=
      entry.2.elim Scalar.infinity OpenNode.score
    let (dead, kept) := entries.partition fun entry => f.dominates (scoreOf entry)
    let lowest := dead.foldl (fun lowest entry => Scalar.least lowest (scoreOf entry))
      Scalar.infinity
    let slots ← (dead.map Prod.fst).foldlM (fun slots slot => write slots slot none) f.slots
    let f := { f with
      slots
      free := (dead.map Prod.fst).reverse ++ f.free
      fathomed := f.fathomed + dead.length }
    let heap ← Heap.Checked.heapify (slotBefore f) (kept.map Prod.fst).toArray
    some (lowest, { f with heap })

/-- Changes which node comes out first. -/
def setSelection (f : Frontier α) (selection : NodeSelection) : Option (Frontier α) :=
  if f.selection = selection then some f
  else do
    let f := { f with selection }
    let heap ← Heap.Checked.heapify (slotBefore f) f.heap
    some { f with heap }

/-- What a frontier answers, and the frontier afterwards. -/
def step (f : Frontier α) : Op α → Option (Answer α × Frontier α)
  | .insert n => (insert f n).map fun (taken, f) => (.offered taken, f)
  | .pop =>
      (pop? f).map fun
        | none => (.popped none, f)
        | some (n, f) => (.popped (some n), f)
  | .lowerThreshold threshold =>
      (lowerThreshold f threshold).map fun (lowest, f) => (.fathomed lowest, f)
  | .setTolerances rel abs => some (.done, f.setTolerances rel abs)
  | .setSelection selection => (setSelection f selection).map fun f => (.done, f)
  | .takeId => let (id, f) := f.takeId; some (.id id, f)
  | .reserveIds id => some (.done, f.reserveIds id)

/-- What a frontier answers to one request after the other. -/
def run (f : Frontier α) : List (Op α) → Option (List (Answer α) × Frontier α)
  | [] => some ([], f)
  | op :: ops => do
      let (answer, f) ← step f op
      let (answers, f) ← run f ops
      some (answer :: answers, f)

/-- Two slots of the arena can be compared. -/
theorem slotBefore_eq {a b : Nat} (ha : a < f.slots.size) (hb : b < f.slots.size) :
    slotBefore f a b = some (f.slotBefore a b) := by
  unfold slotBefore Frontier.slotBefore
  rw [getElem?_of_lt ha, getElem?_of_lt hb]
  cases f.nodeAt? a <;> cases f.nodeAt? b <;> rfl

/-- Slots of the arena can all be compared. -/
theorem agrees_slotBefore {heap : Array Nat} (h : ∀ slot ∈ heap.toList, slot < f.slots.size) :
    Heap.Checked.Agrees (slotBefore f) f.slotBefore heap := by
  intro a ha b hb
  exact slotBefore_eq (h a (Array.mem_toList_iff.mpr ha)) (h b (Array.mem_toList_iff.mpr hb))

end Checked

/-! ## Consistent frontiers -/

section

variable [Scalar α] {f : Frontier α} {slot : Nat}

/-- The heap refers to slots of the arena. -/
theorem Consistent.lt_size (h : f.Consistent) (hslot : slot ∈ f.heap.toList) :
    slot < f.slots.size := by
  by_contra hge
  have hin := (h.inUse slot).mp hslot
  rw [nodeAt?, Array.getElem?_eq_none (Nat.le_of_not_lt hge)] at hin
  cases hin

/-- The free slots are slots of the arena. -/
theorem Consistent.lt_size_of_free (h : f.Consistent) (hslot : slot ∈ f.free) :
    slot < f.slots.size :=
  (Array.getElem?_eq_some_iff.mp ((h.vacant slot).mp hslot)).1

/-- The node that comes out next is looked at in its slot. -/
theorem Consistent.checked_peek (h : f.Consistent) : Checked.peek? f = some f.peek? := by
  unfold Checked.peek? Frontier.peek?
  cases hroot : f.heap[0]? with
  | none => rfl
  | some slot =>
    have hslot : slot ∈ f.heap.toList := Array.mem_toList_iff.mpr (Array.mem_of_getElem? hroot)
    exact Checked.getElem?_of_lt (h.lt_size hslot)

/-- The open nodes are read from their slots. -/
theorem Consistent.checked_toList (h : f.Consistent) : Checked.toList f = some f.toList := by
  rw [Checked.toList, Checked.readAll_eq fun slot => h.lt_size, Option.map_some,
    List.filterMap_map]
  rfl

/-- A node is taken out of its slot. -/
theorem Consistent.checked_pop (h : f.Consistent) : Checked.pop? f = some f.pop? := by
  unfold Checked.pop? Frontier.pop?
  cases hroot : f.heap[0]? with
  | none => rfl
  | some slot =>
    have hslot : slot ∈ f.heap.toList := Array.mem_toList_iff.mpr (Array.mem_of_getElem? hroot)
    obtain ⟨n, hn⟩ := Option.isSome_iff_exists.mp ((h.inUse slot).mp hslot)
    have hlt := h.lt_size hslot
    dsimp only
    rw [Heap.Checked.dropRoot_eq (Checked.agrees_slotBefore fun slot => h.lt_size),
      Checked.getElem?_of_lt hlt, hn, Checked.write_of_lt hlt]
    rfl

/-- The slot for a new node is one of the arena. -/
theorem Consistent.checked_claimSlot (h : f.Consistent) (n : OpenNode α) :
    Checked.claimSlot f n = some (f.claimSlot n) := by
  unfold Checked.claimSlot Frontier.claimSlot
  cases hfree : f.free with
  | nil => rfl
  | cons slot free =>
    have hlt := h.lt_size_of_free (hfree ▸ List.mem_cons_self (a := slot))
    dsimp only
    rw [Checked.write_of_lt hlt]
    rfl

/-- The heap is put in another order. -/
theorem Consistent.checked_setSelection (h : f.Consistent) (selection : NodeSelection) :
    Checked.setSelection f selection = some (f.setSelection selection) := by
  unfold Checked.setSelection Frontier.setSelection
  split
  · rfl
  · refine Option.bind_eq_some_iff.mpr ⟨_, Heap.Checked.heapify_eq ?_, rfl⟩
    exact Checked.agrees_slotBefore fun slot => h.lt_size

/-- The slots in the heap, with the nodes in them, divided up by whether a threshold dominates the
nodes. -/
theorem partition_entries (f : Frontier α) (threshold : α) :
    (f.heap.toList.map fun slot => (slot, f.nodeAt? slot)).partition (fun entry =>
        { f with threshold }.dominates (entry.2.elim Scalar.infinity OpenNode.score))
      = ((f.heap.toList.filter (f.dead threshold)).map (fun slot => (slot, f.nodeAt? slot)),
        (f.heap.toList.filter fun slot => !f.dead threshold slot).map
          fun slot => (slot, f.nodeAt? slot)) := by
  rw [List.partition_eq_filter_filter, List.filter_map, List.filter_map]
  rfl

omit [Scalar α] in
/-- The slots among slots with the nodes in them. -/
theorem map_fst_entries (f : Frontier α) (slots : List Nat) :
    (slots.map fun slot => (slot, f.nodeAt? slot)).map Prod.fst = slots := by
  rw [List.map_map]
  exact List.map_id slots

variable [Scalar.Ordered α]

/-- A node finds its slot and its place in the heap. -/
theorem Consistent.checked_insert (h : f.Consistent) (n : OpenNode α) :
    Checked.insert f n = some (f.insert n) := by
  unfold Checked.insert
  cases hdom : f.dominates n.score with
  | true =>
    rw [if_pos rfl, insert_of_dominates hdom]
  | false =>
    rw [if_neg Bool.false_ne_true, Frontier.insert_of_not_dominates hdom]
    refine Option.bind_eq_some_iff.mpr ⟨_, h.checked_claimSlot n, ?_⟩
    refine Option.bind_eq_some_iff.mpr ⟨_, Heap.Checked.push_eq ?_, rfl⟩
    -- the heap with the new slot at its end refers to slots of the arena that holds the node
    refine Checked.agrees_slotBefore fun slot hslot => (h.place n).lt_size ?_
    rw [Array.toList_push] at hslot
    exact (place_heap_perm f n).mem_iff.mpr ((List.perm_append_singleton _ _).mem_iff.mp hslot)

/-- The nodes that a threshold dominates are found in their slots. -/
theorem Consistent.checked_lowerThreshold (h : f.Consistent) (threshold : α) :
    Checked.lowerThreshold f threshold = some (f.lowerThreshold threshold) := by
  unfold Checked.lowerThreshold
  by_cases hignored : Scalar.isNaN threshold = true ∨ f.threshold < threshold
  · rw [if_pos hignored, lowerThreshold_of_ignored hignored]
  · rw [if_neg hignored, lowerThreshold_of_not_ignored hignored]
    have hread : Checked.readAll (f.withThreshold threshold) f.heap.toList
        = some (f.heap.toList.map fun slot => (slot, f.nodeAt? slot)) :=
      Checked.readAll_eq (f := f.withThreshold threshold) fun slot => h.lt_size
    refine Option.bind_eq_some_iff.mpr ⟨_, hread, ?_⟩
    dsimp only
    rw [f.partition_entries threshold]
    dsimp only
    rw [map_fst_entries, map_fst_entries, List.foldl_map, List.length_map]
    refine Option.bind_eq_some_iff.mpr ⟨_, Checked.foldlM_write fun slot hslot => ?_, ?_⟩
    · exact h.lt_size (List.mem_of_mem_filter hslot)
    · refine Option.bind_eq_some_iff.mpr ⟨_, Heap.Checked.heapify_eq ?_, rfl⟩
      refine Checked.agrees_slotBefore fun slot hslot => (h.fathomFrom threshold).lt_size ?_
      rw [List.toList_toArray] at hslot
      exact (fathomFrom_heap_perm f threshold).mem_iff.mpr hslot

/-- No check fails whatever is asked. -/
theorem Consistent.checked_step (h : f.Consistent) (op : Op α) :
    Checked.step f op = some (f.step op) := by
  cases op with
  | insert n =>
    rw [Checked.step, h.checked_insert]
    rfl
  | pop =>
    rw [Checked.step, h.checked_pop, Frontier.step]
    cases f.pop? <;> rfl
  | lowerThreshold threshold =>
    rw [Checked.step, h.checked_lowerThreshold]
    rfl
  | setSelection selection =>
    rw [Checked.step, h.checked_setSelection]
    rfl
  | setTolerances | takeId | reserveIds => rfl

/-- No check fails in any run of requests. -/
theorem Consistent.checked_run (h : f.Consistent) (ops : List (Op α)) :
    Checked.run f ops = some (f.run ops) := by
  induction ops generalizing f with
  | nil => rfl
  | cons op rest ih =>
    refine Option.bind_eq_some_iff.mpr ⟨_, h.checked_step op, ?_⟩
    exact Option.bind_eq_some_iff.mpr ⟨_, ih (h.step op), rfl⟩

end

/-- A heap that refers to a slot that holds nothing, or to one that does not exist, is noticed. -/
example : ∀ slots ∈ [#[none], #[]],
    (Checked.run { (Frontier.new .bestBound : Frontier Float) with slots, heap := #[0] }
      [.pop]).isNone := by
  decide +kernel

end Frontier

end BranchBound
