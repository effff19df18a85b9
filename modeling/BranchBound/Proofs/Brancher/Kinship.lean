import BranchBound.Proofs.Brancher.Charges

/-! # What comes of a node

A node is tightened while it is processed, and then it is queued once more as a single point or
gives way to its parts: two of them, in the dimension that is chosen, or those in every dimension,
of which two are kept.

* **`Node.Tightened`**, **`Node.Advanced`** — a node after it was processed.
* **`Node.SplitFrom`** — a node is one of the parts of another one.
* **`Brancher.splitFrom_opened`**, **`Brancher.splitFrom_allChildren`** — branching and strong
  branching make nothing but parts. -/

namespace BranchBound

variable {α : Type} [Scalar α]

/-- Only the bounds and the score of a node differ, and no bound was moved outwards. -/
structure Node.Tightened (m n : Node α) : Prop where
  /-- The id is the same. -/
  id : m.id = n.id
  /-- So is the depth. -/
  depth : m.depth = n.depth
  /-- No bound was moved outwards. -/
  box : m.box.Shrunk n.box

/-- Every lower bound of the score of a node is one of that of another node. -/
def Node.KeepsBound (m n : Node α) : Prop := ∀ low, low ≤ n.score → low ≤ m.score

/-- A node was tightened and is not empty, and its score was not lowered. -/
structure Node.Advanced (m n : Node α) : Prop extends m.Tightened n where
  /-- The node is not empty. -/
  full : m.box.isEmpty = false
  /-- Its score was not lowered. -/
  bound : m.KeepsBound n

/-- Nodes may be tightened time and again, whatever their scores are. -/
theorem Node.composes_tightened [Scalar.Ordered α] :
    Node.Composes (Node.Tightened : Node α → Node α → Prop) where
  refl n := ⟨rfl, rfl, .refl n.box⟩
  trans h k := ⟨h.id.trans k.id, h.depth.trans k.depth, h.box.trans k.box⟩
  score n _ := ⟨rfl, rfl, .refl n.box⟩

/-- A node is a part of another one, whose bounds were moved to whole numbers before it was split in
a dimension. -/
structure Node.SplitFrom (vars : List (Variable α)) (i : Nat) (m n : Node α) : Prop where
  /-- The box that was split is not empty. -/
  full : (Brancher.roundDiscrete vars n.box).isEmpty = false
  /-- It was wide enough. -/
  wide : ¬ (Brancher.roundDiscrete vars n.box).width i ≤ 0
  /-- The node is the lower or the upper part. -/
  part : ∃ v, vars[i]? = some v
    ∧ (m.box = (Brancher.parts v.kind (Brancher.roundDiscrete vars n.box) i).1
      ∨ m.box = (Brancher.parts v.kind (Brancher.roundDiscrete vars n.box) i).2)
  /-- It is one level deeper. -/
  depth : m.depth = (n.depth + 1) % depthRange

namespace Brancher

variable {b c : Brancher α} {parent m : Node α} {point : List α} {objective tolerance : α}
  {outcome : Branching} {vars : List (Variable α)}

/-- Branching opens no other nodes. -/
theorem Branched.nodes_le [Scalar.Ordered α] (h : Branched b parent point objective outcome c)
    (hb : b.frontier.Consistent) :
    c.frontier.nodes ≤ b.opened parent objective outcome + b.frontier.nodes := by
  obtain ⟨new, hmembers, hnew, -⟩ := h.members_le hb
  have hnodes := Multiset.map_le_map (f := OpenNode.node) hmembers
  rw [Multiset.map_add, hnew] at hnodes
  exact hnodes

/-- Branching changes neither the variables nor the rule. -/
theorem Branched.rule (h : Branched b parent point objective outcome c) : c.rule = b.rule := by
  cases h with
  | dropped => rfl
  | requeued => rfl
  | @split i v hv down up d hsplit =>
    show d.rule = b.rule
    rw [split_brancher hsplit]

/-- The nodes that come of a split are parts of the node that was split. -/
theorem splitFrom_opened {i k l : Nat}
    (hjustified : b.Justified parent point tolerance (.split i k l))
    (hm : m ∈ b.opened parent objective (.split i k l)) : m.SplitFrom b.vars i parent := by
  obtain ⟨hfull, -, hchoose⟩ := hjustified
  obtain ⟨v, hv, hwide⟩ := width_of_choose hchoose
  rw [opened, hv] at hm
  dsimp only [Option.elim_some] at hm
  rcases Multiset.mem_cons.mp hm with rfl | hm
  · exact ⟨hfull, hwide, ⟨v, hv, .inl rfl⟩, rfl⟩
  · rw [Multiset.mem_singleton.mp hm]
    exact ⟨hfull, hwide, ⟨v, hv, .inr rfl⟩, rfl⟩

/-- The children of a node in every dimension are parts of it. -/
theorem splitFrom_allChildren {nodes : List (Node α)}
    (h : b.allChildren parent point = (.ok nodes, c)) (hm : m ∈ nodes) :
    ∃ i, m.SplitFrom b.vars i parent := by
  refine allChildren_induct (motive := fun found _ => ∀ m ∈ found, ∃ i, m.SplitFrom b.vars i parent)
    h nofun ?_ m hm
  intro hfull found d i v down up e hv hwide hsplit hfound m hm
  obtain ⟨hdown, hup⟩ := split_nodes hsplit
  rcases List.mem_append.mp hm with hm | hm
  · exact hfound m hm
  · rcases List.mem_pair.mp hm with rfl | rfl
    · rw [hdown]
      exact ⟨i, hfull, hwide, ⟨v, hv, .inl rfl⟩, rfl⟩
    · rw [hup]
      exact ⟨i, hfull, hwide, ⟨v, hv, .inr rfl⟩, rfl⟩

/-- The children of a node in every dimension differ from it as children do: they inherit its
score. -/
theorem exists_child_of_allChildren {nodes : List (Node α)}
    (h : b.allChildren parent point = (.ok nodes, c)) (hm : m ∈ nodes) :
    ∃ box id, m = child parent box id := by
  refine allChildren_induct
    (motive := fun found _ => ∀ m ∈ found, ∃ box id, m = child parent box id)
    h nofun ?_ m hm
  intro _ found d i v down up e _ _ hsplit hfound m hm
  obtain ⟨hdown, hup⟩ := split_nodes hsplit
  rcases List.mem_append.mp hm with hm | hm
  · exact hfound m hm
  · rcases List.mem_pair.mp hm with rfl | rfl
    · exact ⟨_, _, hdown⟩
    · exact ⟨_, _, hup⟩

/-- Splitting a node in every dimension does not change the rule. -/
theorem rule_allChildren (b : Brancher α) (parent : Node α) (point : List α) :
    (b.allChildren parent point).2.rule = b.rule := by
  refine allChildren_frame (motive := fun c => c.rule = b.rule) parent point rfl ?_
  intro d i v down up e _ hsplit hrule
  rw [handOut_split hsplit]
  exact hrule

end Brancher

end BranchBound
