import BranchBound.Proofs.Brancher.Children

/-! # The ids of children

The children of a node in every dimension take ids one after the other, as long as the ids do not
run out. So no child has the id of a node that was made before, and no two children share one.

* **`Brancher.Twins`** — two nodes are the children of a node in a dimension.
* **`Brancher.allChildren_twins`** — the children of a node in every dimension are such pairs, and
  the ids that they took are the ones that were given out. -/

namespace BranchBound.Brancher

variable {α : Type} [Scalar α] {b c : Brancher α} {parent down up : Node α} {point x : List α}
  {vars : List (Variable α)} {first last : Nat}

/-- Two nodes are the children of a node in a dimension that is wide enough, with two ids between
two others. -/
inductive Twins (vars : List (Variable α)) (parent : Node α) (first last : Nat) (down up : Node α) :
    Prop
  /-- The lower child has the first of the two ids. -/
  | intro (i : Nat) (v : Variable α) (id : Nat) (hv : vars[i]? = some v)
      (hwide : ¬ parent.box.width i ≤ 0) (hfirst : first ≤ id) (hlast : id + 1 < last)
      (hdown : down = child parent (parts v.kind parent.box i).1 id)
      (hup : up = child parent (parts v.kind parent.box i).2 (id + 1))

/-- The ids may lie between others that are further apart. -/
theorem Twins.mono (h : Twins vars parent first last down up) {first' last' : Nat}
    (hfirst : first' ≤ first) (hlast : last ≤ last') : Twins vars parent first' last' down up := by
  obtain ⟨i, v, id, hv, hwide, hlow, hhigh, hdown, hup⟩ := h
  exact ⟨i, v, id, hv, hwide, by omega, by omega, hdown, hup⟩

/-- Pairs have twice as many members. -/
theorem length_flatMap_pair {β : Type} (ps : List (β × β)) :
    (ps.flatMap fun p => [p.1, p.2]).length = 2 * ps.length := by
  simp [List.length_flatMap, Nat.mul_comm]

/-- The children of a node in every dimension are twins, which took the ids that were given out. -/
theorem allChildren_twins {nodes : List (Node α)}
    (h : b.allChildren parent point = (.ok nodes, c))
    (hroom : b.frontier.nextId + nodes.length < wordRange) :
    c.frontier.nextId = b.frontier.nextId + nodes.length
      ∧ ∃ ps : List (Node α × Node α), nodes = ps.flatMap (fun p => [p.1, p.2])
        ∧ ∀ p ∈ ps, (roundDiscrete b.vars parent.box).isEmpty = false
          ∧ Twins b.vars { parent with box := roundDiscrete b.vars parent.box }
            b.frontier.nextId c.frontier.nextId p.1 p.2 := by
  refine allChildren_induct (motive := fun found d => b.frontier.nextId + found.length < wordRange →
    d.frontier.nextId = b.frontier.nextId + found.length
      ∧ ∃ ps : List (Node α × Node α), found = ps.flatMap (fun p => [p.1, p.2])
        ∧ ∀ p ∈ ps, (roundDiscrete b.vars parent.box).isEmpty = false
          ∧ Twins b.vars { parent with box := roundDiscrete b.vars parent.box }
            b.frontier.nextId d.frontier.nextId p.1 p.2) h (fun _ => ⟨rfl, [], rfl, nofun⟩) ?_ hroom
  intro hfull found d i v down up e hv hwide hsplit hfound hroom
  rw [show (found ++ [down.node, up.node]).length = found.length + 2 from List.length_append]
    at hroom ⊢
  obtain ⟨hnext, ps, rfl, htwins⟩ := hfound (by omega)
  -- the split takes the next two ids
  obtain ⟨-, -, he⟩ := split_ids hsplit (by omega)
  obtain ⟨hdown, hup⟩ := split_nodes hsplit
  rw [Nat.mod_eq_of_lt (by omega)] at hup
  have hlast : ((e.handOut down).handOut up).frontier.nextId = d.frontier.nextId + 2 := by
    rw [he]
    rfl
  rw [hlast]
  refine ⟨by omega, ps ++ [(down.node, up.node)], ?_, fun p hp => ⟨hfull, ?_⟩⟩
  · rw [List.flatMap_append]
    rfl
  · rcases List.mem_append.mp hp with hp | hp
    · exact (htwins p hp).2.mono (Nat.le_refl _) (Nat.le_add_right _ _)
    · rw [List.mem_singleton.mp hp]
      exact .intro i v _ hv hwide (by omega) (Nat.lt_succ_self _) hdown hup

end BranchBound.Brancher
