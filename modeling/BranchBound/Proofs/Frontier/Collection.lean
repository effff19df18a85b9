import BranchBound.Proofs.Frontier.Arena
import BranchBound.Proofs.Scalar.Binary64Order
import Mathlib.Data.List.Infix
import Mathlib.Data.Multiset.Filter

/-! # A frontier is a plain collection

A `Collection` is what a frontier is meant to be: a finite collection of nodes, with the scores it
has refused and nothing about arenas, slots or heaps. Its operations are a relation
(`Collection.Step`), one or two rules for each operation of a frontier. Whatever is asked of a
frontier, in whatever order, it answers as the collection does.

* **`Frontier.Op`**, **`Frontier.Answer`**, **`Frontier.run`** — what can be asked of a frontier.
* **`Collection.Step`**, **`Collection.Run`** — how a collection answers; `Collection.Run.unique`
  says that it has no choice but between values that compare as equal.
* **`Frontier.Shows f c`** — all that can be read off `f` without changing it agrees with `c`.
* **`Frontier.run_refines`** — a frontier answers as a collection does, as long as no two open nodes
  share an id. -/

namespace BranchBound

variable {α : Type}

/-! ## What can be asked of a frontier -/

namespace Frontier

/-- What can be asked of a frontier. -/
inductive Op (α : Type)
  /-- Offer a node. -/
  | insert (n : OpenNode α)
  /-- Take the next node out. -/
  | pop
  /-- Lower the threshold. -/
  | lowerThreshold (threshold : α)
  /-- Set the tolerances. -/
  | setTolerances (rel abs : α)
  /-- Change which node comes out first. -/
  | setSelection (selection : NodeSelection)
  /-- Give out an id. -/
  | takeId
  /-- Keep clear of the ids up to one given out elsewhere. -/
  | reserveIds (id : Nat)

/-- What a frontier answers. -/
inductive Answer (α : Type)
  /-- Whether the node was taken. -/
  | offered (taken : Bool)
  /-- The node that came out; none if no node is open. -/
  | popped (n : Option (OpenNode α))
  /-- The lowest score that was fathomed. -/
  | fathomed (lowest : α)
  /-- An id. -/
  | id (id : Nat)
  /-- Nothing. -/
  | done

variable [Scalar α]

/-- What a frontier answers, and the frontier afterwards. -/
def step (f : Frontier α) : Op α → Answer α × Frontier α
  | .insert n => let (taken, f) := f.insert n; (.offered taken, f)
  | .pop =>
      match f.pop? with
      | none => (.popped none, f)
      | some (n, f) => (.popped (some n), f)
  | .lowerThreshold threshold =>
      let (lowest, f) := f.lowerThreshold threshold
      (.fathomed lowest, f)
  | .setTolerances rel abs => (.done, f.setTolerances rel abs)
  | .setSelection selection => (.done, f.setSelection selection)
  | .takeId => let (id, f) := f.takeId; (.id id, f)
  | .reserveIds id => (.done, f.reserveIds id)

/-- What a frontier answers to one request after the other. -/
def run (f : Frontier α) : List (Op α) → List (Answer α) × Frontier α
  | [] => ([], f)
  | op :: ops =>
      let (answer, f) := f.step op
      let (answers, f) := run f ops
      (answer :: answers, f)

/-- No two open nodes share an id. -/
def IdsDistinct (f : Frontier α) : Prop := (f.toList.map OpenNode.id).Nodup

instance (f : Frontier α) : Decidable f.IdsDistinct := inferInstanceAs (Decidable (List.Nodup _))

end Frontier

/-! ## The plain collection -/

/-- A node ranks above another one. -/
def NodeSelection.Outranks [Scalar α] (selection : NodeSelection) (n m : OpenNode α) : Prop :=
  match selection with
  | bestBound =>
      Scalar.order m.selectionScore n.selectionScore = .lt
        ∨ Scalar.order m.selectionScore n.selectionScore = .eq ∧ n.id < m.id
  | depthFirst => m.id < n.id
  | breadthFirst => n.id < m.id

/-- A finite collection of nodes. -/
structure Collection (α : Type) where
  /-- The nodes. -/
  nodes : Multiset (OpenNode α)
  /-- The scores of the nodes it has refused. -/
  refused : Multiset α
  /-- Which node comes out first. -/
  selection : NodeSelection
  /-- Scores from here on are of no interest. -/
  threshold : α
  /-- Tolerance relative to the size of the threshold. -/
  relTolerance : α
  /-- Absolute tolerance. -/
  absTolerance : α
  /-- The next id. -/
  nextId : Nat
  /-- The number of nodes fathomed by lowering the threshold. -/
  fathomed : Nat

namespace Collection

open Frontier (Op Answer)

variable [Scalar α]

/-- The empty collection. -/
def new (selection : NodeSelection) : Collection α where
  nodes := 0
  refused := 0
  selection := selection
  threshold := Scalar.infinity
  relTolerance := 0
  absTolerance := 0
  nextId := 1
  fathomed := 0

/-- The threshold after the tolerances have been taken off. -/
def adjustedThreshold (c : Collection α) : α :=
  toleranceAdjusted c.threshold c.relTolerance c.absTolerance

/-- The scores of the nodes. -/
def scores (c : Collection α) : Set α := {x | ∃ n ∈ c.nodes, n.score = x}

/-- The nodes from a score on. -/
def nodesFrom (c : Collection α) (score : α) : Multiset (OpenNode α) :=
  c.nodes.filter fun n => score ≤ n.score

/-- The collection without the nodes that a new threshold dominates. -/
def lowered (c : Collection α) (threshold : α) : Collection α :=
  let adjusted := toleranceAdjusted threshold c.relTolerance c.absTolerance
  { c with
    threshold := threshold
    nodes := c.nodes.filter fun n => ¬ adjusted ≤ n.score
    fathomed := c.fathomed + (c.nodesFrom adjusted).card }

/-- How a collection may answer, and the collection afterwards. -/
inductive Step : Collection α → Op α → Answer α → Collection α → Prop
  /-- A node of a score below the adjusted threshold is taken. -/
  | taken {c : Collection α} {n : OpenNode α} (h : ¬ c.adjustedThreshold ≤ n.score) :
      Step c (.insert n) (.offered true) { c with nodes := n ::ₘ c.nodes }
  /-- Any other node is refused. -/
  | refused {c : Collection α} {n : OpenNode α} (h : c.adjustedThreshold ≤ n.score) :
      Step c (.insert n) (.offered false) { c with refused := n.score ::ₘ c.refused }
  /-- Nothing comes out of an empty collection. -/
  | empty {c : Collection α} (h : c.nodes = 0) : Step c .pop (.popped none) c
  /-- Otherwise the node comes out that ranks above all others, and these stay. -/
  | popped {c : Collection α} {n : OpenNode α} {rest : Multiset (OpenNode α)}
      (hnodes : c.nodes = n ::ₘ rest) (hbest : ∀ m ∈ rest, c.selection.Outranks n m) :
      Step c .pop (.popped (some n)) { c with nodes := rest }
  /-- A threshold that is undefined or higher is ignored. -/
  | ignored {c : Collection α} {threshold : α}
      (h : Scalar.isNaN threshold = true ∨ c.threshold < threshold) :
      Step c (.lowerThreshold threshold) (.fathomed Scalar.infinity) c
  /-- Any other threshold fathoms the nodes it dominates, whose lowest score is answered. -/
  | lowered {c : Collection α} {threshold lowest : α}
      (h : ¬ (Scalar.isNaN threshold = true ∨ c.threshold < threshold))
      (hlowest : Scalar.IsLowest
        {x | ∃ n ∈ c.nodesFrom (toleranceAdjusted threshold c.relTolerance c.absTolerance),
          n.score = x} lowest) :
      Step c (.lowerThreshold threshold) (.fathomed lowest) (c.lowered threshold)
  /-- Negative tolerances count as zero. -/
  | tolerances {c : Collection α} {rel abs : α} :
      Step c (.setTolerances rel abs) .done
        { c with relTolerance := Scalar.greatest rel 0, absTolerance := Scalar.greatest abs 0 }
  /-- Another selection concerns which nodes come out from now on. -/
  | selection {c : Collection α} {selection : NodeSelection} :
      Step c (.setSelection selection) .done { c with selection := selection }
  /-- Ids are given out in ascending order, as far as there are any. -/
  | takeId {c : Collection α} :
      Step c .takeId (.id c.nextId) { c with nextId := (c.nextId + 1) % wordRange }
  /-- Ids up to one given out elsewhere are skipped, as far as there are any. -/
  | reserveIds {c : Collection α} {id : Nat} :
      Step c (.reserveIds id) .done
        { c with nextId := max c.nextId (min (id + 1) (wordRange - 1)) }

/-- How a collection may answer to one request after the other. -/
inductive Run : Collection α → List (Op α) → List (Answer α) → Collection α → Prop
  /-- Nothing is asked. -/
  | nil {c : Collection α} : Run c [] [] c
  /-- A request and more of them. -/
  | cons {c d e : Collection α} {op : Op α} {ops : List (Op α)} {answer : Answer α}
      {answers : List (Answer α)} (first : Step c op answer d) (rest : Run d ops answers e) :
      Run c (op :: ops) (answer :: answers) e

end Collection

/-! ## The node that comes out -/

namespace NodeSelection

variable [Scalar α] {selection : NodeSelection} {n m : OpenNode α}

/-- Of two nodes of different ids one ranks above the other unless that one is preferred. -/
theorem outranks_of_not_prefers (h : selection.prefers m n = false) (hid : n.id ≠ m.id) :
    selection.Outranks n m := by
  cases selection with
  | bestBound =>
    rcases bestBound_not_prefers.mp h with hlt | ⟨heq, hle⟩
    · exact .inl hlt
    · exact .inr ⟨heq, Nat.lt_of_le_of_ne hle hid⟩
  | depthFirst =>
    simp only [prefers, decide_eq_false_iff_not] at h
    exact Nat.lt_of_le_of_ne (Nat.le_of_not_lt h) hid.symm
  | breadthFirst =>
    simp only [prefers, decide_eq_false_iff_not] at h
    exact Nat.lt_of_le_of_ne (Nat.le_of_not_lt h) hid

variable [Scalar.Ordered α]

/-- Of two nodes at most one ranks above the other. -/
theorem outranks_asymm (h : selection.Outranks n m) : ¬ selection.Outranks m n := by
  cases selection with
  | bestBound =>
    have hswap := Scalar.order_eq_swap n.selectionScore m.selectionScore
    rcases h with hlt | ⟨heq, hid⟩
    · rw [hlt] at hswap
      rintro (h | ⟨h, -⟩) <;> rw [hswap] at h <;> cases h
    · rw [heq] at hswap
      rintro (h | ⟨-, h⟩)
      · rw [hswap] at h
        cases h
      · exact Nat.lt_asymm hid h
  | depthFirst => exact Nat.lt_asymm h
  | breadthFirst => exact Nat.lt_asymm h

end NodeSelection

namespace Collection

variable [Scalar α] [Scalar.Ordered α] {c : Collection α}

/-! ## A collection has no choice -/

/-- Answers that agree but for values that compare as equal. -/
def SameAnswer : Frontier.Answer α → Frontier.Answer α → Prop
  | .fathomed x, .fathomed y => x ≤ y ∧ y ≤ x
  | a, b => a = b

/-- The node that ranks above all others is the only one to do so. -/
theorem best_unique {selection : NodeSelection} {n m : OpenNode α}
    {rest rest' : Multiset (OpenNode α)} (hnodes : n ::ₘ rest = m ::ₘ rest')
    (hn : ∀ k ∈ rest, selection.Outranks n k) (hm : ∀ k ∈ rest', selection.Outranks m k) :
    n = m ∧ rest = rest' := by
  have hnm : n = m := by
    by_contra hne
    have hm' : m ∈ n ::ₘ rest := hnodes ▸ Multiset.mem_cons_self m rest'
    have hn' : n ∈ m ::ₘ rest' := hnodes ▸ Multiset.mem_cons_self n rest
    rw [Multiset.mem_cons] at hm' hn'
    exact NodeSelection.outranks_asymm (hn m (hm'.resolve_left (Ne.symm hne)))
      (hm n (hn'.resolve_left hne))
  subst hnm
  exact ⟨rfl, (Multiset.cons_inj_right n).mp hnodes⟩

/-- A collection answers in one way only, but for values that compare as equal, and is then in one
state only. -/
theorem Step.unique {op : Frontier.Op α} {a b : Frontier.Answer α} {d e : Collection α}
    (h : Step c op a d) (k : Step c op b e) : SameAnswer a b ∧ d = e := by
  cases h with
  | taken h => cases k with
    | taken => exact ⟨rfl, rfl⟩
    | refused k => exact absurd k h
  | refused h => cases k with
    | taken k => exact absurd h k
    | refused => exact ⟨rfl, rfl⟩
  | empty h => cases k with
    | empty => exact ⟨rfl, rfl⟩
    | popped hnodes => rw [h] at hnodes; exact absurd hnodes.symm (Multiset.cons_ne_zero)
  | popped hnodes hbest => cases k with
    | empty k => rw [k] at hnodes; exact absurd hnodes.symm (Multiset.cons_ne_zero)
    -- no two of the nodes are best
    | popped hnodes' hbest' =>
      obtain ⟨rfl, rfl⟩ := best_unique (hnodes.symm.trans hnodes') hbest hbest'
      exact ⟨rfl, rfl⟩
  | ignored h => cases k with
    | ignored =>
      exact ⟨⟨Scalar.Ordered.le_infinity Scalar.Ordered.isNaN_infinity,
        Scalar.Ordered.le_infinity Scalar.Ordered.isNaN_infinity⟩, rfl⟩
    | lowered k => exact absurd h k
  | lowered h hlowest => cases k with
    | ignored k => exact absurd k h
    | lowered _ hlowest' => exact ⟨⟨hlowest.unique hlowest', hlowest'.unique hlowest⟩, rfl⟩
  | tolerances => cases k; exact ⟨rfl, rfl⟩
  | selection => cases k; exact ⟨rfl, rfl⟩
  | takeId => cases k; exact ⟨rfl, rfl⟩
  | reserveIds => cases k; exact ⟨rfl, rfl⟩

/-- A collection answers to one request after the other in one way only, but for values that compare
as equal, and is then in one state only. -/
theorem Run.unique {ops : List (Frontier.Op α)} {as bs : List (Frontier.Answer α)}
    {d e : Collection α} (h : Run c ops as d) (k : Run c ops bs e) :
    List.Forall₂ SameAnswer as bs ∧ d = e := by
  induction h generalizing bs e with
  | nil => cases k; exact ⟨.nil, rfl⟩
  | cons first _ ih => cases k with
    | cons first' rest' =>
      obtain ⟨hanswer, rfl⟩ := first.unique first'
      obtain ⟨hanswers, rfl⟩ := ih rest'
      exact ⟨.cons hanswer hanswers, rfl⟩

end Collection

/-! ## The frontier answers as the collection does -/

namespace Frontier

variable [Scalar α] {f : Frontier α} {c : Collection α}

/-- The frontier holds what the collection holds. -/
structure Matches (f : Frontier α) (c : Collection α) : Prop where
  /-- The slots are in order. -/
  consistent : f.Consistent
  /-- The nodes are the same. -/
  nodes : (f.toList : Multiset (OpenNode α)) = c.nodes
  /-- The frontier has kept the lowest of the refused scores. -/
  refused : Scalar.IsLowest {x | x ∈ c.refused} f.lowestRefused
  /-- The selection is the same. -/
  selection : f.selection = c.selection
  /-- The threshold is the same. -/
  threshold : f.threshold = c.threshold
  /-- The relative tolerance is the same. -/
  relTolerance : f.relTolerance = c.relTolerance
  /-- The absolute tolerance is the same. -/
  absTolerance : f.absTolerance = c.absTolerance
  /-- The next id is the same. -/
  nextId : f.nextId = c.nextId
  /-- As many nodes were fathomed. -/
  fathomed : f.fathomed = c.fathomed

/-- All that can be read off a frontier without changing it agrees with a collection. -/
structure Shows (f : Frontier α) (c : Collection α) : Prop where
  /-- No node is looked at if there is none. -/
  peek_empty : f.peek? = none ↔ c.nodes = 0
  /-- The node looked at is the one that ranks above all others. -/
  peek_best : ∀ n, f.peek? = some n →
    ∃ rest, c.nodes = n ::ₘ rest ∧ ∀ m ∈ rest, c.selection.Outranks n m
  /-- The number of nodes. -/
  size : f.size = c.nodes.card
  /-- Whether there are no nodes. -/
  isEmpty : f.isEmpty = true ↔ c.nodes = 0
  /-- The lowest score of a node. -/
  lowestScore : Scalar.IsLowest c.scores f.lowestScore
  /-- The distance from the lowest score to the threshold. -/
  gap : (c.nodes = 0 → f.gap = -Scalar.infinity) ∧
    (c.nodes ≠ 0 → ∃ lowest, Scalar.IsLowest c.scores lowest ∧ f.gap = c.threshold - lowest)
  /-- The lowest score of a refused node. -/
  lowestRefused : Scalar.IsLowest {x | x ∈ c.refused} f.lowestRefused
  /-- The threshold. -/
  threshold : f.threshold = c.threshold
  /-- The threshold after the tolerances have been taken off. -/
  adjustedThreshold : f.adjustedThreshold = c.adjustedThreshold
  /-- The selection. -/
  selection : f.selection = c.selection
  /-- The number of nodes fathomed by lowering the threshold. -/
  fathomed : f.fathomed = c.fathomed

/-- A frontier that holds what a collection holds adjusts its threshold to the same value. -/
theorem Matches.adjustedThreshold (h : f.Matches c) :
    f.adjustedThreshold = c.adjustedThreshold := by
  rw [Frontier.adjustedThreshold, h.threshold, h.relTolerance, h.absTolerance]
  rfl

/-- The nodes of the collection are the open ones. -/
theorem Matches.mem_iff (h : f.Matches c) {n : OpenNode α} : n ∈ c.nodes ↔ n ∈ f.toList := by
  rw [← h.nodes, Multiset.mem_coe]

/-- The collection is empty if no node is open. -/
theorem Matches.nodes_eq_zero (h : f.Matches c) : c.nodes = 0 ↔ f.toList = [] := by
  rw [← h.nodes, Multiset.coe_eq_zero]

/-- The nodes of the collection are the one that comes out of the frontier and those that stay. -/
theorem Matches.nodes_of_pop (h : f.Matches c) {g : Frontier α} {n : OpenNode α}
    (hpop : f.pop? = some (n, g)) : c.nodes = n ::ₘ (g.toList : Multiset (OpenNode α)) := by
  rw [← h.nodes, Multiset.cons_coe, Multiset.coe_eq_coe]
  exact h.consistent.toList_pop hpop

variable [Scalar.Ordered α]

/-- An empty frontier holds what the empty collection holds. -/
theorem matches_new (selection : NodeSelection) :
    (Frontier.new selection : Frontier α).Matches (Collection.new selection) where
  consistent := consistent_new selection
  nodes := rfl
  refused := by
    have hnone : {x | x ∈ (Collection.new selection : Collection α).refused} = ∅ := by
      ext x
      simp [Collection.new]
    rw [hnone]
    exact Scalar.isLowest_empty
  selection := rfl
  threshold := rfl
  relTolerance := rfl
  absTolerance := rfl
  nextId := rfl
  fathomed := rfl

/-- Offering a node to a frontier is offering it to the collection. -/
theorem Matches.insert (h : f.Matches c) (n : OpenNode α) :
    ∃ d, Collection.Step c (.insert n) (.offered (f.insert n).1) d ∧ (f.insert n).2.Matches d := by
  cases hdom : f.dominates n.score with
  | true =>
    have hle : c.adjustedThreshold ≤ n.score := by
      rw [← h.adjustedThreshold]
      exact of_decide_eq_true hdom
    rw [insert_of_dominates hdom]
    refine ⟨_, .refused hle, ⟨h.consistent.of_eq rfl rfl rfl rfl, h.nodes, ?_, h.selection,
      h.threshold, h.relTolerance, h.absTolerance, h.nextId, h.fathomed⟩⟩
    convert h.refused.insert n.score using 1
    ext x
    simp
  | false =>
    have hle : ¬ c.adjustedThreshold ≤ n.score := by
      rw [← h.adjustedThreshold]
      exact of_decide_eq_false hdom
    rw [insert_of_not_dominates hdom]
    refine ⟨_, .taken hle, ⟨h.consistent.place n, ?_, h.refused, h.selection, h.threshold,
      h.relTolerance, h.absTolerance, h.nextId, h.fathomed⟩⟩
    show _ = n ::ₘ c.nodes
    rw [← h.nodes, Multiset.cons_coe, Multiset.coe_eq_coe]
    exact h.consistent.toList_place n

/-- The node that comes out of a frontier ranks above all others. -/
theorem Matches.outranks_of_pop (h : f.Matches c) (hids : f.IdsDistinct) {g : Frontier α}
    {n m : OpenNode α} (hpop : f.pop? = some (n, g)) (hm : m ∈ g.toList) :
    c.selection.Outranks n m := by
  rw [← h.selection]
  refine NodeSelection.outranks_of_not_prefers (h.consistent.not_prefers_of_pop hpop hm) ?_
  have hnodup := ((h.consistent.toList_pop hpop).map OpenNode.id).nodup_iff.mp hids
  rw [List.map_cons, List.nodup_cons] at hnodup
  intro heq
  exact hnodup.1 (heq ▸ List.mem_map_of_mem hm)

/-- Taking the next node out of a frontier is taking it out of the collection. -/
theorem Matches.pop (h : f.Matches c) (hids : f.IdsDistinct) :
    ∃ d, Collection.Step c .pop (f.step .pop).1 d ∧ (f.step .pop).2.Matches d := by
  unfold step
  cases hpop : f.pop? with
  | none => exact ⟨c, .empty (h.nodes_eq_zero.mpr (h.consistent.pop?_eq_none.mp hpop)), h⟩
  | some taken =>
    obtain ⟨n, g⟩ := taken
    refine ⟨_, .popped (h.nodes_of_pop hpop) fun m hm => h.outranks_of_pop hids hpop hm, ?_⟩
    obtain ⟨slot, -, -, hg⟩ := pop?_eq_some hpop
    have hconsistent := h.consistent.pop hpop
    subst hg
    exact ⟨hconsistent, rfl, h.refused, h.selection, h.threshold, h.relTolerance,
      h.absTolerance, h.nextId, h.fathomed⟩

/-- Lowering the threshold of a frontier is lowering that of the collection. -/
theorem Matches.lowerThreshold (h : f.Matches c) (threshold : α) :
    ∃ d, Collection.Step c (.lowerThreshold threshold) (.fathomed (f.lowerThreshold threshold).1) d
      ∧ (f.lowerThreshold threshold).2.Matches d := by
  by_cases hignored : Scalar.isNaN threshold = true ∨ f.threshold < threshold
  · rw [lowerThreshold_of_ignored hignored]
    rw [h.threshold] at hignored
    exact ⟨c, .ignored hignored, h⟩
  · rw [lowerThreshold_of_not_ignored hignored]
    rw [h.threshold] at hignored
    -- the cutoff is the same for both, so both find the same nodes dominated
    have hadjusted : (f.withThreshold threshold).adjustedThreshold
        = toleranceAdjusted threshold c.relTolerance c.absTolerance := by
      rw [← h.relTolerance, ← h.absTolerance]
      rfl
    have hdominates : ∀ n : OpenNode α, (f.withThreshold threshold).dominates n.score
        = decide (toleranceAdjusted threshold c.relTolerance c.absTolerance ≤ n.score) := by
      intro n
      rw [dominates, hadjusted]
    refine ⟨_, .lowered hignored ?_, ⟨h.consistent.fathomFrom threshold, ?_, h.refused,
      h.selection, rfl, h.relTolerance, h.absTolerance, h.nextId, ?_⟩⟩
    · convert h.consistent.isLowest_fathomFrom threshold using 1
      ext x
      simp only [Collection.nodesFrom, Set.mem_ofPred_eq, Multiset.mem_filter, h.mem_iff,
        hdominates, decide_eq_true_eq, and_assoc]
    · show _ = c.nodes.filter _
      rw [← h.nodes, Multiset.filter_coe, Multiset.coe_eq_coe]
      refine (h.consistent.toList_fathomFrom threshold).trans (List.Perm.of_eq ?_)
      -- what the frontier keeps is what is not dominated
      refine List.filter_congr fun n _ => ?_
      rw [hdominates, decide_not]
    · show _ = c.fathomed + (c.nodesFrom _).card
      rw [h.consistent.fathomed_fathomFrom, h.fathomed, Collection.nodesFrom, ← h.nodes,
        Multiset.filter_coe, Multiset.coe_card]
      congr 2
      exact List.filter_congr fun n _ => hdominates n

/-- Changing the selection of a frontier is changing that of the collection. -/
theorem Matches.setSelection (h : f.Matches c) (selection : NodeSelection) :
    (f.setSelection selection).Matches { c with selection := selection } := by
  have hrest : f.setSelection selection = { f with
      selection := selection, heap := (f.setSelection selection).heap } := by
    unfold Frontier.setSelection
    split
    · next hsame => rw [← hsame]
    · rfl
  have hconsistent := h.consistent.setSelection selection
  have hnodes : ((f.setSelection selection).toList : Multiset (OpenNode α)) = c.nodes := by
    rw [← h.nodes, Multiset.coe_eq_coe]
    exact toList_setSelection f selection
  rw [hrest] at hconsistent hnodes ⊢
  exact ⟨hconsistent, hnodes, h.refused, rfl, h.threshold, h.relTolerance, h.absTolerance,
    h.nextId, h.fathomed⟩

/-- A frontier that holds what a collection holds answers as the collection does and holds what it
holds afterwards. -/
theorem Matches.step (h : f.Matches c) (hids : f.IdsDistinct) (op : Op α) :
    ∃ d, Collection.Step c op (f.step op).1 d ∧ (f.step op).2.Matches d := by
  cases op with
  | insert n => exact h.insert n
  | pop => exact h.pop hids
  | lowerThreshold threshold => exact h.lowerThreshold threshold
  | setTolerances rel abs =>
    exact ⟨_, .tolerances, h.consistent.of_eq rfl rfl rfl rfl, h.nodes, h.refused, h.selection,
      h.threshold, rfl, rfl, h.nextId, h.fathomed⟩
  | setSelection selection => exact ⟨_, .selection, h.setSelection selection⟩
  | takeId =>
    refine ⟨{ c with nextId := (c.nextId + 1) % wordRange }, ?_,
      h.consistent.of_eq rfl rfl rfl rfl, h.nodes, h.refused, h.selection, h.threshold,
      h.relTolerance, h.absTolerance, ?_, h.fathomed⟩
    · show Collection.Step c .takeId (.id f.nextId) _
      rw [h.nextId]
      exact .takeId
    · show (f.nextId + 1) % wordRange = _
      rw [h.nextId]
  | reserveIds id =>
    refine ⟨_, .reserveIds, h.consistent.of_eq rfl rfl rfl rfl, h.nodes, h.refused, h.selection,
      h.threshold, h.relTolerance, h.absTolerance, ?_, h.fathomed⟩
    show max f.nextId _ = _
    rw [h.nextId]

/-- The lowest score of a frontier is that of the collection. -/
theorem Matches.isLowest_scores (h : f.Matches c) : Scalar.IsLowest c.scores f.lowestScore := by
  convert f.isLowest_lowestScore using 1
  ext x
  simp only [Collection.scores, Set.mem_ofPred_eq, h.mem_iff]

/-- All that can be read off a frontier that holds what a collection holds agrees with it. -/
theorem Matches.shows (h : f.Matches c) (hids : f.IdsDistinct) : f.Shows c where
  peek_empty := by
    rw [peek?_eq_map_pop?, Option.map_eq_none_iff, h.consistent.pop?_eq_none, h.nodes_eq_zero]
  peek_best n hn := by
    rw [peek?_eq_map_pop?, Option.map_eq_some_iff] at hn
    obtain ⟨⟨_, g⟩, hpop, rfl⟩ := hn
    exact ⟨_, h.nodes_of_pop hpop, fun m hm => h.outranks_of_pop hids hpop hm⟩
  size := by rw [h.consistent.size_eq_length, ← h.nodes, Multiset.coe_card]
  isEmpty := by rw [h.consistent.isEmpty_iff, h.nodes_eq_zero]
  lowestScore := h.isLowest_scores
  gap := by
    rw [ne_eq, h.nodes_eq_zero, ← h.consistent.isEmpty_iff, gap]
    constructor
    · intro hempty
      rw [if_pos hempty]
    · intro hopen
      refine ⟨f.lowestScore, ?_, by rw [if_neg hopen, h.threshold]⟩
      exact h.isLowest_scores
  lowestRefused := h.refused
  threshold := h.threshold
  adjustedThreshold := h.adjustedThreshold
  selection := h.selection
  fathomed := h.fathomed

/-- A frontier that holds what a collection holds answers to one request after the other as the
collection does, as long as no two open nodes share an id. -/
theorem Matches.run {ops : List (Op α)} (h : f.Matches c)
    (hids : ∀ before, before <+: ops → (f.run before).2.IdsDistinct) :
    ∃ d, Collection.Run c ops (f.run ops).1 d ∧ (f.run ops).2.Matches d := by
  induction ops generalizing f c with
  | nil => exact ⟨c, .nil, h⟩
  | cons op rest ih =>
    obtain ⟨d, hstep, hd⟩ := h.step (hids [] (List.nil_prefix)) op
    obtain ⟨e, hrun, he⟩ := ih hd fun before hbefore =>
      hids (op :: before) (List.cons_prefix_cons.mpr ⟨rfl, hbefore⟩)
    exact ⟨e, .cons hstep hrun, he⟩

/-- A frontier answers to any requests as a plain collection does and then shows what the collection
holds, as long as no two open nodes share an id. -/
theorem run_refines (selection : NodeSelection) (ops : List (Op α))
    (hids : ∀ before, before <+: ops →
      ((Frontier.new selection : Frontier α).run before).2.IdsDistinct) :
    ∃ c, Collection.Run (.new selection) ops ((Frontier.new selection).run ops).1 c
      ∧ ((Frontier.new selection).run ops).2.Shows c := by
  obtain ⟨c, hrun, hc⟩ := (matches_new selection).run hids
  exact ⟨c, hrun, hc.shows (hids ops (List.prefix_refl ops))⟩

/-- A node without dimensions. -/
def sampleNode (score : Float) (id : Nat) : OpenNode Float :=
  ⟨⟨score, ⟨[], []⟩, none, id, 0, false⟩, -score, .unsplit⟩

/-- Requests of every kind: a slot is used twice, a threshold is ignored and one is lowered, a node
is refused, and the selection changes. -/
def sampleRequests : List (Op Float) :=
  [.insert (sampleNode 1 1), .insert (sampleNode 3 2), .pop, .insert (sampleNode 2 1),
    .setTolerances 0 (1 / 2), .lowerThreshold 3, .lowerThreshold 4, .insert (sampleNode 5 7),
    .insert (sampleNode 0 4), .setSelection .breadthFirst, .reserveIds 7, .takeId, .pop, .pop, .pop]

/-- No two open nodes share an id at any time while the sample of requests is answered, so that it
is answered as a plain collection does. -/
theorem run_refines_sampleRequests :
    (∀ before, before <+: sampleRequests →
      ((Frontier.new .bestBound : Frontier Float).run before).2.IdsDistinct)
      ∧ ∃ c, Collection.Run (.new .bestBound) sampleRequests
          ((Frontier.new .bestBound).run sampleRequests).1 c
        ∧ ((Frontier.new .bestBound).run sampleRequests).2.Shows c := by
  have hids : ∀ before, before <+: sampleRequests →
      ((Frontier.new .bestBound : Frontier Float).run before).2.IdsDistinct := by
    have hall : ∀ before ∈ sampleRequests.inits,
        ((Frontier.new .bestBound : Frontier Float).run before).2.IdsDistinct := by decide +kernel
    exact fun before hbefore => hall before ((List.mem_inits _ _).mpr hbefore)
  exact ⟨hids, run_refines .bestBound sampleRequests hids⟩

end Frontier

end BranchBound
