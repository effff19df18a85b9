import BranchBound.Proofs.Brancher.Charges
import BranchBound.Proofs.Brancher.Offspring
import BranchBound.Proofs.Search.Tolerances

/-! # Nodes that shelter a point

A node shelters a feasible point if it holds the point under a valid score and lies inside the
domain. As long as no point is known, nothing that is done to such a node gives the point up: the
processing leaves it in the node, which has to be branched; no threshold refuses a node; and one of
the nodes that come of a branching shelters the point again, unless the node is dropped.

* **`Node.Shelters`** — a node shelters a point.
* **`Search.Recorded.shelters`** — the processing of a node under an unknown incumbent.
* **`Brancher.Branched.shelters`**, **`Brancher.Twins.shelters`** — the nodes that come of it.
* **`Brancher.not_justified_dropped`** — a node that shelters a point is dropped only if the size
  tolerance is positive. -/

namespace BranchBound

/-- A node holds a point under a valid score and lies inside the domain. -/
structure Node.Shelters {α : Type} [Scalar α] (n : Node α) (p : Problem α)
    (vars : List (Variable α)) (x : List α) : Prop extends n.Guards p x where
  /-- The box is inside the domain. -/
  inside : n.box.Inside vars

variable {σ K : Type} [Field K] [LinearOrder K] [FloorRing K] [IsStrictOrderedRing K]
  {p : Problem (Extended K)} {x : List (Extended K)} {n m : Node (Extended K)}
  {vars : List (Variable (Extended K))}

omit [IsStrictOrderedRing K] in
/-- A part of a node shelters the points it holds under the scores that are valid. -/
theorem Node.Shelters.part (h : n.Shelters p vars x) (hwithin : m.box.Within n.box)
    (hbox : m.box.Contains x) (hscore : m.score ≤ p.value x) : m.Shelters p vars x :=
  ⟨⟨hbox, hscore⟩, h.inside.within hwithin hbox⟩

/-! ## Processing -/

omit [IsStrictOrderedRing K] in
/-- If no point is known after the search of a node, none was known before, and none was found. -/
theorem Report.unknown_of_tightened {cutoff : Cutoff (Extended K)}
    {candidate : Option (Candidate (Extended K))}
    (h : Scalar.infinity ≤ (Report.tightened cutoff candidate).incumbent) :
    Scalar.infinity ≤ cutoff.incumbent
      ∧ ∀ c, candidate = some c → ¬ c.value < Scalar.infinity := by
  cases candidate with
  | none => exact ⟨h, nofun⟩
  | some c =>
    unfold Report.tightened Cutoff.tighten at h
    -- a point below the cutoff would have lowered it
    by_cases hlt : c.value < cutoff.incumbent
    · simp only [hlt, if_true] at h
      have hle := Scalar.Ordered.le_infinity
        (Scalar.Ordered.isNaN_right_of_le (Scalar.le_of_lt hlt))
      exact absurd (Scalar.Ordered.le_trans hle h) (Scalar.not_le_of_lt hlt)
    · simp only [hlt, if_false] at h
      refine ⟨h, fun d hd hbelow => hlt ?_⟩
      cases hd
      exact Scalar.lt_of_lt_of_le hbelow h

namespace Search

variable {s : Search (Extended K)} {r : Report (Extended K)} {solvers : Solvers σ (Extended K)}

omit [IsStrictOrderedRing K] in
/-- A report that is recorded while no point is known comes from a node that was processed when none
was known, and is about a part of this node. -/
theorem Recorded.partOf (h : s.Recorded solvers n r) (hsound : solvers.Sound p)
    (hunknown : s.incumbent.value = Scalar.infinity) : r.node.PartOf n := by
  obtain ⟨cutoff, memory, after, hreturns, hheeds⟩ := h
  obtain ⟨hcutoff, -⟩ := Report.unknown_of_tightened (hunknown ▸ hheeds.incumbent)
  exact (processNode_spec hsound (Scalar.Ordered.isNaN_right_of_le hcutoff) hreturns).1

omit [IsStrictOrderedRing K] in
/-- A node that shelters a feasible point and is recorded while no point is known has to be
branched, and shelters the point as it was reported. -/
theorem Recorded.shelters (h : s.Recorded solvers n r) (hsound : solvers.Sound p)
    (hunknown : s.incumbent.value = Scalar.infinity) (hx : x ∈ p.points)
    (hfinite : p.value x < Scalar.infinity) (hn : n.Shelters p vars x) :
    r.stage = .postprocessed ∧ n.box.isPoint = false ∧ r.node.Shelters p vars x
      ∧ r.lowerBound ≤ p.value x := by
  have hpart := h.partOf hsound hunknown
  have hdominated := h.dominated
  obtain ⟨cutoff, memory, after, hreturns, hheeds⟩ := h
  obtain ⟨hcutoff, hnone⟩ := Report.unknown_of_tightened (hunknown ▸ hheeds.incumbent)
  obtain ⟨-, haccounts⟩ :=
    processNode_spec hsound (Scalar.Ordered.isNaN_right_of_le hcutoff) hreturns
  cases haccounts x hx hn.box hn.score with
  | beaten hle =>
    exact absurd (Scalar.Ordered.le_trans hcutoff hle) (Scalar.not_le_of_lt hfinite)
  | found c hc hle => exact absurd (Scalar.lt_of_le_of_lt hle hfinite) (hnone c hc)
  | dominated hstage hscore =>
    obtain ⟨v, hv, hreached⟩ := hdominated hstage
    rw [hunknown] at hv
    -- an infinite incumbent is its own threshold
    cases Extended.eq_of_same ⟨Scalar.Ordered.le_infinity (Scalar.Ordered.isNaN_right_of_le hv), hv⟩
    rw [Extended.toleranceAdjusted_of_not_finite rfl] at hreached
    exact absurd (Scalar.Ordered.le_trans hreached hscore) (Scalar.not_le_of_lt hfinite)
  | left hstage hpoint hbox hscore hbound =>
    exact ⟨hstage, hpoint, hn.part hpart.within hbox hscore, hbound⟩

end Search

/-! ## Offering -/

omit [IsStrictOrderedRing K] in
/-- A frontier whose threshold is infinite takes every node of a score below infinity. -/
theorem Frontier.Consistent.mem_insert_of_lenient {f : Frontier (Extended K)} (h : f.Consistent)
    (hlenient : Scalar.infinity ≤ f.adjustedThreshold) {n : OpenNode (Extended K)}
    (hn : n.score < Scalar.infinity) : n.node ∈ (f.insert n).2.nodes := by
  cases hdom : f.dominates n.score with
  | true =>
    have hle := Scalar.Ordered.le_trans hlenient (of_decide_eq_true hdom)
    exact absurd hle (Scalar.not_le_of_lt hn)
  | false =>
    rw [Frontier.insert_of_not_dominates hdom]
    exact Frontier.mem_nodes.mpr ⟨n, (h.toList_place n).mem_iff.mpr List.mem_cons_self, rfl⟩

/-! ## Branching -/

/-- Moving the bounds of discrete variables to whole numbers keeps the points a node shelters. -/
theorem Node.Shelters.rounded (h : n.Shelters p vars x) (hvars : ∀ v ∈ vars, v.Standard)
    (hx : Integral vars x) {score : Extended K} (hscore : score ≤ p.value x) :
    ({ n with box := Brancher.roundDiscrete vars n.box, score := score } : Node _).Shelters p vars x
      ∧ Brancher.WholeBounds vars (Brancher.roundDiscrete vars n.box) := by
  have hbox := Brancher.contains_roundDiscrete h.box hx
  obtain ⟨hinside, hwhole⟩ :=
    Brancher.inside_roundDiscrete h.inside hvars hbox.isEmpty_eq_false
  exact ⟨⟨⟨hbox, hscore⟩, hinside⟩, hwhole⟩

namespace Brancher

variable {b c : Brancher (Extended K)} {parent down up : Node (Extended K)}
  {point : List (Extended K)} {objective : Extended K} {outcome : Branching} {i : Nat}
  {v : Variable (Extended K)}

/-- One of the parts of a node that is split shelters a point that the node does. -/
theorem shelters_parts (h : parent.Shelters p vars x) (hvars : ∀ v ∈ vars, v.Standard)
    (hwhole : WholeBounds vars parent.box) (hv : vars[i]? = some v)
    (hwide : ¬ parent.box.width i ≤ 0) (hx : Integral vars x) (k l : Nat) :
    (child parent (parts v.kind parent.box i).1 k).Shelters p vars x
      ∨ (child parent (parts v.kind parent.box i).2 l).Shelters p vars x := by
  obtain ⟨hbelow, habove⟩ := inside_parts h.inside hvars hwhole hv hwide
  have hi : i < x.length := by
    rw [← h.box.lower_length, (Box.hasDimension_iff.mp h.inside.dimension).1]
    exact (List.getElem?_eq_some_iff.mp hv).1
  rcases contains_parts v.kind h.box hi (hx i v hv) with hbox | hbox
  · exact .inl ⟨⟨hbox, h.score⟩, hbelow⟩
  · exact .inr ⟨⟨hbox, h.score⟩, habove⟩

/-- One of two twins shelters a point that their parent does. -/
theorem Twins.shelters {first last : Nat} (htwins : Twins vars parent first last down up)
    (h : parent.Shelters p vars x) (hvars : ∀ v ∈ vars, v.Standard)
    (hwhole : WholeBounds vars parent.box) (hx : Integral vars x) :
    down.Shelters p vars x ∨ up.Shelters p vars x := by
  obtain ⟨i, v, id, hv, hwide, -, -, rfl, rfl⟩ := htwins
  exact shelters_parts h hvars hwhole hv hwide hx id (id + 1)

/-- A node that came out of branching a node that shelters a point shelters it, unless the node was
dropped. -/
theorem Branched.shelters (h : Branched b parent point objective outcome c) {tolerance : Extended K}
    (hjustified : b.Justified parent point tolerance outcome) (hout : outcome ≠ .dropped)
    (hb : b.frontier.Consistent) (hlenient : Scalar.infinity ≤ b.frontier.adjustedThreshold)
    (hvars : ∀ v ∈ b.vars, v.Standard) (hx : Integral b.vars x)
    (hfinite : p.value x < Scalar.infinity) (hparent : parent.Shelters p b.vars x)
    (hbound : objective ≤ p.value x) : ∃ m ∈ c.frontier.nodes, m.Shelters p b.vars x := by
  cases h with
  | dropped => exact absurd rfl hout
  | requeued =>
    obtain ⟨hrounded, -⟩ := hparent.rounded hvars hx hparent.score
    exact ⟨_, hb.mem_insert_of_lenient hlenient
      (n := b.toOpen { parent with box := roundDiscrete b.vars parent.box } .unsplit)
      (Scalar.lt_of_le_of_lt hparent.score hfinite), hrounded⟩
  | @split i v hv down up d hsplit =>
    obtain ⟨-, -, hchosen⟩ := hjustified
    have hscore : (b.rounded parent objective).score ≤ p.value x := by
      show (if _ then _ else _) ≤ _
      split
      · exact hparent.score
      · exact Scalar.greatest_le hparent.score hbound
    obtain ⟨hrounded, hwhole⟩ := hparent.rounded hvars hx hscore
    have hd := split_consistent hsplit hb
    have hsame : b.frontier.SameLimits d.frontier := by
      rw [split_brancher hsplit]
      exact ⟨rfl, rfl, rfl⟩
    rw [← hsame.adjustedThreshold] at hlenient
    -- the frontier refuses neither child, since no limit was moved
    have hafter := hlenient
    rw [← (d.frontier.sameLimits_insert down).adjustedThreshold] at hafter
    obtain ⟨hdown, hup⟩ := split_nodes hsplit
    obtain ⟨-, -, hwide⟩ := width_of_choose hchosen
    rcases shelters_parts hrounded hvars hwhole hv hwide hx
      b.frontier.nextId ((b.frontier.nextId + 1) % wordRange) with hchild | hchild
    · refine ⟨down.node, (hd.insert _).mem_nodes_insert _ (hd.mem_insert_of_lenient hlenient ?_),
        hdown ▸ hchild⟩
      show down.node.score < _
      rw [hdown]
      exact Scalar.lt_of_le_of_lt hchild.score hfinite
    · refine ⟨up.node, (hd.insert _).mem_insert_of_lenient hafter ?_, hup ▸ hchild⟩
      show up.node.score < _
      rw [hup]
      exact Scalar.lt_of_le_of_lt hchild.score hfinite

/-- A node that shelters a point is not dropped if the size tolerance is zero. -/
theorem not_justified_dropped (hparent : parent.Shelters p b.vars x)
    (hvars : ∀ v ∈ b.vars, v.Standard) (hx : Integral b.vars x) :
    ¬ b.Justified parent point 0 .dropped := by
  obtain ⟨hrounded, -⟩ := hparent.rounded hvars hx hparent.score
  rintro (hempty | ⟨hpoint, hbelow⟩)
  · rw [hrounded.box.isEmpty_eq_false] at hempty
    cases hempty
  · have hnarrow := (isBelowTolerance_iff hrounded.inside hvars (le_refl (0 : K))).mp hbelow
    rw [hrounded.inside.isPoint_of_span hvars fun i hi => ?_] at hpoint
    · cases hpoint
    · have hle := hnarrow i _ (List.getElem?_eq_getElem hi)
      rwa [zero_mul] at hle

end Brancher

end BranchBound
