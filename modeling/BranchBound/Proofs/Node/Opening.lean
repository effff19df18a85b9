import BranchBound.Proofs.Node.Answering

/-! # Nodes that have to be branched

What processing makes of a node whatever its solvers answer, as long as tightening keeps to some
relation between nodes: the node of the report is related to the node that was processed, and a node
that has to be branched is neither empty nor dominated.

* **`Solvers.Tighten R`** — tightening a node leads to one that is related to it by `R`, such as by
  `Node.Rebounded`.
* **`processNode_related`** — the node of a report is related to the node that was processed.
* **`Report.Opened`**, **`processNode_opened`** — a node that has to be branched.
* **`Node.KeepsDefined`**, **`processNode_defined`** — its score is defined as long as tightening
  leaves defined scores defined. -/

namespace BranchBound

variable {σ α : Type}

/-- Only the bounds of a node differ. -/
def Node.Rebounded (m n : Node α) : Prop := ∃ box, m = { n with box }

/-- Tightening a node leads to one that is related to it. -/
structure Solvers.Tighten (solvers : Solvers σ α) (R : Node α → Node α → Prop) : Prop where
  /-- The first tightening. -/
  preprocess : ∀ {n v memory infeasible tight after},
    (solvers.preprocess n v).Returns memory (infeasible, tight) after → R tight n
  /-- The second tightening. -/
  postprocess : ∀ {n point duals v memory solved tight after},
    (solvers.postprocess n point duals v).Returns memory (solved, tight) after → R tight n

/-- What is related is so by any weaker relation. -/
theorem Solvers.Tighten.mono {solvers : Solvers σ α} {R S : Node α → Node α → Prop}
    (h : solvers.Tighten R) (hRS : ∀ m n, R m n → S m n) : solvers.Tighten S :=
  ⟨fun k => hRS _ _ (h.preprocess k), fun k => hRS _ _ (h.postprocess k)⟩

variable [Scalar α]

/-! ## The node of a report -/

section Related

variable {solvers : Solvers σ α} {R : Node α → Node α → Prop} {n : Node α} {r s : Report α}
  {answer : LowerAnswer α} {cutoff : Cutoff α} {memory after : σ}

/-- A relation between nodes that looks no further than the score lets it change. -/
structure Node.Composes (R : Node α → Node α → Prop) : Prop where
  /-- The relation is reflexive. -/
  refl : ∀ n, R n n
  /-- The relation is transitive. -/
  trans : ∀ {l m n}, R l m → R m n → R l n
  /-- The score does not matter. -/
  score : ∀ (n : Node α) (x : α), R { n with score := x } n

/-- Fathoming a node keeps what it is related to. -/
theorem Report.fathom_related (hR : Node.Composes R) (reason : Reason) :
    R (r.fathom reason).node r.node := by
  cases reason with
  | infeasible => exact hR.score _ _
  | tighteningInfeasible => exact hR.score _ _
  | _ => exact hR.refl _

/-- The last part of processing leads to a related node. -/
theorem finishNode_related (hR : Node.Composes R) (hs : solvers.Tighten R)
    (h : (finishNode solvers r answer cutoff).Returns memory s after) : R s.node r.node := by
  cases finishNode_exit h with
  | emptied hcall => exact hR.trans (Report.fathom_related hR _) (hs.postprocess hcall)
  | solved hcall => exact hs.postprocess hcall
  | opened hcall => exact hs.postprocess hcall

/-- The middle part of processing leads to a related node. -/
theorem searchNode_related (hR : Node.Composes R) (hs : solvers.Tighten R)
    (h : (searchNode solvers r answer cutoff).Returns memory s after) : R s.node r.node := by
  cases searchNode_exit h with
  | solved => exact hR.refl _
  | dominated => exact hR.refl _
  | passed _ _ _ hrest =>
    have hfinished := finishNode_related hR hs hrest
    exact hfinished

/-- The second part of processing leads to a related node. -/
theorem boundNode_related (hR : Node.Composes R) (hs : solvers.Tighten R)
    (h : (boundNode solvers r cutoff).Returns memory s after) : R s.node r.node := by
  cases boundNode_exit h with
  | infeasible => exact hR.score _ _
  | dominated => exact hR.score _ _
  | passed _ _ _ _ hrest => exact hR.trans (searchNode_related hR hs hrest) (hR.score _ _)

/-- The first part of processing leads to a related node. -/
theorem tightenNode_related (hR : Node.Composes R) (hs : solvers.Tighten R)
    (h : (tightenNode solvers n cutoff).Returns memory s after) : R s.node n := by
  cases tightenNode_exit h with
  | emptied hcall => exact hR.trans (hR.score _ _) (hs.preprocess hcall)
  | passed hcall _ hrest => exact hR.trans (boundNode_related hR hs hrest) (hs.preprocess hcall)

/-- The node of a report is related to the node that was processed, if tightening leads to related
nodes. -/
theorem processNode_related (hR : Node.Composes R) (hs : solvers.Tighten R)
    (h : (processNode solvers n cutoff).Returns memory s after) : R s.node n := by
  obtain ⟨r, busy, htighten, rfl⟩ := processNode_exit h
  have hr := tightenNode_related hR hs htighten
  exact hr

end Related

/-! ## Nodes that have to be branched -/

section Opened

variable [Scalar.Ordered α] {solvers : Solvers σ α} {n : Node α} {r s : Report α}
  {answer : LowerAnswer α} {cutoff : Cutoff α} {memory after : σ}

/-- What is known of a node that has to be branched, once it was processed against a cutoff. -/
structure Report.Opened (r : Report α) (cutoff : Cutoff α) : Prop where
  /-- Its box is not empty. -/
  nonempty : r.node.box.isEmpty = false
  /-- Its score is defined and at least the bound of its relaxation. -/
  bound_le : r.lowerBound ≤ r.node.score
  /-- It is not dominated, the point that was found taken into account. -/
  dominates : (Report.tightened cutoff r.candidate).dominates r.node.score = false

omit [Scalar.Ordered α] in
/-- The last part of processing leaves a node open whose box is not empty; its score, its bound and
the point that was found are what they were. -/
theorem finishNode_opened (hs : solvers.Tighten fun m n => m.score = n.score)
    (h : (finishNode solvers r answer cutoff).Returns memory s after)
    (hopen : s.stage = .postprocessed) :
    s.node.box.isEmpty = false ∧ s.node.score = r.node.score ∧ s.lowerBound = r.lowerBound
      ∧ s.candidate = r.candidate := by
  cases finishNode_exit h with
  | emptied => cases hopen
  | solved => cases hopen
  | opened hcall hfull => exact ⟨hfull, hs.postprocess hcall, rfl, rfl⟩

omit [Scalar.Ordered α] in
/-- The middle part of processing leaves no node open that the point it found dominates. -/
theorem searchNode_opened (hs : solvers.Tighten fun m n => m.score = n.score)
    (h : (searchNode solvers r answer cutoff).Returns memory s after)
    (hopen : s.stage = .postprocessed) :
    s.node.box.isEmpty = false ∧ s.node.score = r.node.score ∧ s.lowerBound = r.lowerBound
      ∧ (Report.tightened cutoff s.candidate).dominates s.node.score = false := by
  cases searchNode_exit h with
  | solved => cases hopen
  | dominated => cases hopen
  | passed _ _ hlive hrest =>
    obtain ⟨hnonempty, hscore, hbound, hcandidate⟩ := finishNode_opened hs hrest hopen
    refine ⟨hnonempty, hscore, hbound, ?_⟩
    rw [hcandidate, hscore]
    exact hlive

/-- The second part of processing raises the score of a node to its bound. -/
theorem boundNode_opened (hs : solvers.Tighten fun m n => m.score = n.score)
    (h : (boundNode solvers r cutoff).Returns memory s after)
    (hopen : s.stage = .postprocessed) : s.Opened cutoff := by
  cases boundNode_exit h with
  | infeasible => cases hopen
  | dominated => cases hopen
  | passed _ _ hdefined _ hrest =>
    obtain ⟨hnonempty, hscore, hbound, hlive⟩ := searchNode_opened hs hrest hopen
    refine ⟨hnonempty, ?_, hlive⟩
    rw [hscore, hbound]
    exact Scalar.le_greatest_right hdefined

/-- A node that has to be branched is neither empty nor dominated. -/
theorem processNode_opened (hs : solvers.Tighten fun m n => m.score = n.score)
    (h : (processNode solvers n cutoff).Returns memory s after)
    (hopen : s.stage = .postprocessed) : s.Opened cutoff := by
  obtain ⟨r, busy, htighten, rfl⟩ := processNode_exit h
  cases tightenNode_exit htighten with
  | emptied => cases hopen
  | passed _ _ hrest =>
    -- the time on the report does not matter
    obtain ⟨hnonempty, hle, hlive⟩ := boundNode_opened hs hrest hopen
    exact ⟨hnonempty, hle, hlive⟩

/-! ### Defined scores -/

omit [Scalar.Ordered α] in
/-- The score of a node is defined if that of another one is. -/
def Node.KeepsDefined (m n : Node α) : Prop :=
  Scalar.isNaN n.score = false → Scalar.isNaN m.score = false

omit [Scalar.Ordered α] in
/-- Nodes of one score are defined alike. -/
theorem Node.keepsDefined_of_score {m n : Node α} (h : m.score = n.score) : m.KeepsDefined n :=
  fun hdef => h ▸ hdef

omit [Scalar.Ordered α] in
/-- The last part of processing leaves a defined score defined. -/
theorem finishNode_defined (hs : solvers.Tighten Node.KeepsDefined)
    (h : (finishNode solvers r answer cutoff).Returns memory s after)
    (hopen : s.stage = .postprocessed) (hdef : Scalar.isNaN r.node.score = false) :
    Scalar.isNaN s.node.score = false := by
  cases finishNode_exit h with
  | emptied => cases hopen
  | solved => cases hopen
  | opened hcall => exact hs.postprocess hcall hdef

omit [Scalar.Ordered α] in
/-- So does the middle part. -/
theorem searchNode_defined (hs : solvers.Tighten Node.KeepsDefined)
    (h : (searchNode solvers r answer cutoff).Returns memory s after)
    (hopen : s.stage = .postprocessed) (hdef : Scalar.isNaN r.node.score = false) :
    Scalar.isNaN s.node.score = false := by
  cases searchNode_exit h with
  | solved => cases hopen
  | dominated => cases hopen
  | passed _ _ _ hrest => exact finishNode_defined hs hrest hopen hdef

/-- The second part raises the score to a bound that is defined, whatever the score was before. -/
theorem boundNode_defined (hs : solvers.Tighten Node.KeepsDefined)
    (h : (boundNode solvers r cutoff).Returns memory s after)
    (hopen : s.stage = .postprocessed) : Scalar.isNaN s.node.score = false := by
  cases boundNode_exit h with
  | infeasible => cases hopen
  | dominated => cases hopen
  | @passed answer _ _ _ _ hdefined _ hrest =>
    have hraised : Scalar.isNaN (Scalar.greatest r.node.score answer.bound) = false :=
      Scalar.Ordered.isNaN_right_of_le (Scalar.le_greatest_right hdefined)
    exact searchNode_defined hs hrest hopen hraised

/-- The score of a node that has to be branched is defined. -/
theorem processNode_defined (hs : solvers.Tighten Node.KeepsDefined)
    (h : (processNode solvers n cutoff).Returns memory s after)
    (hopen : s.stage = .postprocessed) : Scalar.isNaN s.node.score = false := by
  obtain ⟨r, busy, htighten, rfl⟩ := processNode_exit h
  cases tightenNode_exit htighten with
  | emptied => cases hopen
  | passed _ _ hrest =>
    have hdef := boundNode_defined hs hrest hopen
    exact hdef

end Opened

end BranchBound
