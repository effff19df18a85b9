import BranchBound.Proofs.Node.Answering
import BranchBound.Proofs.Node.Dominating
import BranchBound.Proofs.Node.Finding
import BranchBound.Proofs.Node.Noting
import BranchBound.Proofs.Node.Opening
import BranchBound.Proofs.Scalar.Exact
import Mathlib.Data.List.Chain
import Mathlib.Data.Rat.Floor

/-! # Reports follow the stages of a node

The solvers decide where the processing of a node ends, but not what its report looks like there.
Whatever they answer, the report went through stages of which each may follow the one before it,
its flags and its tag are those of the last stage, and its score is no lower than what it came from.
Processing fails only where one of the calls it makes fails or brings an undefined bound.

* **`Report.Traced`**, **`Report.Sound`** — what a report says at every stage;
  `Report.Traced.advance` and `Report.Traced.fathom` are the two ways to get to another one.
* **`Report.Concludes`** — what it says once the node was processed.
* **`Solvers.Breaks`** — the calls whose failure is that of the processing.
* **`processNode_concludes`** — whatever the solvers answer, processing comes to one or the
  other. -/

namespace BranchBound

variable {σ α β γ : Type}

/-! ## Calls that fail -/

namespace Call

variable {call : Call σ α β} {next : β → Call σ α γ} {memory after : σ} {failure : Failure α}

/-- A call comes to an answer or to a failure. -/
theorem returns_or_fails (call : Call σ α β) (memory : σ) :
    (∃ x after, call.Returns memory x after)
      ∨ ∃ failure after, call.Fails memory failure after := by
  rcases hcall : Id.run (StateT.run (ExceptT.run call) memory) with ⟨failure | x, after⟩
  · exact .inr ⟨failure, after, hcall⟩
  · exact .inl ⟨x, after, hcall⟩

/-- A call that does nothing does not fail. -/
theorem not_fails_pure {x : β} : ¬ Fails (pure x : Call σ α β) memory failure after := by
  intro h
  cases h

/-- A failure that is raised. -/
theorem fails_throw {raised : Failure α}
    (h : Fails (throw raised : Call σ α β) memory failure after) :
    raised = failure ∧ memory = after := by
  cases h
  exact ⟨rfl, rfl⟩

/-- A call in two parts fails in its first part, or in its second part after the first. -/
theorem fails_bind (h : (call >>= next).Fails memory failure after) :
    call.Fails memory failure after
      ∨ ∃ x mid, call.Returns memory x mid ∧ (next x).Fails mid failure after := by
  change ExceptT.bindCont next (Id.run (StateT.run (ExceptT.run call) memory)).1
    (Id.run (StateT.run (ExceptT.run call) memory)).2 = _ at h
  rcases hcall : Id.run (StateT.run (ExceptT.run call) memory) with ⟨raised | x, mid⟩ <;>
    rw [hcall] at h
  · cases h
    exact .inl hcall
  · exact .inr ⟨x, mid, hcall, h⟩

end Call

/-! ## What a report says of its stages -/

/-- The tag of a node whose processing ended in a stage. -/
def Stage.tag : Stage → Tag
  | .fathomed .infeasible => .infeasible
  | .fathomed .tighteningInfeasible => .tighteningInfeasible
  | _ => .feasible

/-- Whether a stage proves that the box holds no feasible point. -/
def Stage.isInfeasible : Stage → Bool
  | .fathomed reason => reason.isInfeasible
  | _ => false

namespace Stage

variable {stage : Stage}

/-- A stage that is not terminal may end in fathoming the node. -/
theorem allows_fathomed (h : stage.isTerminal = false) (reason : Reason) :
    stage.allows (.fathomed reason) = true := by
  cases stage with
  | fathomed _ | branched | fixed | dropped => cases h
  | _ => rfl

/-- A node in a stage that is not terminal is not known to be infeasible. -/
theorem isInfeasible_of_open (h : stage.isTerminal = false) : stage.isInfeasible = false := by
  cases stage with
  | fathomed _ => cases h
  | _ => rfl

/-- Nothing special is known of a node in a stage that is not terminal. -/
theorem tag_of_open (h : stage.isTerminal = false) : stage.tag = .feasible := by
  cases stage with
  | fathomed _ => cases h
  | _ => rfl

/-- A node in a stage that is not terminal is not fathomed. -/
theorem ne_fathomed_of_open (h : stage.isTerminal = false) (reason : Reason) :
    stage ≠ .fathomed reason := by
  rintro rfl
  cases h

end Stage

/-- A report tells the way to its stage, and its flags and its tag are those of that stage. -/
structure Report.Traced (r : Report α) : Prop where
  /-- The first stage is that of a new node. -/
  starts : r.trace.head? = some .new
  /-- Each stage may follow the one before it. -/
  follows : r.trace.IsChain fun stage next => stage.allows next = true
  /-- The last stage is that of the report. -/
  ends : r.trace.getLast? = some r.stage
  /-- The node is infeasible if it was fathomed as such. -/
  infeasible : r.infeasible = r.stage.isInfeasible
  /-- The node is solved if it was fathomed as such. -/
  converged : r.converged = true ↔ r.stage = .fathomed .converged
  /-- The tag tells infeasible nodes apart. -/
  tag : r.tag = r.stage.tag

namespace Report.Traced

variable {r : Report α} {stage : Stage}

/-- A trace goes on with a stage that may follow. -/
theorem follows_append (h : r.Traced) (hnext : r.stage.allows stage = true) :
    (r.trace ++ [stage]).IsChain fun stage next => stage.allows next = true := by
  refine List.isChain_append.mpr ⟨h.follows, List.isChain_singleton stage, ?_⟩
  intro last hlast next hsingle
  rw [h.ends, Option.mem_some_iff] at hlast
  obtain rfl := hlast
  obtain rfl := Option.mem_some_iff.mp hsingle
  exact hnext

/-- The first stage stays when a trace goes on. -/
theorem head?_append (h : r.Traced) (stage : Stage) :
    (r.trace ++ [stage]).head? = some .new := by
  rw [List.head?_append, h.starts]
  rfl

/-- The flags of a report are down as long as its stage is not terminal. -/
theorem flags_of_open (h : r.Traced) (hopen : r.stage.isTerminal = false) :
    r.infeasible = false ∧ r.converged = false ∧ r.tag = .feasible := by
  refine ⟨h.infeasible.trans (Stage.isInfeasible_of_open hopen), ?_,
    h.tag.trans (Stage.tag_of_open hopen)⟩
  rw [Bool.eq_false_iff, Ne, h.converged]
  exact Stage.ne_fathomed_of_open hopen _

/-- A report goes on to the next stage that is not terminal. -/
theorem advance (h : r.Traced) (stage : Stage) (hopen : r.stage.isTerminal = false)
    (hnext : r.stage.allows stage = true) (hstage : stage.isTerminal = false) :
    (r.advance stage).Traced := by
  obtain ⟨hinfeasible, hconverged, htag⟩ := h.flags_of_open hopen
  exact
    { starts := h.head?_append stage
      follows := h.follows_append hnext
      ends := List.getLast?_concat
      infeasible := hinfeasible.trans (Stage.isInfeasible_of_open hstage).symm
      converged := by
        refine iff_of_false (fun htrue => ?_) (Stage.ne_fathomed_of_open hstage _)
        exact Bool.false_ne_true (hconverged.symm.trans htrue)
      tag := htag.trans (Stage.tag_of_open hstage).symm }

variable [Scalar α]

/-- The report at the start of processing. -/
theorem start (n : Node α) : (Report.start n).Traced where
  starts := rfl
  follows := List.isChain_singleton _
  ends := rfl
  infeasible := rfl
  converged := ⟨nofun, nofun⟩
  tag := rfl

/-- A report whose stage is not terminal ends with fathoming the node. -/
theorem fathom (h : r.Traced) (hopen : r.stage.isTerminal = false) (reason : Reason) :
    (r.fathom reason).Traced := by
  obtain ⟨hinfeasible, hconverged, htag⟩ := h.flags_of_open hopen
  have htrace : (r.fathom reason).trace = r.trace ++ [.fathomed reason] := by
    cases reason <;> rfl
  have hstage : (r.fathom reason).stage = .fathomed reason := by cases reason <;> rfl
  constructor
  case starts => rw [htrace]; exact h.head?_append _
  case follows => rw [htrace]; exact h.follows_append (Stage.allows_fathomed hopen reason)
  case ends => rw [htrace, hstage]; exact List.getLast?_concat
  case infeasible => cases reason <;> first | rfl | exact hinfeasible
  case converged => cases reason <;> simp [Report.fathom, Report.advance, hconverged]
  case tag => cases reason <;> first | rfl | exact htag

end Report.Traced

/-! ## What a report says of its node -/

variable [Scalar α]

/-- What the report on a node says at every stage of the processing under a cutoff. -/
structure Report.Conforms (r : Report α) (n : Node α) (cutoff : Cutoff α) : Prop
    extends Report.Traced r where
  /-- The score of an infeasible node is infinity. -/
  infinite : r.infeasible = true → r.node.score = Scalar.infinity
  /-- The score is no lower than the one the node came with. -/
  score_le : n.score ≤ r.node.score
  /-- Nor is it lower than the bound of the relaxation. -/
  bound_le : r.lowerBound ≤ r.node.score
  /-- A point is looked for only after the node was bounded. -/
  upperCalls_le : r.upperCalls ≤ r.lowerCalls
  /-- The node is bounded once at most. -/
  lowerCalls_le : r.lowerCalls ≤ 1
  /-- The point that was found is one, and it beats the incumbent. -/
  candidate : ∀ c ∈ r.candidate, c.point ≠ [] ∧ c.value < cutoff.incumbent

/-- A candidate beats the incumbent that it was looked for under. -/
theorem Report.value_lt_of_candidate? {cutoff : Cutoff α} {found : UpperAnswer α} {c : Candidate α}
    (h : candidate? cutoff found = some c) : c.value < cutoff.incumbent := by
  have hmem : c ∈ (candidate? cutoff found).toList := Option.mem_toList.mpr h
  rw [toList_candidate?, List.mem_filter] at hmem
  exact of_decide_eq_true hmem.2

namespace Report.Conforms

variable {r : Report α} {n tight : Node α} {cutoff : Cutoff α}

/-- A report goes on to the next stage that is not terminal. -/
theorem advance (h : r.Conforms n cutoff) (stage : Stage)
    (hopen : r.stage.isTerminal = false) (hnext : r.stage.allows stage = true)
    (hstage : stage.isTerminal = false) : (r.advance stage).Conforms n cutoff :=
  { h with toTraced := h.toTraced.advance stage hopen hnext hstage }

/-- A call for a lower bound is counted. -/
theorem count (h : r.Conforms n cutoff) (hlower : r.lowerCalls = 0) :
    { r with lowerCalls := r.lowerCalls + 1 }.Conforms n cutoff :=
  { h with
    upperCalls_le := Nat.le_succ_of_le h.upperCalls_le
    lowerCalls_le := by rw [hlower] }

/-- A call for a point is counted, and the point that it found is noted. -/
theorem found (h : r.Conforms n cutoff) (hcalls : r.upperCalls < r.lowerCalls)
    (answer : UpperAnswer α) :
    { r with
      upperCalls := r.upperCalls + 1
      candidate := Report.candidate? cutoff answer }.Conforms n cutoff :=
  { h with
    upperCalls_le := hcalls
    candidate := fun _ hc =>
      ⟨Report.point_ne_nil_of_candidate? hc, Report.value_lt_of_candidate? hc⟩ }

/-- The box changes. -/
theorem tightened (h : r.Conforms n cutoff) (hscore : tight.score = r.node.score) :
    { r with node := tight }.Conforms n cutoff :=
  { h with
    infinite := fun htrue => hscore.trans (h.infinite htrue)
    score_le := hscore ▸ h.score_le
    bound_le := hscore ▸ h.bound_le }

variable [Scalar.Ordered α]

/-- The report at the start of processing, on a node of the same score. -/
theorem start (hscore : tight.score = n.score) (hdef : Scalar.isNaN n.score = false) :
    (Report.start tight).Conforms n cutoff where
  toTraced := Traced.start tight
  infinite := nofun
  score_le := by
    rw [← hscore] at hdef ⊢
    exact Scalar.Ordered.le_refl hdef
  bound_le := Scalar.Ordered.neg_infinity_le (hscore.symm ▸ hdef)
  upperCalls_le := le_refl 0
  lowerCalls_le := Nat.zero_le 1
  candidate := nofun

/-- The answer of the relaxation raises the score. -/
theorem withLower (h : r.Conforms n cutoff) {answer : LowerAnswer α}
    (hopen : r.stage.isTerminal = false) (hdef : Scalar.isNaN answer.bound = false) :
    (r.withLower answer).Conforms n cutoff :=
  { h with
    infinite := fun htrue =>
      absurd ((h.flags_of_open hopen).1.symm.trans htrue) Bool.false_ne_true
    score_le := Scalar.Ordered.le_trans h.score_le
      (Scalar.le_greatest_left (Scalar.Ordered.isNaN_right_of_le h.score_le))
    bound_le := Scalar.le_greatest_right hdef }

/-- A report whose stage is not terminal ends with fathoming the node. -/
theorem fathom (h : r.Conforms n cutoff) (hopen : r.stage.isTerminal = false) (reason : Reason) :
    (r.fathom reason).Conforms n cutoff := by
  have htraced := h.toTraced.fathom hopen reason
  have hscore := Scalar.Ordered.le_infinity (Scalar.Ordered.isNaN_left_of_le h.score_le)
  have hbound := Scalar.Ordered.le_infinity (Scalar.Ordered.isNaN_left_of_le h.bound_le)
  cases reason with
  | infeasible | tighteningInfeasible =>
    exact ⟨htraced, fun _ => rfl, hscore, hbound, h.upperCalls_le, h.lowerCalls_le, h.candidate⟩
  | valueDominated | converged | fixedPointEvaluated =>
    exact { h with toTraced := htraced }

/-- A relaxation that is infeasible has an infinite bound. -/
theorem fathom_infeasible (h : r.Conforms n cutoff) (hopen : r.stage.isTerminal = false) :
    ({ r with lowerBound := Scalar.infinity }.fathom .infeasible).Conforms n cutoff :=
  { h.fathom hopen .infeasible with
    bound_le := Scalar.Ordered.le_refl Scalar.Ordered.isNaN_infinity }

end Report.Conforms

/-! ## Processing -/

section Processing

variable [Scalar.Ordered α] {solvers : Solvers σ α} {n : Node α} {r s : Report α}
  {answer : LowerAnswer α} {cutoff current : Cutoff α} {memory after : σ} {failure : Failure α}

/-- The last part of processing ends with a report that conforms. -/
theorem finishNode_conforms (hs : solvers.Tighten fun m n => m.score = n.score)
    (h : (finishNode solvers r answer current).Returns memory s after)
    (hr : r.Conforms n cutoff) (hstage : r.stage = .upperBounded) : s.Conforms n cutoff := by
  have hopen : r.stage.isTerminal = false := by rw [hstage]; rfl
  have hallows : r.stage.allows .postprocessed = true := by rw [hstage]; rfl
  cases finishNode_exit h with
  | emptied hcall =>
    exact (hr.tightened (hs.postprocess hcall)).fathom hopen .tighteningInfeasible
  | solved hcall =>
    exact ((hr.tightened (hs.postprocess hcall)).advance .postprocessed hopen hallows rfl).fathom
      rfl .converged
  | opened hcall =>
    exact (hr.tightened (hs.postprocess hcall)).advance .postprocessed hopen hallows rfl

/-- So does the middle part. -/
theorem searchNode_conforms (hs : solvers.Tighten fun m n => m.score = n.score)
    (h : (searchNode solvers r answer cutoff).Returns memory s after)
    (hr : r.Conforms n cutoff) (hstage : r.stage = .lowerBounded)
    (hcalls : r.upperCalls < r.lowerCalls) : s.Conforms n cutoff := by
  have hsearched : ∀ found, (r.withFound cutoff found).Conforms n cutoff := fun found =>
    (hr.found hcalls found).advance .upperBounded (by rw [hstage]; rfl) (by rw [hstage]; rfl) rfl
  cases searchNode_exit h with
  | solved => exact (hsearched _).fathom rfl .converged
  | dominated => exact (hsearched _).fathom rfl .valueDominated
  | passed _ _ _ hrest => exact finishNode_conforms hs hrest (hsearched _) rfl

/-- So does the second part. -/
theorem boundNode_conforms (hs : solvers.Tighten fun m n => m.score = n.score)
    (h : (boundNode solvers r cutoff).Returns memory s after)
    (hr : r.Conforms n cutoff) (hstage : r.stage = .preprocessed) (hlower : r.lowerCalls = 0) :
    s.Conforms n cutoff := by
  have hcounted := hr.count hlower
  have hopen : r.stage.isTerminal = false := by rw [hstage]; rfl
  have hbounded : ∀ {answer : LowerAnswer α}, Scalar.isNaN answer.bound = false →
      (r.withBound answer).Conforms n cutoff := fun hdefined =>
    (hcounted.withLower hopen hdefined).advance .lowerBounded hopen
      (by rw [Report.withLower, hstage]; rfl) rfl
  cases boundNode_exit h with
  | infeasible => exact hcounted.fathom_infeasible hopen
  | dominated _ _ hdefined => exact (hbounded hdefined).fathom rfl .valueDominated
  | passed _ _ hdefined _ hrest =>
    exact searchNode_conforms hs hrest (hbounded hdefined) rfl (Nat.lt_succ_of_le hr.upperCalls_le)

/-- So does the first part. -/
theorem tightenNode_conforms (hs : solvers.Tighten fun m n => m.score = n.score)
    (h : (tightenNode solvers n cutoff).Returns memory s after)
    (hdef : Scalar.isNaN n.score = false) : s.Conforms n cutoff := by
  cases tightenNode_exit h with
  | emptied hcall =>
    exact (Report.Conforms.start (hs.preprocess hcall) hdef).fathom rfl .tighteningInfeasible
  | passed hcall _ hrest =>
    have hstarted : Report.Conforms _ n cutoff := .start (hs.preprocess hcall) hdef
    have hstart := hstarted.advance .preprocessed rfl rfl rfl
    exact boundNode_conforms hs hrest hstart rfl rfl

/-- And so does processing a node from the start. -/
theorem processNode_conforms (hs : solvers.Tighten fun m n => m.score = n.score)
    (h : (processNode solvers n cutoff).Returns memory s after)
    (hdef : Scalar.isNaN n.score = false) : s.Conforms n cutoff := by
  obtain ⟨r, busy, htighten, rfl⟩ := processNode_exit h
  -- the time on the report does not matter
  have hr := tightenNode_conforms hs htighten hdef
  exact { hr with }

end Processing

/-! ## Where processing fails -/

section Failing

variable {solvers : Solvers σ α} {n : Node α} {r : Report α} {answer : LowerAnswer α}
  {cutoff : Cutoff α} {memory after : σ} {failure : Failure α}

/-- The calls whose failure is that of processing a node, each made in the state that the calls
before it left: the four calls on the solvers, and the check of the bound. -/
inductive Solvers.Breaks (solvers : Solvers σ α) (n : Node α) (incumbent : α) (memory : σ)
    (failure : Failure α) (after : σ) : Prop
  /-- The first tightening fails. -/
  | preprocess (h : (solvers.preprocess n incumbent).Fails memory failure after)
  /-- The call for a lower bound fails. -/
  | lower {tight first}
      (hpre : (solvers.preprocess n incumbent).Returns memory (false, tight) first)
      (h : (solvers.lower tight incumbent).Fails first failure after)
  /-- The call for a lower bound brings an undefined one. -/
  | undefined {tight first answer}
      (hpre : (solvers.preprocess n incumbent).Returns memory (false, tight) first)
      (hlower : (solvers.lower tight incumbent).Returns first answer after)
      (hinfeasible : answer.infeasible = false) (hbound : Scalar.isNaN answer.bound = true)
      (hfailure : failure = .error (.solverFailed (.undefinedBound tight.id)))
  /-- The call for a point fails. -/
  | upper {tight bounded first answer second seed}
      (hpre : (solvers.preprocess n incumbent).Returns memory (false, tight) first)
      (hlower : (solvers.lower tight incumbent).Returns first answer second)
      (h : (solvers.upper bounded seed incumbent).Fails second failure after)
  /-- The second tightening fails. -/
  | postprocess {tight bounded first answer second seed found third value}
      (hpre : (solvers.preprocess n incumbent).Returns memory (false, tight) first)
      (hlower : (solvers.lower tight incumbent).Returns first answer second)
      (hupper : (solvers.upper bounded seed incumbent).Returns second found third)
      (h : (solvers.postprocess bounded answer.point answer.duals value).Fails third failure after)

/-- The last part of processing fails where the second tightening does. -/
theorem finishNode_fails (h : (finishNode solvers r answer cutoff).Fails memory failure after) :
    (solvers.postprocess r.node r.point answer.duals cutoff.incumbent).Fails memory failure
      after := by
  rcases Call.fails_bind h with hpost | ⟨⟨solved, tight⟩, mid, -, h⟩
  · exact hpost
  · dsimp only at h
    split at h
    · exact absurd h Call.not_fails_pure
    · split at h <;> exact absurd h Call.not_fails_pure

/-- The middle part fails where the call for a point does, or after it. -/
theorem searchNode_fails (h : (searchNode solvers r answer cutoff).Fails memory failure after) :
    (solvers.upper r.node r.seed cutoff.incumbent).Fails memory failure after
      ∨ ∃ found mid value,
        (solvers.upper r.node r.seed cutoff.incumbent).Returns memory found mid
          ∧ (solvers.postprocess r.node r.point answer.duals value).Fails mid failure after := by
  rcases Call.fails_bind h with hupper | ⟨found, mid, hfound, h⟩
  · exact .inl hupper
  · right
    dsimp only at h
    split at h
    · exact absurd h Call.not_fails_pure
    · split at h
      · exact absurd h Call.not_fails_pure
      · have hpost := finishNode_fails h
        exact ⟨found, mid, _, hfound, hpost⟩

/-- Processing fails where one of its calls does. -/
theorem tightenNode_fails (h : (tightenNode solvers n cutoff).Fails memory failure after) :
    solvers.Breaks n cutoff.incumbent memory failure after := by
  -- the calls are made in turn, and the first one that fails is the one that breaks
  rcases Call.fails_bind h with hpre | ⟨⟨infeasible, tight⟩, first, hpre, h⟩
  · exact .preprocess hpre
  dsimp only at h
  split at h
  · exact absurd h Call.not_fails_pure
  next hopen =>
  obtain rfl : infeasible = false := by
    rw [Bool.or_eq_true, not_or] at hopen
    exact Bool.eq_false_iff.mpr hopen.1
  rcases Call.fails_bind h with hlower | ⟨answer, second, hlower, h⟩
  · exact .lower hpre hlower
  dsimp only at h
  split at h
  · exact absurd h Call.not_fails_pure
  next hfeasible =>
  split at h
  · next hbound =>
    obtain ⟨rfl, rfl⟩ := Call.fails_throw h
    exact .undefined hpre hlower (Bool.eq_false_iff.mpr hfeasible) hbound rfl
  · split at h
    · exact absurd h Call.not_fails_pure
    · rcases searchNode_fails h with hupper | ⟨found, third, value, hupper, hpost⟩
      · exact .upper hpre hlower hupper
      · exact .postprocess hpre hlower hupper hpost

/-- The time that processing takes does not make it fail. -/
theorem processNode_fails (h : (processNode solvers n cutoff).Fails memory failure after) :
    solvers.Breaks n cutoff.incumbent memory failure after := by
  have hnow : ∀ {memory after : σ} {failure : Failure α},
      ¬ solvers.now.Fails memory failure after := fun h => by cases h
  rcases Call.fails_bind h with h | ⟨started, begun, hstarted, h⟩
  · exact absurd h hnow
  have hbegun : (started, begun) = (solvers.clock memory, memory) := by
    cases hstarted
    rfl
  cases hbegun
  rcases Call.fails_bind h with h | ⟨r, mid, -, h⟩
  · exact tightenNode_fails h
  rcases Call.fails_bind h with h | ⟨ended, done, -, h⟩
  · exact absurd h hnow
  · exact absurd h Call.not_fails_pure

end Failing

/-! ## What processing comes to -/

section Concluding

variable [Scalar.Ordered α] {solvers : Solvers σ α} {n : Node α} {r : Report α}
  {cutoff : Cutoff α} {memory after : σ}

omit [Scalar α] [Scalar.Ordered α] in
/-- Only the bounds and the score of a node differ. -/
def Node.Rescored (m n : Node α) : Prop := ∃ box score, m = { n with box, score }

omit [Scalar α] [Scalar.Ordered α] in
/-- Such a difference stays one however often the bounds and the score change. -/
theorem Node.composes_rescored :
    Node.Composes (Node.Rescored : Node α → Node α → Prop) where
  refl n := ⟨n.box, n.score, rfl⟩
  trans := by
    rintro l m n ⟨box, score, rfl⟩ ⟨box', score', rfl⟩
    exact ⟨box, score, rfl⟩
  score n x := ⟨n.box, x, rfl⟩

/-- What the report on a node says once the node was processed under a cutoff. -/
structure Report.Concludes (r : Report α) (n : Node α) (cutoff : Cutoff α) : Prop
    extends Report.Conforms r n cutoff where
  /-- The report is about the node. -/
  rescored : r.node.Rescored n
  /-- The node has to be branched or was fathomed, but not as a point that was evaluated twice. -/
  concluded : r.stage = .postprocessed
    ∨ ∃ reason, reason ≠ .fixedPointEvaluated ∧ r.stage = .fathomed reason
  /-- A dominated node reaches the cutoff, tightened by the point that was found. -/
  dominated : r.stage = .fathomed .valueDominated → r.ReachesCutoff cutoff
  /-- A node that has to be branched has points and does not reach it. -/
  opened : r.stage = .postprocessed → r.node.box.isEmpty = false ∧ ¬ r.ReachesCutoff cutoff
    ∧ (Scalar.isNaN (Report.tightened cutoff r.candidate).threshold = false →
        r.node.score < (Report.tightened cutoff r.candidate).threshold)

/-- The report on a node that was processed. -/
theorem Report.concludes_of_returns (hs : solvers.Tighten Node.Rebounded)
    (hdef : Scalar.isNaN n.score = false)
    (h : (processNode solvers n cutoff).Returns memory r after) : r.Concludes n cutoff := by
  have hscores : solvers.Tighten fun m n => m.score = n.score :=
    hs.mono fun _ _ ⟨_, heq⟩ => by rw [heq]
  have hconforms := processNode_conforms hscores h hdef
  refine ⟨hconforms, ?_, ?_, processNode_dominated h, fun hopen => ?_⟩
  · exact processNode_related Node.composes_rescored
      (hs.mono fun _ n ⟨box, heq⟩ => ⟨box, n.score, heq⟩) h
  · -- a node that is not open says why in its stage
    cases processNode_ends h with
    | opened hopen => exact .inl hopen
    | settled reason hstage hreason =>
      exact .inr ⟨reason, by rcases hreason with rfl | rfl | rfl <;> exact nofun, hstage⟩
    | dominated hstage => exact .inr ⟨.valueDominated, nofun, hstage⟩
  · obtain ⟨hfull, -, hbelow⟩ := processNode_opened hscores h hopen
    have hnot : ¬ r.ReachesCutoff cutoff := by
      unfold Report.ReachesCutoff
      exact of_decide_eq_false hbelow
    refine ⟨hfull, hnot, fun hthreshold => ?_⟩
    exact Scalar.lt_of_not_le hthreshold (Scalar.Ordered.isNaN_right_of_le hconforms.score_le) hnot

/-- Whatever the solvers answer, as long as tightening changes no more than the bounds of a node:
processing a node whose score is defined comes to a report on it, or fails as one of the calls
does that are made. -/
theorem processNode_concludes (hs : solvers.Tighten Node.Rebounded)
    (hdef : Scalar.isNaN n.score = false) (cutoff : Cutoff α) (memory : σ) :
    (∃ r after, (processNode solvers n cutoff).Returns memory r after ∧ r.Concludes n cutoff)
      ∨ ∃ failure after, (processNode solvers n cutoff).Fails memory failure after
        ∧ solvers.Breaks n cutoff.incumbent memory failure after := by
  rcases Call.returns_or_fails (processNode solvers n cutoff) memory with
    ⟨r, after, h⟩ | ⟨failure, after, h⟩
  · exact .inl ⟨r, after, h, Report.concludes_of_returns hs hdef h⟩
  · exact .inr ⟨failure, after, h, processNode_fails h⟩

end Concluding

/-- Solvers that cut every box down to the unit interval and find its upper end. -/
def pinchingSolvers : Solvers Unit (Extended ℚ) where
  preprocess n _ := pure (false, { n with box := ⟨[0], [1]⟩ })
  lower _ _ := pure (.ofBound (.point (-3)) [0])
  upper _ _ incumbent := pure (.ofPoint (.point 2) [1] incumbent)
  postprocess n _ _ _ := pure (false, { n with box := ⟨[0], [1]⟩ })

/-- A node with a wider box. -/
def pinchedNode : Node (Extended ℚ) := ⟨.point (-5), ⟨[0], [.point 4]⟩, none, 3, 1, false⟩

/-- They change no more than the bounds of a node. -/
theorem tighten_pinchingSolvers : pinchingSolvers.Tighten Node.Rebounded where
  preprocess h := by
    obtain ⟨-, rfl⟩ := Prod.mk.inj (Call.returns_pure h)
    exact ⟨_, rfl⟩
  postprocess h := by
    obtain ⟨-, rfl⟩ := Prod.mk.inj (Call.returns_pure h)
    exact ⟨_, rfl⟩

/-- Processing the node finds a point and leaves the node to be branched. -/
theorem processNode_concludes_pinchedNode :
    pinchingSolvers.Tighten Node.Rebounded ∧ Scalar.isNaN pinchedNode.score = false
      ∧ ∃ r after, (processNode pinchingSolvers pinchedNode ⟨.top, 0, 0⟩).Returns () r after
        ∧ r.Concludes pinchedNode ⟨.top, 0, 0⟩
        ∧ (r.needsBranching && r.candidate.isSome) = true := by
  have hran : ((processNode pinchingSolvers pinchedNode ⟨.top, 0, 0⟩).exec ()).1.toOption.any
      (fun r => r.needsBranching && r.candidate.isSome) = true := by decide +kernel
  refine ⟨tighten_pinchingSolvers, rfl, ?_⟩
  rcases processNode_concludes tighten_pinchingSolvers (n := pinchedNode) rfl ⟨.top, 0, 0⟩ () with
    ⟨r, after, h, hr⟩ | ⟨failure, after, h, -⟩
  · refine ⟨r, after, h, hr, ?_⟩
    rw [Call.exec, h] at hran
    exact hran
  · rw [Call.exec, h] at hran
    cases hran

end BranchBound
