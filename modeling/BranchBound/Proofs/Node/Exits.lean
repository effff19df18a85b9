import BranchBound.Report

/-! # The exits of processing

Processing a node has four parts. Each makes one call on the solvers, and then ends the processing
or passes its report on to the next part. What each of them can do is said here once, together with
the call that was made; whatever is proved of reports goes through these cases.

* **`Call.Returns`** — a call on the solvers succeeds; `Call.returns_bind` takes it apart.
* **`TightenExit`**, **`BoundExit`**, **`SearchExit`**, **`FinishExit`** — what becomes of a node in
  each part; `tightenNode_exit`, `boundNode_exit`, `searchNode_exit` and `finishNode_exit` say that
  nothing else does.
* **`processNode_exit`** — the parts together come to the report, but for the time on it. -/

namespace BranchBound

variable {σ α β γ : Type}

/-! ## Calls that succeed -/

namespace Call

/-- The call succeeds with an answer and leaves the solvers in a state. -/
def Returns (call : Call σ α β) (memory : σ) (answer : β) (after : σ) : Prop :=
  Id.run (StateT.run (ExceptT.run call) memory) = (.ok answer, after)

variable {memory after : σ}

/-- A call that does nothing. -/
theorem returns_pure {x y : β} (h : Returns (pure x : Call σ α β) memory y after) : x = y := by
  cases h
  rfl

/-- A call that fails does not succeed. -/
theorem not_returns_throw {e : Failure α} {y : β} :
    ¬ Returns (throw e : Call σ α β) memory y after := by
  intro h
  cases h

/-- A call in two parts succeeds if both parts do. -/
theorem returns_bind {call : Call σ α β} {next : β → Call σ α γ} {y : γ}
    (h : Returns (call >>= next) memory y after) :
    ∃ x mid, call.Returns memory x mid ∧ (next x).Returns mid y after := by
  change (match Id.run (StateT.run (ExceptT.run call) memory) with
    | (result, mid) => ExceptT.bindCont next result mid) = _ at h
  rcases hcall : Id.run (StateT.run (ExceptT.run call) memory) with ⟨e | x, mid⟩ <;>
    rw [hcall] at h
  · cases h
  · exact ⟨x, mid, hcall, h⟩

end Call

/-! ## The reports that are passed on -/

variable [Scalar α]

namespace Report

/-- The report after the call for a lower bound. -/
def withBound (r : Report α) (answer : LowerAnswer α) : Report α :=
  ({ r with lowerCalls := r.lowerCalls + 1 }.withLower answer).advance .lowerBounded

/-- The report after the search for a point. -/
def withFound (r : Report α) (cutoff : Cutoff α) (found : UpperAnswer α) : Report α :=
  { r with
    upperCalls := r.upperCalls + 1
    candidate := candidate? cutoff found }.advance .upperBounded

end Report

/-! ## What the parts can do -/

section Exits

variable (solvers : Solvers σ α) (r : Report α) (answer : LowerAnswer α) (cutoff : Cutoff α)
  (memory after : σ)

/-- What becomes of a node in the last part of its processing. -/
inductive FinishExit : Report α → Prop
  /-- The second tightening left no box. -/
  | emptied {solved : Bool} {tight : Node α}
      (hcall : (solvers.postprocess r.node r.point answer.duals cutoff.incumbent).Returns memory
        (solved, tight) after)
      (hempty : tight.box.isEmpty = true) :
      FinishExit ({ r with node := tight }.fathom .tighteningInfeasible)
  /-- It solved the node. -/
  | solved {tight : Node α}
      (hcall : (solvers.postprocess r.node r.point answer.duals cutoff.incumbent).Returns memory
        (true, tight) after)
      (hfull : tight.box.isEmpty = false) :
      FinishExit (({ r with node := tight }.advance .postprocessed).fathom .converged)
  /-- The node has to be branched. -/
  | opened {tight : Node α}
      (hcall : (solvers.postprocess r.node r.point answer.duals cutoff.incumbent).Returns memory
        (false, tight) after)
      (hfull : tight.box.isEmpty = false) :
      FinishExit ({ r with node := tight }.advance .postprocessed)

/-- What becomes of it in the middle part. -/
inductive SearchExit : Report α → Prop
  /-- The bound is attained, or the point that was found is the best one. -/
  | solved {found : UpperAnswer α}
      (hcall : (solvers.upper r.node r.seed cutoff.incumbent).Returns memory found after)
      (hsolved : answer.converged = true ∨ found.converged = true) :
      SearchExit ((r.withFound cutoff found).fathom .converged)
  /-- The node is dominated once the point that was found is taken into account. -/
  | dominated {found : UpperAnswer α}
      (hcall : (solvers.upper r.node r.seed cutoff.incumbent).Returns memory found after)
      (hopen : answer.converged = false ∧ found.converged = false)
      (hdominated : (Report.tightened cutoff (Report.candidate? cutoff found)).dominates
        r.node.score = true) :
      SearchExit ((r.withFound cutoff found).fathom .valueDominated)
  /-- The last part follows. -/
  | passed {found : UpperAnswer α} {mid : σ} {s : Report α}
      (hcall : (solvers.upper r.node r.seed cutoff.incumbent).Returns memory found mid)
      (hopen : answer.converged = false ∧ found.converged = false)
      (hlive : (Report.tightened cutoff (Report.candidate? cutoff found)).dominates
        r.node.score = false)
      (hrest : (finishNode solvers (r.withFound cutoff found) answer
        (Report.tightened cutoff (Report.candidate? cutoff found))).Returns mid s after) :
      SearchExit s

/-- What becomes of it in the second part. -/
inductive BoundExit : Report α → Prop
  /-- The relaxation is infeasible. -/
  | infeasible {answer : LowerAnswer α}
      (hcall : (solvers.lower r.node cutoff.incumbent).Returns memory answer after)
      (hinfeasible : answer.infeasible = true) :
      BoundExit ({ r with
        lowerCalls := r.lowerCalls + 1
        lowerBound := Scalar.infinity }.fathom .infeasible)
  /-- The node is dominated, and its bound is not attained. -/
  | dominated {answer : LowerAnswer α}
      (hcall : (solvers.lower r.node cutoff.incumbent).Returns memory answer after)
      (hfeasible : answer.infeasible = false) (hdefined : Scalar.isNaN answer.bound = false)
      (hopen : answer.converged = false)
      (hdominated : cutoff.dominates (r.withBound answer).node.score = true) :
      BoundExit ((r.withBound answer).fathom .valueDominated)
  /-- The middle part follows. -/
  | passed {answer : LowerAnswer α} {mid : σ} {s : Report α}
      (hcall : (solvers.lower r.node cutoff.incumbent).Returns memory answer mid)
      (hfeasible : answer.infeasible = false) (hdefined : Scalar.isNaN answer.bound = false)
      (hlive : answer.converged = true ∨ cutoff.dominates (r.withBound answer).node.score = false)
      (hrest : (searchNode solvers (r.withBound answer) answer cutoff).Returns mid s after) :
      BoundExit s

/-- What becomes of it in the first part. -/
inductive TightenExit (n : Node α) : Report α → Prop
  /-- The first tightening ruled the node out or left no box. -/
  | emptied {infeasible : Bool} {tight : Node α}
      (hcall : (solvers.preprocess n cutoff.incumbent).Returns memory (infeasible, tight) after)
      (hempty : infeasible = true ∨ tight.box.isEmpty = true) :
      TightenExit n ((Report.start tight).fathom .tighteningInfeasible)
  /-- The second part follows. -/
  | passed {tight : Node α} {mid : σ} {s : Report α}
      (hcall : (solvers.preprocess n cutoff.incumbent).Returns memory (false, tight) mid)
      (hfull : tight.box.isEmpty = false)
      (hrest : (boundNode solvers ((Report.start tight).advance .preprocessed) cutoff).Returns mid s
        after) :
      TightenExit n s

end Exits

/-! ## They do nothing else -/

variable {solvers : Solvers σ α} {n : Node α} {r s : Report α} {answer : LowerAnswer α}
  {cutoff : Cutoff α} {memory after : σ}

/-- The last part of processing has these exits only. -/
theorem finishNode_exit (h : (finishNode solvers r answer cutoff).Returns memory s after) :
    FinishExit solvers r answer cutoff memory after s := by
  obtain ⟨⟨solved, tight⟩, mid, hcall, h⟩ := Call.returns_bind h
  dsimp only at h
  split at h
  · next hempty =>
    cases h
    exact .emptied hcall hempty
  · next hfull =>
    rw [Bool.not_eq_true] at hfull
    cases solved <;> cases h
    · exact .opened hcall hfull
    · exact .solved hcall hfull

/-- The middle part has these exits only. -/
theorem searchNode_exit (h : (searchNode solvers r answer cutoff).Returns memory s after) :
    SearchExit solvers r answer cutoff memory after s := by
  obtain ⟨found, mid, hcall, h⟩ := Call.returns_bind h
  dsimp only at h
  split at h
  · next hsolved =>
    cases h
    exact .solved hcall (Bool.or_eq_true_iff.mp hsolved)
  · next hopen =>
    rw [Bool.not_eq_true, Bool.or_eq_false_iff] at hopen
    split at h
    · next hdominated =>
      cases h
      exact .dominated hcall hopen hdominated
    · next hlive => exact .passed hcall hopen (Bool.eq_false_iff.mpr hlive) h

/-- The second part has these exits only: its bound has to be defined. -/
theorem boundNode_exit (h : (boundNode solvers r cutoff).Returns memory s after) :
    BoundExit solvers r cutoff memory after s := by
  obtain ⟨answer, mid, hcall, h⟩ := Call.returns_bind h
  dsimp only at h
  -- the tests on the answer, in the order in which they are made
  split at h
  · next hinfeasible =>
    cases h
    exact .infeasible hcall hinfeasible
  · next hfeasible =>
    rw [Bool.not_eq_true] at hfeasible
    split at h
    · exact absurd h Call.not_returns_throw
    · next hdefined =>
      rw [Bool.not_eq_true] at hdefined
      split at h
      · next hdominated =>
        rw [Bool.and_eq_true, Bool.not_eq_true'] at hdominated
        cases h
        exact .dominated hcall hfeasible hdefined hdominated.1 hdominated.2
      · next hlive =>
        rw [Bool.not_eq_true, Bool.and_eq_false_iff, Bool.not_eq_false'] at hlive
        exact .passed hcall hfeasible hdefined hlive h

/-- The first part has these exits only. -/
theorem tightenNode_exit (h : (tightenNode solvers n cutoff).Returns memory s after) :
    TightenExit solvers cutoff memory after n s := by
  obtain ⟨⟨infeasible, tight⟩, mid, hcall, h⟩ := Call.returns_bind h
  dsimp only at h
  split at h
  · next hempty =>
    cases h
    exact .emptied hcall (Bool.or_eq_true_iff.mp hempty)
  · next hfull =>
    rw [Bool.not_eq_true, Bool.or_eq_false_iff] at hfull
    obtain ⟨rfl, hfull⟩ := hfull
    exact .passed hcall hfull h

/-- Processing comes to the report of its first part, with the time that it took. -/
theorem processNode_exit (h : (processNode solvers n cutoff).Returns memory s after) :
    ∃ r busy, (tightenNode solvers n cutoff).Returns memory r after ∧ s = { r with busy } := by
  obtain ⟨started, begun, hstarted, h⟩ := Call.returns_bind h
  obtain ⟨r, mid, htighten, h⟩ := Call.returns_bind h
  obtain ⟨ended, done, hended, h⟩ := Call.returns_bind h
  -- looking at the clock leaves the solvers as they are
  cases hstarted
  cases hended
  cases h
  exact ⟨r, _, htighten, rfl⟩

end BranchBound
