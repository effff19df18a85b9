import BranchBound.Proofs.Node.Answering

/-! # The calls that are made on solvers

To say which calls a search makes, its solvers are replaced by ones that write down every call
before they answer it (`Solvers.logged`). They answer as the original solvers do, so what is asked
of those holds of them, and what they have written down only grows.

* **`Query`** — a call and its arguments.
* **`Solvers.logged`** — solvers that write down the calls made on them.
* **`Solvers.Reliable.logged`**, **`Solvers.Defined.logged`** — they answer as the original ones.
* **`processNode_logs`** — processing a node comes to the same, and adds to what was written
  down. -/

namespace BranchBound

variable {σ α β γ : Type}

/-- A call on solvers. -/
inductive Query (α : Type)
  /-- The first tightening of a node under the value of an incumbent. -/
  | preprocess (node : Node α) (incumbent : α)
  /-- A lower bound of a node. -/
  | lower (node : Node α) (incumbent : α)
  /-- A feasible point of a node, looked for from a point on. -/
  | upper (node : Node α) (seed : List α) (incumbent : α)
  /-- The second tightening of a node, given a point and multipliers. -/
  | postprocess (node : Node α) (point : List α) (duals : Duals α) (incumbent : α)

namespace Call

/-- The call, written down at the end of a log. -/
def logged (call : Call σ α β) (query : Query α) : Call (σ × List (Query α)) α β :=
  ExceptT.mk fun memory =>
    let (answer, after) := Id.run (call.run.run memory.1)
    (answer, (after, memory.2 ++ [query]))

/-- Whenever the first call succeeds, the second one does so in the same way, and the first one adds
to the log. -/
def Logs (call : Call (σ × List (Query α)) α β) (plain : Call σ α β) : Prop :=
  ∀ memory x after, call.Returns memory x after →
    plain.Returns memory.1 x after.1 ∧ memory.2 <+: after.2

variable {call : Call σ α β} {query : Query α} {P : β → Prop}
  {memory after : σ × List (Query α)} {x : β}

/-- A call that is written down succeeds as it would otherwise. -/
theorem returns_logged :
    (call.logged query).Returns memory x after ↔
      call.Returns memory.1 x after.1 ∧ after.2 = memory.2 ++ [query] := by
  unfold Returns
  have hrun : Id.run (StateT.run (ExceptT.run (call.logged query)) memory)
      = ((Id.run (call.run.run memory.1)).1,
        ((Id.run (call.run.run memory.1)).2, memory.2 ++ [query])) := rfl
  rw [hrun]
  rcases Id.run (call.run.run memory.1) with ⟨answer, left⟩
  simp only [Prod.ext_iff]
  tauto

/-- What is known of the answer to a call is known of the answer to it when it is written down. -/
theorem Succeeds.logged (h : call.Succeeds P) : (call.logged query).Succeeds P := by
  intro memory
  obtain ⟨x, after, hcall, hx⟩ := h memory.1
  exact ⟨x, (after, memory.2 ++ [query]), returns_logged.mpr ⟨hcall, rfl⟩, hx⟩

/-- Writing down a call adds to the log. -/
theorem logs_logged : (call.logged query).Logs call := by
  intro memory x after h
  obtain ⟨hcall, hlog⟩ := returns_logged.mp h
  rw [hlog]
  exact ⟨hcall, List.prefix_append _ _⟩

/-- An answer given without a call adds nothing. -/
theorem logs_pure {x : β} :
    Logs (pure x : Call (σ × List (Query α)) α β) (pure x : Call σ α β) := by
  intro memory y after h
  cases h
  exact ⟨rfl, List.prefix_rfl⟩

/-- A failure never succeeds. -/
theorem logs_throw {failure : Failure α} :
    Logs (throw failure : Call (σ × List (Query α)) α β) (throw failure : Call σ α β) :=
  fun _ _ _ h => absurd h not_returns_throw

/-- Two calls one after the other add to the log if each of them does. -/
theorem Logs.bind {call : Call (σ × List (Query α)) α β} {plain : Call σ α β}
    {next : β → Call (σ × List (Query α)) α γ} {plainNext : β → Call σ α γ} (h : call.Logs plain)
    (k : ∀ x, (next x).Logs (plainNext x)) : (call >>= next).Logs (plain >>= plainNext) := by
  intro memory y after hcalls
  obtain ⟨x, mid, hcall, hnext⟩ := returns_bind hcalls
  obtain ⟨hplain, hlog⟩ := h memory x mid hcall
  obtain ⟨hplainNext, hlogNext⟩ := k x mid y after hnext
  exact ⟨hplain.bind hplainNext, hlog.trans hlogNext⟩

end Call

namespace Solvers

variable {solvers : Solvers σ α}

/-- Solvers that write down every call. -/
def logged (solvers : Solvers σ α) : Solvers (σ × List (Query α)) α where
  preprocess n v := (solvers.preprocess n v).logged (.preprocess n v)
  lower n v := (solvers.lower n v).logged (.lower n v)
  upper n seed v := (solvers.upper n seed v).logged (.upper n seed v)
  postprocess n point duals v :=
    (solvers.postprocess n point duals v).logged (.postprocess n point duals v)
  clock memory := solvers.clock memory.1

/-- Calls that succeed do so when they are written down. -/
theorem Reliable.logged (h : solvers.Reliable) : solvers.logged.Reliable where
  preprocess n v := (h.preprocess n v).logged
  lower n v := (h.lower n v).logged
  upper n seed v := (h.upper n seed v).logged
  postprocess n point duals v := (h.postprocess n point duals v).logged

variable [Scalar α]

/-- Bounds that are defined are so when the calls for them are written down. -/
theorem Defined.logged (h : solvers.Defined) : solvers.logged.Defined :=
  fun n v _ answer _ hcall => h n v _ answer _ (Call.returns_logged.mp hcall).1

end Solvers

variable [Scalar α] (solvers : Solvers σ α)

/-- The last part of processing comes to the same, and adds to the log. -/
theorem finishNode_logs (r : Report α) (answer : LowerAnswer α) (cutoff : Cutoff α) :
    (finishNode solvers.logged r answer cutoff).Logs (finishNode solvers r answer cutoff) := by
  refine Call.logs_logged.bind fun ⟨solved, tight⟩ => ?_
  dsimp only
  split
  · exact Call.logs_pure
  · split <;> exact Call.logs_pure

/-- The middle part of processing comes to the same, and adds to the log. -/
theorem searchNode_logs (r : Report α) (answer : LowerAnswer α) (cutoff : Cutoff α) :
    (searchNode solvers.logged r answer cutoff).Logs (searchNode solvers r answer cutoff) := by
  refine Call.logs_logged.bind fun found => ?_
  dsimp only
  split
  · exact Call.logs_pure
  · split
    · exact Call.logs_pure
    · exact finishNode_logs solvers _ _ _

/-- The second part of processing comes to the same, and adds to the log. -/
theorem boundNode_logs (r : Report α) (cutoff : Cutoff α) :
    (boundNode solvers.logged r cutoff).Logs (boundNode solvers r cutoff) := by
  refine Call.logs_logged.bind fun answer => ?_
  dsimp only
  split
  · exact Call.logs_pure
  · split
    · exact Call.logs_throw
    · split
      · exact Call.logs_pure
      · exact searchNode_logs solvers _ _ _

/-- The first part of processing comes to the same, and adds to the log. -/
theorem tightenNode_logs (n : Node α) (cutoff : Cutoff α) :
    (tightenNode solvers.logged n cutoff).Logs (tightenNode solvers n cutoff) := by
  refine Call.logs_logged.bind fun ⟨infeasible, tight⟩ => ?_
  dsimp only
  split
  · exact Call.logs_pure
  · exact boundNode_logs solvers _ _

/-- Processing a node comes to the same, and adds to the log. -/
theorem processNode_logs (n : Node α) (cutoff : Cutoff α) :
    (processNode solvers.logged n cutoff).Logs (processNode solvers n cutoff) := by
  have hnow : solvers.logged.now.Logs solvers.now := by
    intro memory x after h
    cases h
    exact ⟨rfl, List.prefix_rfl⟩
  refine hnow.bind fun started => (tightenNode_logs solvers n cutoff).bind fun s => ?_
  exact hnow.bind fun ended => Call.logs_pure

end BranchBound
