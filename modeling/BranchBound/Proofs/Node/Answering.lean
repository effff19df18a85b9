import BranchBound.Proofs.Node.Processing

/-! # Processing comes to an end

Solvers whose calls succeed and whose tightening leaves the id of a node alone (`Solvers.Reliable`)
bring every processing to a report on the node, unless they answer with an undefined bound, which is
the one error that processing itself raises.

* **`Call.Ensures`** — what a call comes to, whether it succeeds or goes wrong; `Ensures.bind` puts
  two calls together.
* **`Solvers.Reliable`**, **`Solvers.Defined`** — what is asked of solvers.
* **`processNode_ensures`**, **`processNode_returns`** — what processing then comes to. -/

namespace BranchBound

variable {σ α β γ : Type}

/-! ## Calls that succeed or go wrong -/

namespace Call

/-- The call goes wrong and leaves the solvers in a state. -/
def Fails (call : Call σ α β) (memory : σ) (failure : Failure α) (after : σ) : Prop :=
  Id.run (StateT.run (ExceptT.run call) memory) = (.error failure, after)

/-- In every state of the solvers the call succeeds with an answer of which `P` holds, or goes wrong
with a failure of which `F` holds. -/
def Ensures (call : Call σ α β) (P : β → Prop) (F : Failure α → Prop) : Prop :=
  ∀ memory, (∃ x after, call.Returns memory x after ∧ P x)
    ∨ ∃ failure after, call.Fails memory failure after ∧ F failure

/-- In every state of the solvers the call succeeds with an answer of which `P` holds. -/
def Succeeds (call : Call σ α β) (P : β → Prop) : Prop :=
  ∀ memory, ∃ x after, call.Returns memory x after ∧ P x

variable {call : Call σ α β} {next : β → Call σ α γ} {memory mid after : σ} {x : β} {y : γ}
  {P : β → Prop} {Q : γ → Prop} {F : Failure α → Prop}

/-- A call in two parts starts its second part from the state that the first part leaves. -/
theorem run_bind (h : call.Returns memory x mid) :
    Id.run (StateT.run (ExceptT.run (call >>= next)) memory)
      = Id.run (StateT.run (ExceptT.run (next x)) mid) := by
  have hcall : StateT.run (ExceptT.run call) memory = (.ok x, mid) := h
  unfold Id.run ExceptT.run StateT.run at hcall ⊢
  simp only [bind, ExceptT.bind, ExceptT.mk, StateT.bind, ExceptT.bindCont, hcall]

/-- A call in two parts succeeds once its first part has and its second part does. -/
theorem Returns.bind (h : call.Returns memory x mid) (k : (next x).Returns mid y after) :
    (call >>= next).Returns memory y after := (run_bind h).trans k

/-- An answer given without a call. -/
theorem ensures_pure (h : P x) : (pure x : Call σ α β).Ensures P F :=
  fun memory => .inl ⟨x, memory, rfl, h⟩

/-- A failure raised without a call. -/
theorem ensures_throw {failure : Failure α} (h : F failure) :
    (throw failure : Call σ α β).Ensures P F :=
  fun memory => .inr ⟨failure, memory, rfl, h⟩

/-- A call that succeeds, and then another one that is made with its answer. -/
theorem Succeeds.bind (h : call.Succeeds P) (k : ∀ x, P x → (next x).Ensures Q F) :
    (call >>= next).Ensures Q F := by
  intro memory
  obtain ⟨x, mid, hcall, hx⟩ := h memory
  rcases k x hx mid with ⟨y, after, hnext, hy⟩ | ⟨failure, after, hnext, hf⟩
  · exact .inl ⟨y, after, hcall.bind hnext, hy⟩
  · exact .inr ⟨failure, after, (run_bind hcall).trans hnext, hf⟩

/-- Two calls one after the other, where either may go wrong. -/
theorem Ensures.bind (h : call.Ensures P F) (k : ∀ x, P x → (next x).Ensures Q F) :
    (call >>= next).Ensures Q F := by
  intro memory
  rcases h memory with ⟨x, mid, hcall, hx⟩ | ⟨failure, mid, hcall, hf⟩
  · rcases k x hx mid with ⟨y, after, hnext, hy⟩ | ⟨failure, after, hnext, hf⟩
    · exact .inl ⟨y, after, hcall.bind hnext, hy⟩
    · exact .inr ⟨failure, after, (run_bind hcall).trans hnext, hf⟩
  · refine .inr ⟨failure, mid, ?_, hf⟩
    have hcall : StateT.run (ExceptT.run call) memory = (.error failure, mid) := hcall
    unfold Fails
    unfold Id.run ExceptT.run StateT.run at hcall ⊢
    simp only [Bind.bind, ExceptT.bind, ExceptT.mk, StateT.bind, ExceptT.bindCont, hcall]
    rfl

/-- What is known of an answer includes that it was given. -/
theorem Succeeds.answered (h : call.Succeeds P) :
    call.Succeeds fun x => P x ∧ ∃ memory after, call.Returns memory x after := by
  intro memory
  obtain ⟨x, after, hcall, hx⟩ := h memory
  exact ⟨x, after, hcall, hx, memory, after, hcall⟩

end Call

/-! ## Solvers that answer -/

/-- Every call on the solvers succeeds, and tightening a node leaves its id alone. -/
structure Solvers.Reliable (solvers : Solvers σ α) : Prop where
  /-- The first tightening. -/
  preprocess (n : Node α) (v : α) : (solvers.preprocess n v).Succeeds fun p => p.2.id = n.id
  /-- The call for a lower bound. -/
  lower (n : Node α) (v : α) : (solvers.lower n v).Succeeds fun _ => True
  /-- The call for a feasible point. -/
  upper (n : Node α) (seed : List α) (v : α) : (solvers.upper n seed v).Succeeds fun _ => True
  /-- The second tightening. -/
  postprocess (n : Node α) (point : List α) (duals : Duals α) (v : α) :
    (solvers.postprocess n point duals v).Succeeds fun p => p.2.id = n.id

variable [Scalar α]

/-- The bounds that the solvers answer with are defined. -/
def Solvers.Defined (solvers : Solvers σ α) : Prop :=
  ∀ n v memory answer after, (solvers.lower n v).Returns memory answer after →
    Scalar.isNaN answer.bound = false

/-- What may go wrong with the processing of a node by solvers that answer: the bound is
undefined. -/
def Solvers.Undefined (solvers : Solvers σ α) (id : Nat) (failure : Failure α) : Prop :=
  failure = .error (.solverFailed (.undefinedBound id)) ∧ ¬ solvers.Defined

variable {solvers : Solvers σ α}

/-- The last part of processing brings a report on the node. -/
theorem finishNode_ensures (h : solvers.Reliable) (r : Report α) (answer : LowerAnswer α)
    (cutoff : Cutoff α) (F : Failure α → Prop) :
    (finishNode solvers r answer cutoff).Ensures (fun s => s.node.id = r.node.id) F := by
  refine (h.postprocess _ _ _ _).bind fun ⟨solved, tight⟩ hid => ?_
  dsimp only
  split
  · exact Call.ensures_pure hid
  · split
    · exact Call.ensures_pure hid
    · exact Call.ensures_pure hid

/-- The middle part of processing brings a report on the node. -/
theorem searchNode_ensures (h : solvers.Reliable) (r : Report α) (answer : LowerAnswer α)
    (cutoff : Cutoff α) (F : Failure α → Prop) :
    (searchNode solvers r answer cutoff).Ensures (fun s => s.node.id = r.node.id) F := by
  refine (h.upper _ _ _).bind fun found _ => ?_
  dsimp only
  split
  · exact Call.ensures_pure rfl
  · split
    · exact Call.ensures_pure rfl
    · exact finishNode_ensures h _ _ _ F

/-- The second part of processing brings a report on the node, unless the bound is undefined. -/
theorem boundNode_ensures (h : solvers.Reliable) (r : Report α) (cutoff : Cutoff α) :
    (boundNode solvers r cutoff).Ensures (fun s => s.node.id = r.node.id)
      (solvers.Undefined r.node.id) := by
  refine (h.lower _ _).answered.bind fun answer ⟨_, memory, after, hanswer⟩ => ?_
  dsimp only
  split
  · exact Call.ensures_pure rfl
  · split
    · next hnan =>
      refine Call.ensures_throw ⟨rfl, fun hdefined => ?_⟩
      rw [hdefined _ _ _ _ _ hanswer] at hnan
      cases hnan
    · split
      · exact Call.ensures_pure rfl
      · exact searchNode_ensures h _ _ _ _

/-- The first part of processing brings a report on the node, unless the bound is undefined. -/
theorem tightenNode_ensures (h : solvers.Reliable) (n : Node α) (cutoff : Cutoff α) :
    (tightenNode solvers n cutoff).Ensures (fun s => s.node.id = n.id)
      (solvers.Undefined n.id) := by
  refine (h.preprocess _ _).bind fun ⟨infeasible, tight⟩ hid => ?_
  dsimp only at hid ⊢
  split
  · exact Call.ensures_pure hid
  · rw [← hid]
    exact boundNode_ensures h _ _

/-- Processing brings a report on the node, unless the bound is undefined. -/
theorem processNode_ensures (h : solvers.Reliable) (n : Node α) (cutoff : Cutoff α) :
    (processNode solvers n cutoff).Ensures (fun s => s.node.id = n.id)
      (solvers.Undefined n.id) := by
  have hnow : solvers.now.Succeeds fun _ => True :=
    fun memory => ⟨_, memory, rfl, trivial⟩
  refine hnow.bind fun started _ => (tightenNode_ensures h n cutoff).bind fun s hid => ?_
  exact hnow.bind fun ended _ => Call.ensures_pure hid

/-- Processing brings a report on the node if all bounds are defined. -/
theorem processNode_returns (h : solvers.Reliable) (hdefined : solvers.Defined) (n : Node α)
    (cutoff : Cutoff α) :
    (processNode solvers n cutoff).Succeeds fun s => s.node.id = n.id := by
  intro memory
  rcases processNode_ensures h n cutoff memory with hreturns | ⟨_, _, _, -, hundefined⟩
  · exact hreturns
  · exact absurd hdefined hundefined

end BranchBound
