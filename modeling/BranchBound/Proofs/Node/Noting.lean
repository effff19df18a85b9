import BranchBound.Proofs.Node.Processing

/-! # The points that are found

To say which points the solvers of a search have found, they are replaced by ones that note every
point that they find (`Solvers.noting`). They answer as the original solvers do. Processing a node
finds one point at most, and the report brings that point unless it is no better than the incumbent;
processing that fails may have found one as well, and then no report brings it.

* **`Solvers.noting`** — solvers that note the points they find.
* **`Call.Mirrors`**, **`processNode_mirrors`** — they answer as the original ones.
* **`Call.Notes`**, **`processNode_notes`** — what processing a node notes. -/

namespace BranchBound

variable {σ α β γ : Type}

/-! ## Calls -/

namespace Call

/-- What a call comes to: the answer, or what went wrong, and the state it leaves. -/
def exec (call : Call σ α β) (memory : σ) : Except (Failure α) β × σ :=
  Id.run (StateT.run (ExceptT.run call) memory)

/-- The call; the points that its answer brings are noted. -/
def noted (call : Call σ α β) (found : β → List (Candidate α)) :
    Call (σ × List (Candidate α)) α β :=
  ExceptT.mk fun memory =>
    match call.exec memory.1 with
    | (.ok x, after) => (.ok x, (after, memory.2 ++ found x))
    | (.error e, after) => (.error e, (after, memory.2))

/-- The second part of a call starts from the state that the first part leaves, if that succeeds. -/
@[simp] theorem exec_bind (call : Call σ α β) (next : β → Call σ α γ) (memory : σ) :
    (call >>= next).exec memory =
      match call.exec memory with
      | (.ok x, mid) => (next x).exec mid
      | (.error e, mid) => (.error e, mid) := by
  change ExceptT.bindCont next (call.exec memory).1 (call.exec memory).2 = _
  rcases call.exec memory with ⟨e | x, mid⟩ <;> rfl

/-- A call that is noted. -/
@[simp] theorem exec_noted (call : Call σ α β) (found : β → List (Candidate α))
    (memory : σ × List (Candidate α)) :
    (call.noted found).exec memory =
      match call.exec memory.1 with
      | (.ok x, after) => (.ok x, (after, memory.2 ++ found x))
      | (.error e, after) => (.error e, (after, memory.2)) := rfl

/-- The first call comes to what the second one does, notes apart. -/
def Mirrors (call : Call (σ × List (Candidate α)) α β) (plain : Call σ α β) : Prop :=
  ∀ memory, plain.exec memory.1 = ((call.exec memory).1, (call.exec memory).2.1)

variable {call : Call (σ × List (Candidate α)) α β} {plain : Call σ α β}
  {next : β → Call (σ × List (Candidate α)) α γ} {plainNext : β → Call σ α γ}

/-- Noting the points that a call brings does not change what it comes to. -/
theorem mirrors_noted (plain : Call σ α β) (found : β → List (Candidate α)) :
    (plain.noted found).Mirrors plain := by
  intro memory
  rw [exec_noted]
  rcases plain.exec memory.1 with ⟨e | x, after⟩ <;> rfl

/-- An answer given without a call is the same. -/
theorem mirrors_pure (x : β) :
    Mirrors (pure x : Call (σ × List (Candidate α)) α β) (pure x : Call σ α β) := fun _ => rfl

/-- So is a failure. -/
theorem mirrors_throw (e : Failure α) :
    Mirrors (throw e : Call (σ × List (Candidate α)) α β) (throw e : Call σ α β) := fun _ => rfl

/-- Calls in two parts come to the same if both parts do. -/
theorem Mirrors.bind (h : call.Mirrors plain) (k : ∀ x, (next x).Mirrors (plainNext x)) :
    (call >>= next).Mirrors (plain >>= plainNext) := by
  intro memory
  rw [exec_bind, exec_bind, h memory]
  rcases call.exec memory with ⟨e | x, mid⟩
  · rfl
  · exact k x mid

/-- A call notes one point at most, and if it succeeds, its answer and the points that it notes are
related. -/
def Notes (call : Call (σ × List (Candidate α)) α β) (P : β → List (Candidate α) → Prop) : Prop :=
  ∀ memory, ∃ found, (call.exec memory).2.2 = memory.2 ++ found ∧ found.length ≤ 1
    ∧ ∀ x, (call.exec memory).1 = .ok x → P x found

/-- A call notes nothing, and if it succeeds, something is known of its answer. -/
def Silent (call : Call (σ × List (Candidate α)) α β) (P : β → Prop) : Prop :=
  ∀ memory, (call.exec memory).2.2 = memory.2 ∧ ∀ x, (call.exec memory).1 = .ok x → P x

variable {P : β → Prop} {Q : γ → Prop} {R : β → List (Candidate α) → Prop}
  {S : γ → List (Candidate α) → Prop}

/-- A call whose answer brings no point notes nothing. -/
theorem silent_noted (plain : Call σ α β) :
    (plain.noted fun _ => ([] : List (Candidate α))).Silent fun _ => True := by
  intro memory
  rw [exec_noted]
  rcases plain.exec memory.1 with ⟨e | x, after⟩ <;> simp

/-- A call notes the points that its answer brings. -/
theorem notes_noted (plain : Call σ α β) {found : β → List (Candidate α)}
    (hle : ∀ x, (found x).length ≤ 1) :
    (plain.noted found).Notes fun x noted => noted = found x := by
  intro memory
  rw [exec_noted]
  rcases plain.exec memory.1 with ⟨e | x, after⟩
  · exact ⟨[], (List.append_nil _).symm, Nat.zero_le _, nofun⟩
  · exact ⟨found x, rfl, hle x, fun y hy => by rw [Except.ok.inj hy]⟩

/-- An answer given without a call notes nothing. -/
theorem silent_pure {x : β} (h : P x) :
    Silent (pure x : Call (σ × List (Candidate α)) α β) P :=
  fun _ => ⟨rfl, fun _ hx => by cases hx; exact h⟩

/-- Neither does a failure. -/
theorem silent_throw (e : Failure α) :
    Silent (throw e : Call (σ × List (Candidate α)) α β) P := fun _ => ⟨rfl, nofun⟩

/-- Less may be known of the answer. -/
theorem Silent.imp {P' : β → Prop} (h : call.Silent P) (hP : ∀ x, P x → P' x) : call.Silent P' :=
  fun memory => ⟨(h memory).1, fun x hx => hP x ((h memory).2 x hx)⟩

/-- Calls in two parts note nothing if neither part does. -/
theorem Silent.bind (h : call.Silent P) (k : ∀ x, P x → (next x).Silent Q) :
    (call >>= next).Silent Q := by
  intro memory
  obtain ⟨hnotes, hanswer⟩ := h memory
  rw [exec_bind]
  rcases hcall : call.exec memory with ⟨e | x, mid⟩ <;> rw [hcall] at hnotes hanswer
  · exact ⟨hnotes, nofun⟩
  · obtain ⟨hlater, hnext⟩ := k x (hanswer x rfl) mid
    exact ⟨hlater.trans hnotes, hnext⟩

/-- A call that notes nothing. -/
theorem Silent.notes (h : call.Silent P) (hR : ∀ x, P x → R x []) : call.Notes R := by
  intro memory
  obtain ⟨hnotes, hanswer⟩ := h memory
  exact ⟨[], by rw [hnotes, List.append_nil], Nat.zero_le _, fun x hx => hR x (hanswer x hx)⟩

/-- A call notes what its second part notes if its first part notes nothing. -/
theorem Silent.bind_notes (h : call.Silent P) (k : ∀ x, P x → (next x).Notes S) :
    (call >>= next).Notes S := by
  intro memory
  obtain ⟨hnotes, hanswer⟩ := h memory
  rw [exec_bind]
  rcases hcall : call.exec memory with ⟨e | x, mid⟩ <;> rw [hcall] at hnotes hanswer
  · exact ⟨[], by rw [List.append_nil]; exact hnotes, Nat.zero_le _, nofun⟩
  · obtain ⟨found, hfound, hlength, hnext⟩ := k x (hanswer x rfl) mid
    dsimp only at hnotes
    exact ⟨found, by rw [hfound, hnotes], hlength, hnext⟩

/-- A call notes what its first part notes if its second part notes nothing. -/
theorem Notes.bind_silent (h : call.Notes R)
    (k : ∀ x found, R x found → (next x).Silent fun y => S y found) : (call >>= next).Notes S := by
  intro memory
  obtain ⟨found, hnotes, hlength, hanswer⟩ := h memory
  rw [exec_bind]
  rcases hcall : call.exec memory with ⟨e | x, mid⟩ <;> rw [hcall] at hnotes hanswer
  · exact ⟨found, hnotes, hlength, nofun⟩
  · obtain ⟨hlater, hnext⟩ := k x found (hanswer x rfl) mid
    exact ⟨found, hlater.trans hnotes, hlength, hnext⟩

end Call

/-! ## Solvers -/

/-- The point that an answer brings, if it says that it is better than the incumbent. -/
def UpperAnswer.found (answer : UpperAnswer α) : List (Candidate α) :=
  if answer.improves && !answer.point.isEmpty then [⟨answer.value, answer.point⟩] else []

/-- Solvers that note the points they find. -/
def Solvers.noting (solvers : Solvers σ α) : Solvers (σ × List (Candidate α)) α where
  preprocess n v := (solvers.preprocess n v).noted fun _ => []
  lower n v := (solvers.lower n v).noted fun _ => []
  upper n seed v := (solvers.upper n seed v).noted UpperAnswer.found
  postprocess n point duals v := (solvers.postprocess n point duals v).noted fun _ => []
  clock memory := solvers.clock memory.1

variable [Scalar α]

/-! ## Processing a node -/

section Mirrors

variable (solvers : Solvers σ α)

/-- The last part of processing comes to the same. -/
theorem finishNode_mirrors (r : Report α) (answer : LowerAnswer α) (cutoff : Cutoff α) :
    (finishNode solvers.noting r answer cutoff).Mirrors (finishNode solvers r answer cutoff) := by
  refine (Call.mirrors_noted _ _).bind fun ⟨solved, tight⟩ => ?_
  dsimp only
  split
  · exact Call.mirrors_pure _
  · split <;> exact Call.mirrors_pure _

/-- So does the middle part. -/
theorem searchNode_mirrors (r : Report α) (answer : LowerAnswer α) (cutoff : Cutoff α) :
    (searchNode solvers.noting r answer cutoff).Mirrors (searchNode solvers r answer cutoff) := by
  refine (Call.mirrors_noted _ _).bind fun found => ?_
  dsimp only
  split
  · exact Call.mirrors_pure _
  · split
    · exact Call.mirrors_pure _
    · exact finishNode_mirrors solvers _ _ _

/-- So does the second part. -/
theorem boundNode_mirrors (r : Report α) (cutoff : Cutoff α) :
    (boundNode solvers.noting r cutoff).Mirrors (boundNode solvers r cutoff) := by
  refine (Call.mirrors_noted _ _).bind fun answer => ?_
  dsimp only
  split
  · exact Call.mirrors_pure _
  · split
    · exact Call.mirrors_throw _
    · split
      · exact Call.mirrors_pure _
      · exact searchNode_mirrors solvers _ _ _

/-- So does the first part. -/
theorem tightenNode_mirrors (n : Node α) (cutoff : Cutoff α) :
    (tightenNode solvers.noting n cutoff).Mirrors (tightenNode solvers n cutoff) := by
  refine (Call.mirrors_noted _ _).bind fun ⟨infeasible, tight⟩ => ?_
  dsimp only
  split
  · exact Call.mirrors_pure _
  · exact boundNode_mirrors solvers _ _

/-- Processing a node comes to the same. -/
theorem processNode_mirrors (n : Node α) (cutoff : Cutoff α) :
    (processNode solvers.noting n cutoff).Mirrors (processNode solvers n cutoff) := by
  have hnow : solvers.noting.now.Mirrors solvers.now := fun _ => rfl
  refine hnow.bind fun started => (tightenNode_mirrors solvers n cutoff).bind fun r => ?_
  exact hnow.bind fun ended => Call.mirrors_pure _

end Mirrors

/-- A report brings the points that were found in its node if they are better than the incumbent it
was processed under. -/
def Report.Brings (cutoff : Cutoff α) (r : Report α) (found : List (Candidate α)) : Prop :=
  r.candidate.toList = found.filter fun c => c.value < cutoff.incumbent

variable {cutoff : Cutoff α}

/-- The better point that an answer brings. -/
theorem Report.toList_candidate? (answer : UpperAnswer α) :
    (candidate? cutoff answer).toList
      = answer.found.filter fun c => c.value < cutoff.incumbent := by
  unfold candidate? UpperAnswer.found Cutoff.tighten
  cases answer.improves && !answer.point.isEmpty with
  | false => rfl
  | true => by_cases hlt : answer.value < cutoff.incumbent <;> simp [hlt]

variable (solvers : Solvers σ α)

/-- The last part of processing finds no point. -/
theorem finishNode_silent (r : Report α) (answer : LowerAnswer α) (cutoff : Cutoff α) :
    (finishNode solvers.noting r answer cutoff).Silent fun s => s.candidate = r.candidate := by
  refine (Call.silent_noted _).bind fun ⟨solved, tight⟩ _ => ?_
  dsimp only
  split
  · exact Call.silent_pure rfl
  · split <;> exact Call.silent_pure rfl

/-- The middle part of processing brings the point that is found. -/
theorem searchNode_notes (r : Report α) (answer : LowerAnswer α) (cutoff : Cutoff α) :
    (searchNode solvers.noting r answer cutoff).Notes fun s found => s.Brings cutoff found := by
  have hone : ∀ answer : UpperAnswer α, answer.found.length ≤ 1 := by
    intro answer
    unfold UpperAnswer.found
    split <;> simp
  refine (Call.notes_noted _ hone).bind_silent fun found _ hfound => ?_
  rw [hfound]
  -- the candidate is chosen now, and no later part changes it
  have hbrings : ∀ s : Report α, s.candidate = Report.candidate? cutoff found →
      s.Brings cutoff found.found := fun s hs => by
    rw [Report.Brings, hs, Report.toList_candidate?]
  dsimp only
  split
  · exact Call.silent_pure (hbrings _ rfl)
  · split
    · exact Call.silent_pure (hbrings _ rfl)
    · exact (finishNode_silent solvers _ _ _).imp hbrings

/-- A report without a candidate brings no point. -/
theorem Report.brings_nil {r : Report α} (h : r.candidate = none) : r.Brings cutoff [] := by
  rw [Brings, h]
  rfl

/-- Processing may end before a point is looked for. -/
theorem notes_early {r : Report α} (h : r.candidate = none) :
    Call.Notes (pure r : Call (σ × List (Candidate α)) α (Report α))
      fun s found => s.Brings cutoff found :=
  (Call.silent_pure (P := fun s => s.candidate = none) h).notes fun _ => Report.brings_nil

/-- So does the second part. -/
theorem boundNode_notes (r : Report α) (cutoff : Cutoff α) (hnone : r.candidate = none) :
    (boundNode solvers.noting r cutoff).Notes fun s found => s.Brings cutoff found := by
  refine (Call.silent_noted _).bind_notes fun answer _ => ?_
  dsimp only
  split
  · exact notes_early hnone
  · split
    · exact (Call.silent_throw _).notes fun _ => Report.brings_nil
    · split
      · exact notes_early hnone
      · exact searchNode_notes solvers _ _ _

/-- So does the first part. -/
theorem tightenNode_notes (n : Node α) (cutoff : Cutoff α) :
    (tightenNode solvers.noting n cutoff).Notes fun s found => s.Brings cutoff found := by
  refine (Call.silent_noted _).bind_notes fun ⟨infeasible, tight⟩ _ => ?_
  dsimp only
  split
  · exact notes_early rfl
  · exact boundNode_notes solvers _ _ rfl

/-- Processing a node finds one point at most, and the report brings it. -/
theorem processNode_notes (n : Node α) (cutoff : Cutoff α) :
    (processNode solvers.noting n cutoff).Notes fun s found => s.Brings cutoff found := by
  have hnow : solvers.noting.now.Silent fun _ => True := fun _ => ⟨rfl, fun _ _ => trivial⟩
  refine hnow.bind_notes fun started _ => (tightenNode_notes solvers n cutoff).bind_silent ?_
  intro r found hbrings
  -- what is left is to look at the clock
  exact hnow.bind fun ended _ => Call.silent_pure hbrings

end BranchBound
