import BranchBound.Proofs.Node.Noting
import BranchBound.Proofs.Search.Failing
import BranchBound.Proofs.Search.Agreement

/-! # What a failure leaves of the points that were found

A serial search keeps the best of the points that its solvers find. If something goes wrong, the
points of the nodes that were processed before are kept as well; what is lost is the point that was
found in the node in which it went wrong, if there was one, because it would have come with the
report on that node. That holds of plain and of strong branching, and of every call that may fail.

* **`Run.Loses`** — the incumbent is the best of all points that were found but the lost ones.
* **`Work.Saves`** — work that loses one point at most, and none if it succeeds.
* **`Serial.solve_mirrors`** — a search that notes its points comes to what it would come to anyway.
* **`Serial.solve_salvages`** — what every search answers. -/

namespace BranchBound

variable {σ α β γ : Type}

/-- A run that notes the points that are found. -/
abbrev NotingRun (σ α : Type) := Run (σ × List (Candidate α)) α

/-- Work on a run that notes the points that are found. -/
abbrev NotingWork (σ α β : Type) := Work (σ × List (Candidate α)) α β

variable [Scalar α]

/-! ## Work that loses no point -/

/-- The incumbent of a run is the best of the points that were found, apart from the lost ones. -/
def Run.Loses (run : NotingRun σ α) (lost : List (Candidate α)) : Prop :=
  ∃ kept, run.memory.2 = kept ++ lost ∧ run.search.incumbent.IsBest kept

/-- The incumbent of a run is the best of the points that were found, once it adopts the point of a
report. -/
def Run.Owes (run : NotingRun σ α) (r : Report α) : Prop :=
  (run.search.incumbent.adopt r).IsBest run.memory.2

namespace Work

/-- From runs of which `P` holds the work leads to runs of which `Q` holds; if something goes wrong,
one point is lost at most. -/
def Saves (P : NotingRun σ α → Prop) (work : NotingWork σ α β)
    (Q : β → NotingRun σ α → Prop) : Prop :=
  ∀ run, P run → match work.exec run with
    | (.ok x, after) => Q x after
    | (.error _, after) => ∃ lost, lost.length ≤ 1 ∧ after.Loses lost

variable {P P' : NotingRun σ α → Prop} {Q : β → NotingRun σ α → Prop}
  {R : γ → NotingRun σ α → Prop} {work : NotingWork σ α β}

/-- More may be known before. -/
theorem Saves.weaken (h : Saves P work Q) (hP : ∀ run, P' run → P run) : Saves P' work Q :=
  fun run hrun => h run (hP run hrun)

/-- An answer given without work loses nothing. -/
theorem saves_pure {x : β} (h : ∀ run, P run → Q x run) : Saves P (pure x : NotingWork σ α β) Q :=
  fun run hrun => h run hrun

/-- Looking at the search loses nothing. -/
theorem saves_search : Saves P (search : NotingWork σ α (Search α))
    fun s run => run.search = s ∧ P run := fun _ hrun => ⟨rfl, hrun⟩

/-- A change of the run that succeeds. -/
theorem saves_modify {f : NotingRun σ α → NotingRun σ α} {S : NotingRun σ α → Prop}
    (h : ∀ run, P run → S (f run)) : Saves P (modify f : NotingWork σ α Unit) fun _ => S :=
  fun run hrun => h run hrun

/-- Work in two parts loses one point at most if both parts do, because the second part starts only
if the first one has lost nothing. -/
theorem Saves.bind {next : β → NotingWork σ α γ} (h : Saves P work Q)
    (k : ∀ x, Saves (Q x) (next x) R) : Saves P (work >>= next) R := by
  intro run hrun
  have hwork := h run hrun
  rw [exec_bind]
  rcases heq : work.exec run with ⟨e | x, after⟩ <;> rw [heq] at hwork
  · exact hwork
  · exact k x after hwork

/-- An operation on the search that leaves the best of the points loses none, whether it succeeds or
not. -/
theorem saves_onSearch {f : Search α → Except (Error α) β × Search α} {S : NotingRun σ α → Prop}
    (hS : ∀ run, S run → run.Loses []) (hf : ∀ run, P run → S ⟨(f run.search).2, run.memory⟩) :
    Saves P (onSearch f : NotingWork σ α β) fun _ => S := by
  intro run hrun
  have hafter := hf run hrun
  rw [exec_onSearch]
  rcases (f run.search).1 with e | x
  · exact ⟨[], Nat.zero_le _, hS _ hafter⟩
  · exact hafter

/-- An operation that offers no point loses none. -/
theorem saves_perform [Scalar.Ordered α] {f : Search α → Except (Error α) β × Search α}
    (op : Search.Op α) (hop : op.offers = []) (hf : ∀ s, (f s).2 = s.perform op) :
    Saves (Run.Loses · []) (onSearch f : NotingWork σ α β) fun _ run => run.Loses [] := by
  refine saves_onSearch (fun _ hrun => hrun) fun run ⟨kept, hkept, hbest⟩ => ⟨kept, hkept, ?_⟩
  rw [hf, Search.incumbent_perform, hop]
  exact hbest

end Work

/-! ## Rounds -/

variable {cutoff : Cutoff α} {i : Incumbent α} {r : Report α} {found : List (Candidate α)}

/-- An incumbent adopts the point of a report as it would have adopted the points found. -/
theorem Report.Brings.adopt_eq (h : r.Brings cutoff found) (hone : found.length ≤ 1)
    (hvalue : i.value = cutoff.incumbent) : i.adopt r = i.offerAll found := by
  rw [Search.adopt_eq_offerAll, h, ← hvalue]
  match found, hone with
  | [], _ => rfl
  | [c], _ =>
    by_cases hlt : c.value < i.value
    · simp [hlt]
    · simp [hlt, Incumbent.offerAll, Incumbent.offer]

namespace Serial

section Saves

variable [Scalar.Ordered α] (solvers : Solvers σ α)

/-- Processing a node against the incumbent loses the point that is found in it if something goes
wrong, and owes it otherwise. -/
theorem saves_process (n : Node α) (cutoff : Cutoff α) :
    Work.Saves (fun run => run.search.incumbent.value = cutoff.incumbent ∧ run.Loses [])
      (Work.onSolvers (processNode solvers.noting n cutoff)) fun r run => run.Owes r := by
  rintro ⟨s, memory⟩ ⟨hvalue, kept, hkept, hbest⟩
  obtain ⟨found, hnotes, hone, hbrings⟩ := processNode_notes solvers n cutoff memory
  rw [List.append_nil] at hkept
  dsimp only at hkept hvalue
  rw [hkept] at hnotes
  have hexec : (Work.onSolvers (processNode solvers.noting n cutoff) : NotingWork σ α _).exec
      ⟨s, memory⟩ = (((processNode solvers.noting n cutoff).exec memory).1,
        ⟨s, ((processNode solvers.noting n cutoff).exec memory).2⟩) := rfl
  rw [hexec]
  generalize (processNode solvers.noting n cutoff).exec memory = answer at hnotes hbrings ⊢
  -- a failure loses what was found; a report brings it
  obtain ⟨e | r, after⟩ := answer
  · exact ⟨found, hone, kept, hnotes, hbest⟩
  · show (s.incumbent.adopt r).IsBest after.2
    rw [show after.2 = kept ++ found from hnotes, (hbrings r rfl).adopt_eq hone hvalue]
    exact hbest.offerAll found

omit [Scalar.Ordered α] in
/-- Recording a report pays what is owed. -/
theorem saves_record (r : Report α) :
    Work.Saves (Run.Owes · r) (Work.onSearch (·.record r) : NotingWork σ α Unit)
      fun _ run => run.Loses [] := by
  refine Work.saves_onSearch (fun _ hrun => hrun) fun run howes =>
    ⟨run.memory.2, (List.append_nil _).symm, ?_⟩
  rw [show (run.search.record r).2.incumbent = run.search.incumbent.adopt r from
    (run.search.account_frame r).2]
  exact howes

/-- Processing children loses one point at most. -/
theorem saves_evaluate (nodes : List (Node α)) : Work.Saves (Run.Loses · [])
    (evaluate solvers.noting nodes) fun _ run => run.Loses [] := by
  induction nodes with
  | nil => exact Work.saves_pure fun _ hrun => hrun
  | cons n rest ih =>
    refine Work.saves_search.bind fun s => ?_
    -- every child is processed against the incumbent in force by then
    have hprocess : Work.Saves (fun run => run.search = s ∧ run.Loses [])
        (Work.onSolvers (processNode solvers.noting n s.cutoff)) fun r run => run.Owes r :=
      (saves_process solvers n s.cutoff).weaken fun run hrun => ⟨by rw [hrun.1]; rfl, hrun.2⟩
    refine hprocess.bind fun r => (saves_record r).bind fun _ => ih.bind fun reports => ?_
    exact Work.saves_pure fun _ hrun => hrun

/-- Taking in a kept child loses no point. -/
theorem saves_keep (r : Report α) : Work.Saves (Run.Loses · []) (keep r : NotingWork σ α Unit)
    fun _ run => run.Loses [] := by
  unfold keep
  split
  · have hinsert : Work.Saves (Run.Loses · [])
        (Work.onSearch (·.insertEvaluated r.node) : NotingWork σ α Bool)
        fun _ run => run.Loses [] :=
      Work.saves_perform (.insertEvaluated r.node) rfl fun _ => rfl
    exact hinsert.bind fun _ => Work.saves_pure fun _ hrun => hrun
  · exact Work.saves_perform (.countFathomed r) rfl fun _ => rfl

/-- Branching strongly loses one point at most. -/
theorem saves_strongBranch (r : Report α) : Work.Saves (Run.Owes · r)
    (strongBranch solvers.noting r) fun _ run => run.Loses [] := by
  have hchildren : Work.Saves (Run.Loses · [])
      (Work.onSearch (·.strongChildren r) : NotingWork σ α (List (Node α)))
      fun _ run => run.Loses [] :=
    Work.saves_perform (.strongChildren r) rfl fun _ => rfl
  have hdropped : Work.Saves (Run.Loses · []) (Work.change (·.countDropped) : NotingWork σ α Unit)
      fun _ run => run.Loses [] := Work.saves_perform .countDropped rfl fun _ => rfl
  have hbranched : Work.Saves (Run.Loses · []) (Work.change (·.countBranched) : NotingWork σ α Unit)
      fun _ run => run.Loses [] := Work.saves_perform .countBranched rfl fun _ => rfl
  refine (saves_record r).bind fun _ => hchildren.bind fun children => ?_
  refine (saves_evaluate solvers children).bind fun reports => Work.saves_search.bind fun s => ?_
  split
  · exact (hdropped.weaken fun _ hrun => hrun.2).bind fun _ => Work.saves_pure fun _ hrun => hrun
  · refine ((saves_keep _).weaken fun _ hrun => hrun.2).bind fun _ =>
      (saves_keep _).bind fun _ => ?_
    exact hbranched.bind fun _ => Work.saves_pure fun _ hrun => hrun

/-- What follows the processing of a node loses one point at most. -/
theorem saves_conclude (depth : Nat) (r : Report α) : Work.Saves (Run.Owes · r)
    (conclude solvers.noting depth r) fun _ run => run.Loses [] := by
  refine Work.saves_search.bind fun s => ?_
  split
  · exact (saves_strongBranch solvers r).weaken fun _ hrun => hrun.2
  · refine Work.saves_onSearch (fun _ hrun => hrun) fun run hrun =>
      ⟨run.memory.2, (List.append_nil _).symm, ?_⟩
    rw [run.search.incumbent_apply r]
    exact hrun.2

/-- A round loses one point at most, and none if it succeeds. -/
theorem saves_round : Work.Saves (Run.Loses · []) (round solvers.noting)
    fun _ run => run.Loses [] := by
  have hclock : Work.Saves (Run.Loses · []) (modify fun run : NotingRun σ α =>
      { run with search := run.search.atTime (solvers.noting.clock run.memory) })
      fun _ run => run.Loses [] := Work.saves_modify fun _ hrun => hrun
  refine hclock.bind fun _ => Work.saves_search.bind fun s => ?_
  split
  · exact Work.saves_pure fun _ hrun => hrun.2
  · -- handing out a node leaves the incumbent that the node is processed against
    have hnext : Work.Saves (fun run => run.search = s ∧ run.Loses [])
        (Work.onSearch Search.next : NotingWork σ α (Node α))
        fun _ run => run.search.incumbent.value = s.cutoff.incumbent ∧ run.Loses [] :=
      Work.saves_onSearch (fun _ hrun => hrun.2) fun run hrun =>
        ⟨congrArg (fun u => u.incumbent.value) hrun.1, hrun.2⟩
    refine hnext.bind fun n => (saves_process solvers n s.cutoff).bind fun r => ?_
    exact (saves_conclude solvers n.depth r).bind fun _ => Work.saves_pure fun _ hrun => hrun

/-- A search loses one point at most, and none if it succeeds. -/
theorem saves_search {run : NotingRun σ α} (h : run.Loses []) :
    match search solvers.noting run with
    | (.ok _, after) => after.Loses []
    | (.error _, after) => ∃ lost, lost.length ≤ 1 ∧ after.Loses lost := by
  obtain ⟨last, after, hrounds, hends⟩ := exists_last_round solvers.noting run
  have hlast : last.Loses [] := by
    clear hends
    induction hrounds with
    | refl => exact h
    | tail _ hround ih =>
      have hsaves := saves_round solvers _ ih
      rw [hround] at hsaves
      exact hsaves
  have hsaves := saves_round solvers _ hlast
  rcases hends with ⟨status, hround, hsearch⟩ | ⟨failure, hround, hsearch⟩ <;>
    rw [hround] at hsaves <;> rw [hsearch] <;> exact hsaves

end Saves

end Serial

/-! ## Searches that note their points -/

section Forgetful

omit [Scalar α]

/-- A run without its notes. -/
def Run.forget (run : NotingRun σ α) : Run σ α := ⟨run.search, run.memory.1⟩

namespace Work

/-- The first work comes to what the second one does, notes apart. -/
def Mirrors (work : NotingWork σ α β) (plain : Work σ α β) : Prop :=
  ∀ run, plain.exec run.forget = ((work.exec run).1, (work.exec run).2.forget)

variable {work : NotingWork σ α β} {plain : Work σ α β} {next : β → NotingWork σ α γ}
  {plainNext : β → Work σ α γ}

/-- An answer given without work is the same. -/
theorem mirrors_pure (x : β) : Mirrors (pure x : NotingWork σ α β) (pure x) := fun _ => rfl

/-- So is what is seen of the search. -/
theorem mirrors_search : Mirrors (search : NotingWork σ α (Search α)) search := fun _ => rfl

/-- So is what an operation on the search does. -/
theorem mirrors_onSearch (f : Search α → Except (Error α) β × Search α) :
    Mirrors (onSearch f : NotingWork σ α β) (onSearch f) := fun _ => rfl

/-- So is what a call on the solvers comes to. -/
theorem mirrors_onSolvers {call : Call (σ × List (Candidate α)) α β} {plain : Call σ α β}
    (h : call.Mirrors plain) : Mirrors (onSolvers call) (onSolvers plain) := by
  intro run
  have hcall := h run.memory
  show ((plain.exec run.memory.1).1, (⟨run.search, (plain.exec run.memory.1).2⟩ : Run σ α)) = _
  rw [hcall]
  rfl

/-- So is work in two parts. -/
theorem Mirrors.bind (h : Mirrors work plain) (k : ∀ x, Mirrors (next x) (plainNext x)) :
    Mirrors (work >>= next) (plain >>= plainNext) := by
  intro run
  rw [exec_bind, exec_bind, h run]
  rcases work.exec run with ⟨e | x, after⟩
  · rfl
  · exact k x after

end Work

end Forgetful

namespace Serial

variable (solvers : Solvers σ α)

/-- Processing children comes to the same. -/
theorem mirrors_evaluate (nodes : List (Node α)) :
    Work.Mirrors (evaluate solvers.noting nodes) (evaluate solvers nodes) := by
  induction nodes with
  | nil => exact Work.mirrors_pure []
  | cons n rest ih =>
    refine Work.mirrors_search.bind fun s => ?_
    refine (Work.mirrors_onSolvers (processNode_mirrors solvers n s.cutoff)).bind fun r => ?_
    exact (Work.mirrors_onSearch _).bind fun _ => ih.bind fun _ => Work.mirrors_pure _

/-- So does taking in a kept child. -/
theorem mirrors_keep (r : Report α) : Work.Mirrors (keep r : NotingWork σ α Unit) (keep r) := by
  unfold keep
  split
  · exact (Work.mirrors_onSearch _).bind fun _ => Work.mirrors_pure _
  · exact Work.mirrors_onSearch _

/-- So does strong branching. -/
theorem mirrors_strongBranch (r : Report α) :
    Work.Mirrors (strongBranch solvers.noting r) (strongBranch solvers r) := by
  refine (Work.mirrors_onSearch _).bind fun _ => (Work.mirrors_onSearch _).bind fun children => ?_
  refine (mirrors_evaluate solvers children).bind fun reports =>
    Work.mirrors_search.bind fun s => ?_
  split
  · exact (Work.mirrors_onSearch _).bind fun _ => Work.mirrors_pure _
  · refine (mirrors_keep _).bind fun _ => (mirrors_keep _).bind fun _ => ?_
    exact (Work.mirrors_onSearch _).bind fun _ => Work.mirrors_pure _

/-- So does what follows the processing of a node. -/
theorem mirrors_conclude (depth : Nat) (r : Report α) :
    Work.Mirrors (conclude solvers.noting depth r) (conclude solvers depth r) := by
  refine Work.mirrors_search.bind fun s => ?_
  split
  · exact mirrors_strongBranch solvers r
  · exact Work.mirrors_onSearch _

/-- So does a round. -/
theorem mirrors_round : Work.Mirrors (round solvers.noting) (round solvers) := by
  have hclock : Work.Mirrors (modify fun run : NotingRun σ α =>
      { run with search := run.search.atTime (solvers.noting.clock run.memory) })
      (modify fun run => { run with search := run.search.atTime (solvers.clock run.memory) }) :=
    fun _ => rfl
  refine hclock.bind fun _ => Work.mirrors_search.bind fun s => ?_
  split
  · exact Work.mirrors_pure _
  · refine (Work.mirrors_onSearch _).bind fun n => ?_
    refine (Work.mirrors_onSolvers (processNode_mirrors solvers n s.cutoff)).bind fun r => ?_
    exact (mirrors_conclude solvers n.depth r).bind fun _ => Work.mirrors_pure _

/-- So does a search. -/
theorem search_mirrors (run : NotingRun σ α) : search solvers run.forget
    = ((search solvers.noting run).1, (search solvers.noting run).2.forget) := by
  induction hleft : run.search.settings.maxNodes - run.search.stats.processed
    using Nat.strong_induction_on generalizing run with
  | _ left ih =>
    have hround := mirrors_round solvers run
    rw [search_eq, search_eq solvers.noting]
    rcases hnoting : (round solvers.noting).exec run with ⟨failure | status?, after⟩ <;>
      rw [hnoting] at hround <;> rw [hround]
    cases status? with
    | some status => rfl
    | none =>
      -- the round brings the search closer to its limit on nodes
      have hlt := round_lt solvers.noting hnoting
      rw [hleft] at hlt
      exact ih _ hlt after rfl

/-- So does solving a problem. -/
theorem solve_mirrors (vars : List (Variable α)) (settings : Settings α) (memory : σ) :
    solve solvers vars settings memory
      = ((solve solvers.noting vars settings (memory, [])).1,
        (solve solvers.noting vars settings (memory, [])).2.1) := by
  unfold solve
  cases Search.new vars settings with
  | error e => rfl
  | ok s =>
    dsimp only
    have hsearch := search_mirrors solvers ⟨s, (memory, [])⟩
    change search solvers ⟨s, memory⟩ = _ at hsearch
    rw [hsearch]
    rcases search solvers.noting ⟨s, (memory, [])⟩ with ⟨(e | _) | status, run⟩ <;> rfl

variable {solvers}

/-- Whatever goes wrong in a search, its answer has the best of all points that were found but one
at most, and of all of them if nothing goes wrong. -/
theorem solve_salvages [Scalar.Ordered α] {vars : List (Variable α)} {settings : Settings α}
    {memory after : σ} {solution : Solution α}
    (h : solve solvers vars settings memory = (.ok solution, after)) :
    ∃ kept lost i, solve solvers.noting vars settings (memory, [])
        = (.ok solution, (after, kept ++ lost))
      ∧ lost.length ≤ 1 ∧ (solution.error = none → lost = [])
      ∧ Incumbent.IsBest i kept ∧ solution.value = i.value ∧ solution.point = i.point.getD [] := by
  -- taking note of the points changes nothing in what the search does
  have hmirrors := solve_mirrors solvers vars settings memory
  rw [h] at hmirrors
  unfold solve at hmirrors ⊢
  cases hnew : Search.new vars settings with
  | error e =>
    rw [hnew] at hmirrors
    cases hmirrors
  | ok start =>
    have hstart : Run.Loses ⟨start, (memory, [])⟩ [] := by
      refine ⟨[], rfl, ?_⟩
      rw [(Search.new_frame hnew).1]
      exact Incumbent.isBest_none
    have hsaves := saves_search solvers hstart
    rw [hnew] at hmirrors
    dsimp only at hmirrors ⊢
    generalize search solvers.noting ⟨start, (memory, [])⟩ = answer at hsaves hmirrors ⊢
    obtain ⟨(e | _) | status, run⟩ := answer
    · obtain ⟨lost, hone, kept, hkept, hbest⟩ := hsaves
      cases hmirrors
      exact ⟨kept, lost, run.search.incumbent, by rw [← hkept], hone, nofun, hbest, rfl, rfl⟩
    · cases hmirrors
    · obtain ⟨kept, hkept, hbest⟩ := hsaves
      cases hmirrors
      exact ⟨kept, [], run.search.incumbent, by rw [← hkept], Nat.zero_le _, fun _ => rfl, hbest,
        rfl, rfl⟩

/-- Solvers that find a point in every node and fail to tighten it afterwards. -/
def clumsySolvers : Solvers Unit (Extended ℚ) where
  lower _ _ := pure (.ofBound (-1) [])
  upper _ _ incumbent := pure (.ofPoint 1 [1] incumbent)
  postprocess _ _ _ _ := throw (.error (.solverFailed (.described "no bounds")))

/-- One point may be lost: the answer of this search has none, although one was found. -/
theorem solve_clumsySolvers :
    ∃ solution ∈ (solve clumsySolvers Async.sampleVars Settings.standard ()).1.toOption,
      solution.point = [] ∧ solution.value = Scalar.infinity
        ∧ ((solve clumsySolvers.noting Async.sampleVars Settings.standard ((), [])).2.2.map
          Candidate.value) = [1] := by
  decide +kernel

end Serial

end BranchBound
