import BranchBound.Search.Round

/-! # Every round processes a node

The operations on a search never take back the count of processed nodes and never change the
settings (`Search.Later`), and taking in a report counts a node more (`Search.Counted`). The same is
said of pieces of work on a run by `Work.Keeps` and `Work.Counts`.

* **`Search.counted_apply`** — taking in a report counts a node, whether it succeeds or not.
* **`Serial.round_lt`** — a round that does not end the search brings it closer to its limit on
  nodes, which is why the search ends. -/

namespace BranchBound

namespace Search

variable {α : Type}

/-- `t` may come after `s` in a run: as many nodes are processed at least, under the same
settings. -/
def Later (s t : Search α) : Prop :=
  s.stats.processed ≤ t.stats.processed ∧ t.settings = s.settings

/-- `t` comes after `s`, and a node more is processed at least. -/
def Counted (s t : Search α) : Prop :=
  s.stats.processed < t.stats.processed ∧ t.settings = s.settings

/-- A search may come after itself. -/
theorem Later.refl (s : Search α) : Later s s := ⟨Nat.le_refl _, rfl⟩

/-- What may come after a later search may come after the earlier one. -/
theorem Later.trans {s t u : Search α} (h : Later s t) (k : Later t u) : Later s u :=
  ⟨Nat.le_trans h.1 k.1, k.2.trans h.2⟩

/-- A search that counts a node more comes later. -/
theorem Counted.later {s t : Search α} (h : Counted s t) : Later s t :=
  ⟨Nat.le_of_lt h.1, h.2⟩

/-- The node counted more stays counted in later searches. -/
theorem Counted.trans_later {s t u : Search α} (h : Counted s t) (k : Later t u) : Counted s u :=
  ⟨Nat.lt_of_lt_of_le h.1 k.1, k.2.trans h.2⟩

/-- A node counted more than in a later search is counted more than in the earlier one. -/
theorem Later.trans_counted {s t u : Search α} (h : Later s t) (k : Counted t u) : Counted s u :=
  ⟨Nat.lt_of_le_of_lt h.1 k.1, k.2.trans h.2⟩

variable [Scalar α]

/-- Keeping a score counts nothing and keeps the settings. -/
theorem later_noteDiscarded (s : Search α) (score : α) : Later s (s.noteDiscarded score) := by
  unfold noteDiscarded
  split <;> exact Later.refl _

/-- Offering a point counts no processed node and keeps the settings. -/
theorem later_offer (s : Search α) (c : Candidate α) : Later s (s.offer c).2 := by
  simp only [offer]
  split
  · refine Later.trans ?_ (later_noteDiscarded _ _)
    exact ⟨Nat.le_refl _, rfl⟩
  · exact Later.refl _

/-- Accounting a report counts a node. -/
theorem counted_account (s : Search α) (r : Report α) : Counted s (s.account r) := by
  simp only [account]
  split
  · refine Counted.trans_later ?_ (later_offer _ _)
    exact ⟨Nat.lt_succ_self _, rfl⟩
  · exact ⟨Nat.lt_succ_self _, rfl⟩

/-- Recording a report counts a node, even if the node is not waited for. -/
theorem counted_record (s : Search α) (r : Report α) : Counted s (s.record r).2 :=
  counted_account s r

/-- Counting a fathomed node counts no processed one. -/
theorem later_countFathomed (s : Search α) (r : Report α) : Later s (s.countFathomed r) := by
  simp only [countFathomed]
  split
  · refine Later.trans ?_ (later_noteDiscarded _ _)
    exact ⟨Nat.le_refl _, rfl⟩
  · exact ⟨Nat.le_refl _, rfl⟩

/-- Branching a node counts no processed one. -/
theorem later_branch (s : Search α) (r : Report α) : Later s (s.branch r).2 := by
  simp only [branch]
  split
  · exact ⟨Nat.le_refl _, rfl⟩
  · split
    · exact Later.refl _
    · exact ⟨Nat.le_refl _, rfl⟩
    · refine Later.trans ?_ (later_noteDiscarded _ _)
      exact ⟨Nat.le_refl _, rfl⟩
    · exact ⟨Nat.le_refl _, rfl⟩

/-- Acting on a report counts no processed node. -/
theorem later_settle (s : Search α) (r : Report α) : Later s (s.settle r).2 := by
  unfold settle
  split
  · exact later_countFathomed s r
  · exact later_branch s r
  · exact Later.refl s

/-- Taking in a report counts a node, whether it succeeds or not. -/
theorem counted_apply (s : Search α) (r : Report α) : Counted s (s.apply r).2 := by
  have h := counted_record s r
  unfold apply
  split
  · next e t heq => rw [heq] at h; exact h
  · next t heq => rw [heq] at h; exact h.trans_later (later_settle t r)

/-- Handing out a node counts none. -/
theorem later_next (s : Search α) : Later s s.next.2 := Later.refl s

/-- Queuing a node counts none. -/
theorem later_insertEvaluated (s : Search α) (n : Node α) : Later s (s.insertEvaluated n).2 :=
  Later.refl s

/-- Splitting a node in every dimension counts none. -/
theorem later_strongChildren (s : Search α) (r : Report α) : Later s (s.strongChildren r).2 :=
  Later.refl s

/-- A search that is not over is short of its limit on nodes. -/
theorem processed_lt_of_check {s : Search α} {outLowest : Option α}
    (h : s.check outLowest = none) : s.stats.processed < s.settings.maxNodes := by
  unfold check at h
  split at h
  · cases h
  · split at h
    · cases h
    · split at h
      · cases h
      · unfold resourceLimit? at h
        split at h
        · cases h
        · next hn => exact Nat.lt_of_not_le hn

end Search

namespace Work

variable {σ α β γ : Type}

/-- An answer given without work leaves the run as it is. -/
@[simp] theorem exec_pure (x : β) (run : Run σ α) :
    (pure x : Work σ α β).exec run = (.ok x, run) := rfl

/-- The second part of a piece of work starts from the run that the first part leaves, if that
succeeds. -/
@[simp] theorem exec_bind (work : Work σ α β) (next : β → Work σ α γ) (run : Run σ α) :
    (work >>= next).exec run =
      match work.exec run with
      | (.ok x, run) => (next x).exec run
      | (.error e, run) => (.error e, run) := by
  change (match work.exec run with | (result, after) => ExceptT.bindCont next result after) = _
  rcases work.exec run with ⟨e | x, after⟩
  · rfl
  · rfl

/-- Work in two parts that succeeds has a first part that succeeds. -/
theorem exec_bind_ok {work : Work σ α β} {next : β → Work σ α γ} {run after : Run σ α} {y : γ}
    (h : (work >>= next).exec run = (.ok y, after)) :
    ∃ x mid, work.exec run = (.ok x, mid) ∧ (next x).exec mid = (.ok y, after) := by
  rw [exec_bind] at h
  rcases hw : work.exec run with ⟨e | x, mid⟩ <;> rw [hw] at h
  · cases h
  · exact ⟨x, mid, rfl, h⟩

/-- Looking at the search changes nothing. -/
@[simp] theorem exec_search (run : Run σ α) :
    (search : Work σ α (Search α)).exec run = (.ok run.search, run) := rfl

/-- A change of the run. -/
@[simp] theorem exec_modify (f : Run σ α → Run σ α) (run : Run σ α) :
    (modify f : Work σ α Unit).exec run = (.ok (), f run) := rfl

/-- Work on the search leaves the state of the solvers as it is. -/
@[simp] theorem exec_onSearch (f : Search α → Except (Error α) β × Search α) (run : Run σ α) :
    (onSearch f : Work σ α β).exec run =
      ((f run.search).1.mapError .error, { run with search := (f run.search).2 }) := rfl

/-- A call on the solvers leaves the search as it is. -/
@[simp] theorem exec_onSolvers (call : Call σ α β) (run : Run σ α) :
    (onSolvers call : Work σ α β).exec run =
      ((Id.run (call.run.run run.memory)).1,
        { run with memory := (Id.run (call.run.run run.memory)).2 }) := rfl

/-- A piece of work only moves a search to later ones. -/
def Keeps (work : Work σ α β) : Prop :=
  ∀ run, Search.Later run.search (work.exec run).2.search

/-- A piece of work counts a node, whether it succeeds or not. -/
def Counts (work : Work σ α β) : Prop :=
  ∀ run, Search.Counted run.search (work.exec run).2.search

/-- An answer given without work keeps the search. -/
theorem keeps_pure (x : β) : Keeps (pure x : Work σ α β) := fun run => Search.Later.refl run.search

/-- Looking at the search keeps it. -/
theorem keeps_search : Keeps (search : Work σ α (Search α)) :=
  fun run => Search.Later.refl run.search

/-- A call on the solvers keeps the search. -/
theorem keeps_onSolvers (call : Call σ α β) : Keeps (onSolvers call) :=
  fun run => Search.Later.refl run.search

/-- Work on the search only moves to later ones if the operation does. -/
theorem keeps_onSearch {f : Search α → Except (Error α) β × Search α}
    (h : ∀ s, Search.Later s (f s).2) : Keeps (onSearch f : Work σ α β) := fun run => h run.search

/-- Work on the search counts a node if the operation does. -/
theorem counts_onSearch {f : Search α → Except (Error α) β × Search α}
    (h : ∀ s, Search.Counted s (f s).2) : Counts (onSearch f : Work σ α β) :=
  fun run => h run.search

/-- Work in two parts only moves to later searches if both parts do. -/
theorem Keeps.bind {work : Work σ α β} {next : β → Work σ α γ} (h : Keeps work)
    (k : ∀ x, Keeps (next x)) : Keeps (work >>= next) := by
  intro run
  have h' := h run
  rw [exec_bind]
  rcases heq : work.exec run with ⟨e | x, after⟩ <;> rw [heq] at h'
  · exact h'
  · exact h'.trans (k x after)

/-- Work in two parts counts a node if its first part does and the second takes none back. -/
theorem Counts.bind {work : Work σ α β} {next : β → Work σ α γ} (h : Counts work)
    (k : ∀ x, Keeps (next x)) : Counts (work >>= next) := by
  intro run
  have h' := h run
  rw [exec_bind]
  rcases heq : work.exec run with ⟨e | x, after⟩ <;> rw [heq] at h'
  · exact h'
  · exact h'.trans_later (k x after)

end Work

namespace Serial

variable {σ α : Type} [Scalar α] (solvers : Solvers σ α)

/-- Processing children takes no count back. -/
theorem keeps_evaluate (nodes : List (Node α)) : Work.Keeps (evaluate solvers nodes) := by
  induction nodes with
  | nil => exact Work.keeps_pure []
  | cons node rest ih =>
      refine Work.keeps_search.bind fun s => (Work.keeps_onSolvers _).bind fun r => ?_
      refine (Work.keeps_onSearch fun s => (s.counted_record r).later).bind fun _ => ?_
      exact ih.bind fun rs => Work.keeps_pure _

/-- Taking in a kept child takes no count back. -/
theorem keeps_keep (r : Report α) : Work.Keeps (keep r : Work σ α Unit) := by
  unfold keep
  split
  · exact (Work.keeps_onSearch fun s => s.later_insertEvaluated r.node).bind
      fun _ => Work.keeps_pure ()
  · exact Work.keeps_onSearch fun s => s.later_countFathomed r

/-- Branching strongly counts the node of the report. -/
theorem counts_strongBranch (r : Report α) : Work.Counts (strongBranch solvers r) := by
  refine (Work.counts_onSearch fun s => s.counted_record r).bind fun _ => ?_
  refine (Work.keeps_onSearch fun s => s.later_strongChildren r).bind fun children => ?_
  refine (keeps_evaluate solvers children).bind fun reports => Work.keeps_search.bind fun s => ?_
  split
  · exact (Work.keeps_onSearch fun s => ⟨Nat.le_refl _, rfl⟩).bind fun _ => Work.keeps_pure _
  · refine (keeps_keep _).bind fun _ => (keeps_keep _).bind fun _ => ?_
    exact (Work.keeps_onSearch fun s => ⟨Nat.le_refl _, rfl⟩).bind fun _ => Work.keeps_pure _

/-- What follows the processing of a node counts it. -/
theorem counts_conclude (depth : Nat) (r : Report α) :
    Work.Counts (conclude solvers depth r) := by
  intro run
  simp only [conclude, Work.exec_bind, Work.exec_search]
  split
  · exact counts_strongBranch solvers r run
  · exact run.search.counted_apply r

/-- What is left to the limit on nodes falls with every round that does not end the search. -/
theorem round_lt {run after : Run σ α} (h : (round solvers).exec run = (.ok none, after)) :
    after.search.settings.maxNodes - after.search.stats.processed
      < run.search.settings.maxNodes - run.search.stats.processed := by
  simp only [round, Work.exec_bind, Work.exec_modify, Work.exec_search] at h
  split at h
  · cases h
  · next hcheck =>
    have hlt := Search.processed_lt_of_check hcheck
    change run.search.stats.processed < run.search.settings.maxNodes at hlt
    obtain ⟨node, mid, hnext, h⟩ := Work.exec_bind_ok h
    obtain ⟨r, processed, hprocess, h⟩ := Work.exec_bind_ok h
    obtain ⟨stage, last, hconclude, h⟩ := Work.exec_bind_ok h
    cases h
    have hmid := Work.keeps_onSearch (σ := σ) (f := Search.next) Search.later_next
      { run with search := run.search.atTime (solvers.clock run.memory) }
    have hprocessed := Work.keeps_onSolvers
      (processNode solvers node (run.search.atTime (solvers.clock run.memory)).cutoff) mid
    have hlast := counts_conclude solvers node.depth r processed
    rw [hnext] at hmid
    rw [hprocess] at hprocessed
    rw [hconclude] at hlast
    have hcount : Search.Counted run.search after.search :=
      Search.Later.trans_counted ⟨hmid.1, hmid.2⟩ (hprocessed.trans_counted hlast)
    simp only [Search.Counted] at hcount
    rw [hcount.2]
    omega

end Serial

end BranchBound
