import BranchBound.Proofs.Search.Ancestry
import BranchBound.Proofs.Search.Tolerances

/-! # How far a search goes beyond its limit on nodes

The serial search looks at its limit on nodes before every round, and a round processes one node, or
a node and its children in every dimension if it is branched strongly. The count of processed nodes
can thus exceed the limit, but by no more than two for each dimension; without strong branching it
does not. A search that ends at the limit has reached it.

* **`Work.CountsAtMost`** — how many nodes a piece of work counts at most.
* **`Serial.processed_round_le_overrun`** — how many nodes a round counts at most.
* **`Serial.solve_processed_le`** — how many nodes a search counts at most. -/

namespace BranchBound

variable {σ α β γ : Type} [Scalar α]

/-! ## The number of variables and children -/

omit [Scalar α] in
/-- As many variables pass their checks as there are. -/
theorem length_of_mapM {ε : Type} {f : β → Except ε γ} {xs : List β} {ys : List γ}
    (h : xs.mapM f = .ok ys) : ys.length = xs.length := by
  induction xs generalizing ys with
  | nil =>
    cases h
    rfl
  | cons x xs ih =>
    rw [List.mapM_cons] at h
    rcases hx : f x with e | z
    · rw [hx] at h
      cases h
    · rcases hxs : xs.mapM f with e | zs
      · rw [hx, hxs] at h
        cases h
      · rw [hx, hxs] at h
        cases h
        exact congrArg (· + 1) (ih hxs)

namespace Brancher

variable {b c : Brancher α}

/-- The children in one dimension are two at most. -/
theorem length_addChildren_le (parent : Node α) (point : List α)
    (found : List (Node α) × Brancher α) (d : Variable α × Nat) :
    (addChildren parent point found d).1.length ≤ found.1.length + 2 := by
  rcases addChildren_cases parent point found d.1 d.2
    with ⟨-, hsame⟩ | ⟨-, down, up, e, -, hadded⟩
  · rw [hsame]
    exact Nat.le_add_right _ _
  · rw [hadded, List.length_append]
    exact Nat.le_refl _

/-- The children in some dimensions are two at most for each. -/
theorem length_foldl_addChildren_le (parent : Node α) (point : List α)
    (dimensions : List (Variable α × Nat)) (found : List (Node α) × Brancher α) :
    (dimensions.foldl (addChildren parent point) found).1.length
      ≤ found.1.length + 2 * dimensions.length := by
  induction dimensions generalizing found with
  | nil => exact Nat.le_refl _
  | cons d rest ih =>
    have hd := length_addChildren_le parent point found d
    have hrest := ih (addChildren parent point found d)
    rw [List.foldl_cons, List.length_cons]
    omega

/-- A node has two children at most for each dimension. -/
theorem length_allChildren_le {parent : Node α} {point : List α} {nodes : List (Node α)}
    (h : b.allChildren parent point = (.ok nodes, c)) : nodes.length ≤ 2 * b.vars.length := by
  cases allChildren_exit h with
  | empty => exact Nat.zero_le _
  | gathered _ _ hfold =>
    have hlength := length_foldl_addChildren_le
      { parent with box := roundDiscrete b.vars parent.box } point b.vars.zipIdx ([], b)
    rwa [hfold, List.length_nil, Nat.zero_add, List.length_zipIdx] at hlength

end Brancher

/-! ## Counting the nodes of a piece of work -/

namespace Work

/-- In a search with so many variables, a piece of work counts so many nodes at most, whether it
succeeds or not, and the variables stay as many. -/
def CountsAtMost (dimension k : Nat) (work : Work σ α β) : Prop :=
  ∀ run, run.search.brancher.vars.length = dimension →
    (work.exec run).2.search.brancher.vars.length = dimension
      ∧ (work.exec run).2.search.stats.processed ≤ run.search.stats.processed + k

variable {dimension j k : Nat} {work : Work σ α β} {next : β → Work σ α γ}

omit [Scalar α] in
/-- An answer given without work counts no node. -/
theorem countsAtMost_pure (x : β) : CountsAtMost dimension 0 (pure x : Work σ α β) :=
  fun _ h => ⟨h, Nat.le_refl _⟩

omit [Scalar α] in
/-- Looking at the search counts no node. -/
theorem countsAtMost_search : CountsAtMost dimension 0 (search : Work σ α (Search α)) :=
  fun _ h => ⟨h, Nat.le_refl _⟩

omit [Scalar α] in
/-- A call on the solvers counts no node. -/
theorem countsAtMost_onSolvers (call : Call σ α β) : CountsAtMost dimension 0 (onSolvers call) :=
  fun _ h => ⟨h, Nat.le_refl _⟩

omit [Scalar α] in
/-- Work on the search counts what the operation counts. -/
theorem countsAtMost_onSearch {f : Search α → Except (Error α) β × Search α}
    (hvars : ∀ s, (f s).2.brancher.vars = s.brancher.vars)
    (hcount : ∀ s, (f s).2.stats.processed ≤ s.stats.processed + k) :
    CountsAtMost dimension k (onSearch f : Work σ α β) :=
  fun run h => ⟨(congrArg List.length (hvars run.search)).trans h, hcount run.search⟩

omit [Scalar α] in
/-- Work that counts so many nodes at most counts no more than any greater number. -/
theorem CountsAtMost.mono (h : CountsAtMost dimension j work) (hle : j ≤ k) :
    CountsAtMost dimension k work := by
  intro run hrun
  obtain ⟨hvars, hcount⟩ := h run hrun
  exact ⟨hvars, hcount.trans (Nat.add_le_add_left hle _)⟩

omit [Scalar α] in
/-- Work in two parts counts what both parts count, where the second depends on what the first
answers. -/
theorem CountsAtMost.bind_of {P : β → Prop} (h : CountsAtMost dimension j work)
    (hanswer : ∀ run x after, run.search.brancher.vars.length = dimension →
      work.exec run = (.ok x, after) → P x)
    (hnext : ∀ x, P x → CountsAtMost dimension k (next x)) :
    CountsAtMost dimension (j + k) (work >>= next) := by
  intro run hrun
  obtain ⟨hvars, hcount⟩ := h run hrun
  rw [exec_bind]
  rcases hwork : work.exec run with ⟨e | x, after⟩ <;> rw [hwork] at hvars hcount
  · exact ⟨hvars, hcount.trans (by omega)⟩
  · obtain ⟨hlast, htotal⟩ := hnext x (hanswer run x after hrun hwork) after hvars
    exact ⟨hlast, htotal.trans (by dsimp only at hcount; omega)⟩

omit [Scalar α] in
/-- Work in two parts counts what both parts count. -/
theorem CountsAtMost.bind (h : CountsAtMost dimension j work)
    (hnext : ∀ x, CountsAtMost dimension k (next x)) :
    CountsAtMost dimension (j + k) (work >>= next) :=
  h.bind_of (P := fun _ => True) (fun _ _ _ _ _ => trivial) fun x _ => hnext x

end Work

namespace Serial

open Work

variable {solvers : Solvers σ α} {dimension : Nat}

/-- Recording a report counts a node. -/
theorem countsAtMost_record (r : Report α) :
    CountsAtMost dimension 1 (onSearch (·.record r) : Work σ α Unit) :=
  countsAtMost_onSearch (fun s => (s.alike_record r).vars) fun s => (s.processed_record r).le

/-- Processing children counts each of them. -/
theorem countsAtMost_evaluate (solvers : Solvers σ α) (nodes : List (Node α)) :
    CountsAtMost dimension nodes.length (evaluate solvers nodes) := by
  induction nodes with
  | nil => exact countsAtMost_pure []
  | cons n rest ih =>
    have hcounts := countsAtMost_search.bind fun s =>
      (countsAtMost_onSolvers (processNode solvers n s.cutoff)).bind fun r =>
        (countsAtMost_record r).bind fun _ =>
          ih.bind fun reports => countsAtMost_pure (r :: reports)
    exact hcounts.mono (by rw [List.length_cons]; omega)

/-- Taking in a child that is kept counts no node. -/
theorem countsAtMost_keep (r : Report α) : CountsAtMost dimension 0 (keep r : Work σ α Unit) := by
  unfold keep
  split
  · have hinsert : CountsAtMost dimension 0
        (onSearch (·.insertEvaluated r.node) : Work σ α Bool) :=
      countsAtMost_onSearch (fun s => (s.alike_perform (.insertEvaluated r.node)).vars)
        fun _ => Nat.le_refl _
    exact hinsert.bind fun _ => countsAtMost_pure ()
  · exact countsAtMost_onSearch (fun s => (s.alike_countFathomed r).vars)
      fun s => (s.processed_countFathomed r).le

/-- Keeping the best pair of children counts no node. -/
theorem countsAtMost_keepBest (score : α) (reports : List (Report α)) :
    CountsAtMost dimension 0 (keepBest score reports : Work σ α Stage) := by
  have hcount : ∀ f : Search α → Search α, (∀ s, (f s).brancher.vars = s.brancher.vars) →
      (∀ s, (f s).stats.processed ≤ s.stats.processed) →
      CountsAtMost dimension 0 (change f : Work σ α Unit) :=
    fun f hvars hle => countsAtMost_onSearch hvars hle
  refine countsAtMost_search.bind (k := 0) fun s => ?_
  split
  · exact (hcount Search.countDropped (fun _ => rfl) fun _ => Nat.le_refl _).bind
      fun _ => countsAtMost_pure _
  · next down up _ =>
    exact (countsAtMost_keep down).bind (k := 0) fun _ =>
      (countsAtMost_keep up).bind (k := 0) fun _ =>
        (hcount Search.countBranched (fun _ => rfl) fun _ => Nat.le_refl _).bind
          fun _ => countsAtMost_pure _

/-- There are two children at most for each dimension. -/
theorem length_le_of_strongChildren {run after : Run σ α} {r : Report α} {nodes : List (Node α)}
    (h : (onSearch (·.strongChildren r) : Work σ α (List (Node α))).exec run = (.ok nodes, after)) :
    nodes.length ≤ 2 * run.search.brancher.vars.length := by
  rw [exec_onSearch, Prod.mk.injEq] at h
  rcases hall : run.search.brancher.allChildren r.node r.point with ⟨e | found, b⟩
  · simp only [Search.strongChildren, hall] at h
    cases h.1
  · simp only [Search.strongChildren, hall] at h
    cases h.1
    exact Brancher.length_allChildren_le hall

/-- Strong branching counts the node and its children. -/
theorem countsAtMost_strongBranch (solvers : Solvers σ α) (r : Report α) :
    CountsAtMost dimension (1 + 2 * dimension) (strongBranch solvers r) := by
  have hchildren : CountsAtMost dimension 0
      (onSearch (·.strongChildren r) : Work σ α (List (Node α))) :=
    countsAtMost_onSearch (fun s => (s.alike_perform (.strongChildren r)).vars)
      fun _ => Nat.le_refl _
  have hrest : ∀ nodes : List (Node α), nodes.length ≤ 2 * dimension →
      CountsAtMost dimension (2 * dimension)
        (evaluate solvers nodes >>= fun reports => keepBest r.node.score reports) :=
    fun nodes hnodes => ((countsAtMost_evaluate solvers nodes).bind fun reports =>
      countsAtMost_keepBest r.node.score reports).mono hnodes
  have hall := (countsAtMost_record r).bind fun _ =>
    hchildren.bind_of (P := fun nodes => nodes.length ≤ 2 * dimension)
      (fun run nodes after hrun h => hrun ▸ length_le_of_strongChildren h) hrest
  exact hall.mono (by omega)

/-- What follows the processing of a node counts it, and its children if it is branched strongly. -/
theorem countsAtMost_conclude (solvers : Solvers σ α) (depth : Nat) (r : Report α) :
    CountsAtMost dimension (1 + 2 * dimension) (conclude solvers depth r) := by
  refine (countsAtMost_search.bind (k := 1 + 2 * dimension) fun s => ?_).mono (by omega)
  split
  · exact countsAtMost_strongBranch solvers r
  · have happly : CountsAtMost dimension 1 (onSearch (·.apply r) : Work σ α Stage) :=
      countsAtMost_onSearch (fun s => (s.alike_perform (.apply r)).vars)
        fun s => (s.processed_apply_eq r).le
    exact happly.mono (by omega)

/-- A round counts one node, and its children if it is branched strongly. -/
theorem countsAtMost_round (solvers : Solvers σ α) :
    CountsAtMost dimension (1 + 2 * dimension) (round solvers) := by
  have hclock : CountsAtMost dimension 0 (modify fun run =>
      { run with search := run.search.atTime (solvers.clock run.memory) } : Work σ α Unit) :=
    fun _ h => ⟨h, Nat.le_refl _⟩
  have hnext : CountsAtMost dimension 0 (onSearch Search.next : Work σ α (Node α)) :=
    countsAtMost_onSearch (fun s => (s.alike_perform .next).vars) fun _ => Nat.le_refl _
  unfold round
  refine (hclock.bind fun _ =>
    countsAtMost_search.bind (k := 1 + 2 * dimension) fun s => ?_).mono (by omega)
  split
  · exact (countsAtMost_pure _).mono (Nat.zero_le _)
  · have hprocessed := hnext.bind fun node =>
      (countsAtMost_onSolvers (processNode solvers node s.cutoff)).bind fun r =>
        (countsAtMost_conclude solvers node.depth r).bind fun _ =>
          countsAtMost_pure (none : Option Status)
    exact hprocessed.mono (by omega)

variable {run last after : Run σ α}

/-- A round that does not look for strong branching counts one node. -/
theorem processed_round_le_succ (solvers : Solvers σ α) (run : Run σ α)
    (hstrong : run.search.settings.strongDepth = 0) :
    ((round solvers).exec run).2.search.stats.processed ≤ run.search.stats.processed + 1 := by
  -- without strong branching a report is applied, which counts its node alone
  have hdone : ∀ {n t r memory answer last}, (now solvers run).next = (.ok n, t) →
      (conclude solvers n.depth r).exec ⟨t, memory⟩ = (answer, last) →
      last.search.stats.processed ≤ run.search.stats.processed + 1 := by
    intro n t r memory answer last hnext hconclude
    obtain ⟨-, -, hsettings, hstats⟩ := Search.next_frame hnext
    rw [exec_conclude ((hsettings ▸ hstrong).trans_le (Nat.zero_le _))] at hconclude
    rw [← (Prod.mk.inj hconclude).2]
    show (t.apply r).2.stats.processed ≤ _
    rw [Search.processed_apply_eq, hstats]
    exact Nat.le_refl _
  have hrounded := exec_round solvers run
  generalize ((round solvers).exec run).1 = answer at hrounded
  generalize ((round solvers).exec run).2 = last at hrounded ⊢
  cases hrounded with
  | ended => exact Nat.le_succ _
  | empty _ hnext =>
    obtain ⟨-, rfl⟩ := Prod.mk.inj hnext
    exact Nat.le_succ _
  | unprocessed hnext =>
    obtain ⟨-, rfl⟩ := Prod.mk.inj hnext
    exact Nat.le_succ _
  | failed hnext hconclude => exact hdone hnext hconclude
  | next hnext hprocess hconclude => exact hdone hnext hconclude

/-- How far a search may go beyond its limit on nodes: by the children of one node, if nodes are
branched strongly. -/
def overrun (settings : Settings α) (dimension : Nat) : Nat :=
  if settings.strongDepth = 0 then 0 else 2 * dimension

/-- No round goes further beyond the limit. -/
theorem processed_round_le_overrun (solvers : Solvers σ α) (run : Run σ α) :
    ((round solvers).exec run).2.search.stats.processed
      ≤ max run.search.stats.processed
        (run.search.settings.maxNodes
          + overrun run.search.settings run.search.brancher.vars.length) := by
  -- a round that is gone through begins below the limit
  cases hcheck : (now solvers run).check none with
  | some status =>
    rw [exec_round_over hcheck]
    exact Nat.le_max_left _ _
  | none =>
    have hlt := Search.processed_lt_of_check hcheck
    change run.search.stats.processed < run.search.settings.maxNodes at hlt
    refine Nat.le_trans ?_ (Nat.le_max_right _ _)
    unfold overrun
    split
    · next hstrong =>
      have hone := processed_round_le_succ solvers run hstrong
      omega
    · have hmany := (countsAtMost_round solvers run rfl).2
      omega

/-- Rounds change neither the settings nor the number of variables, and go no further beyond the
limit. -/
theorem processed_rounds_le (h : Rounds solvers run last)
    (hrun : run.search.stats.processed ≤ run.search.settings.maxNodes
      + overrun run.search.settings run.search.brancher.vars.length) :
    last.search.settings = run.search.settings
      ∧ last.search.brancher.vars.length = run.search.brancher.vars.length
      ∧ last.search.stats.processed ≤ run.search.settings.maxNodes
        + overrun run.search.settings run.search.brancher.vars.length := by
  induction h with
  | refl => exact ⟨rfl, rfl, hrun⟩
  | @tail mid after _ hround ih =>
    obtain ⟨hsettings, hvars, hmid⟩ := ih
    have hlater := (later_round solvers mid).2
    have hkept := (countsAtMost_round solvers mid rfl).1
    have hle := processed_round_le_overrun solvers mid
    rw [hround] at hlater hkept hle
    rw [hsettings, hvars, max_eq_right hmid] at hle
    exact ⟨hlater.trans hsettings, hkept.trans hvars, hle⟩

/-- A search counts no more nodes than its limit if no nodes are branched strongly, and otherwise
two more at most for each variable. If it ends because of the limit, it has reached it. -/
theorem solve_processed_le [Scalar.Ordered α] {vars : List (Variable α)} {settings : Settings α}
    {memory left : σ} {solution : Solution α}
    (h : solve solvers vars settings memory = (.ok solution, left)) :
    solution.stats.processed ≤ settings.maxNodes + overrun settings vars.length
      ∧ (solution.status = .nodeLimit → settings.maxNodes ≤ solution.stats.processed) := by
  cases hstart : Search.new vars settings with
  | error e =>
    rw [solve_eq, hstart] at h
    cases h
  | ok start =>
    have hsettings := (Search.new_frame hstart).2.2
    have hvars := length_of_mapM (Search.new_brancher hstart).1
    have hzero := (Search.new_ok hstart).2.1
    constructor
    · obtain ⟨last, after, hrounds, hends⟩ := exists_last_round solvers ⟨start, memory⟩
      -- all rounds but the last leave the count at the limit and its overrun, and so does the last
      obtain ⟨hkept, hmany, hlast⟩ :=
        processed_rounds_le hrounds (by rw [hzero]; exact Nat.zero_le _)
      have hle := processed_round_le_overrun solvers last
      rw [hkept, hmany, max_eq_right hlast] at hle
      dsimp only at hle
      rw [hsettings, hvars] at hle
      rw [solve_eq, hstart] at h
      dsimp only at h
      unfold outcome at h
      rcases hends with ⟨status, hround, hsearch⟩ | ⟨failure, hround, hsearch⟩
      · rw [hsearch] at h
        rw [hround] at hle
        cases h
        exact hle
      · rw [hsearch] at h
        rw [hround] at hle
        cases failure with
        | crash => cases h
        | error e =>
          cases h
          exact hle
    · intro hstatus
      obtain ⟨last, hrounds, hcheck, hsolution⟩ :=
        exists_rounds_of_solve hstart h (by rw [hstatus]; nofun)
      have hreached := Search.warrants_of_check (hstatus ▸ hcheck)
      rw [hsolution]
      have hkept : last.search.settings = settings := (settings_rounds hrounds).trans hsettings
      rw [← hkept]
      exact hreached

/-- Settings with a limit of one node, under which the root is branched strongly. -/
def tightSettings : Settings (Extended ℚ) :=
  { Settings.standard with maxNodes := 1, strongDepth := 1 }

/-- With one variable, the search counts the root and both its children: it goes as far beyond the
limit as it may. -/
theorem solve_processed_le_tightSettings :
    ∃ solution left, solve Async.sampleSolvers Async.sampleVars tightSettings ()
        = (.ok solution, left)
      ∧ solution.status = .nodeLimit ∧ tightSettings.maxNodes ≤ solution.stats.processed
      ∧ solution.stats.processed = tightSettings.maxNodes + overrun tightSettings 1 := by
  have hran : (solve Async.sampleSolvers Async.sampleVars tightSettings ()).1.toOption.any
      (fun solution => solution.status = .nodeLimit ∧ solution.stats.processed = 3) = true := by
    decide +kernel
  rcases hsolve : solve Async.sampleSolvers Async.sampleVars tightSettings ()
    with ⟨e | solution, left⟩
  · rw [hsolve] at hran
    cases hran
  · rw [hsolve] at hran
    obtain ⟨hstatus, hcount⟩ := of_decide_eq_true hran
    obtain ⟨-, hreached⟩ := solve_processed_le hsolve
    exact ⟨solution, left, rfl, hstatus, hreached hstatus, hcount⟩

end Serial

end BranchBound
