import BranchBound.Proofs.Node.Calls
import BranchBound.Proofs.Search.Asynchronous
import BranchBound.Proofs.Search.Operations
import BranchBound.Proofs.Search.Reporting
import BranchBound.Search.Serial

/-! # The serial search, one round at a time

What the serial search comes to (`Serial.outcome`) is unfolded by one round: either the search is
over, or the outcome is that of the search after one more report (`Serial.concluded`). This is said
for searches without strong branching and without limits on time and memory (`Settings.Plain`), in
which the clock does not matter, and in which it does not matter either whether the search is looked
at while a node is out or before (`Search.check_next`).

* **`Serial.outcome`**, **`Serial.outcome_over`**, **`Serial.outcome_next`** — the outcome and its
  unfolding.
* **`Search.check_atTime`**, **`Search.check_next`** — whether the search is over depends neither on
  the clock nor on whether its next node is out.
* **`Serial.solve_logged`** — the solution is the same if the calls on the solvers are written
  down. -/

namespace BranchBound

variable {σ α : Type} [Scalar α]

/-- Nodes are not branched strongly, and neither time nor memory is limited. -/
structure Settings.Plain (settings : Settings α) : Prop where
  /-- No node is branched strongly. -/
  strongDepth : settings.strongDepth = 0
  /-- The wall-clock time is not limited. -/
  timeLimit : settings.timeLimit = none
  /-- The computing time is not limited. -/
  cpuTimeLimit : settings.cpuTimeLimit = none
  /-- The memory is not limited. -/
  memoryLimit : settings.memoryLimit = none

namespace Search

variable {s t : Search α} {n : Node α}

/-! ## When a search is over -/

/-- With no limit on time or memory, only the count of nodes limits a search. -/
theorem check_eq (h : s.settings.Plain) (outLowest : Option α) :
    s.check outLowest =
      if s.brancher.frontier.size = 0 ∧ outLowest.isNone then some s.exhaustedStatus
      else if s.settings.targetUpper.any fun target => s.incumbent.value ≤ target then
        some .targetUpperReached
      else if s.settings.targetLower.any fun target => target ≤ s.openBound outLowest then
        some .targetLowerReached
      else if s.settings.maxNodes ≤ s.stats.processed then some .nodeLimit
      else none := by
  unfold check
  simp [resourceLimit?, Duration.reaches, h.timeLimit, h.cpuTimeLimit, h.memoryLimit]

/-- Whether a search is over does not depend on the clock. -/
theorem check_atTime (h : s.settings.Plain) (d : Duration) (outLowest : Option α) :
    (s.atTime d).check outLowest = s.check outLowest := by
  rw [check_eq h, check_eq (s := s.atTime d) h]
  rfl

/-- A search goes on if a node is open or out, no target is reached and the limit on nodes is not
either. -/
theorem check_eq_none_iff (h : s.settings.Plain) (outLowest : Option α) :
    s.check outLowest = none ↔
      ¬ (s.brancher.frontier.size = 0 ∧ outLowest.isNone)
        ∧ (∀ target ∈ s.settings.targetUpper, ¬ s.incumbent.value ≤ target)
        ∧ (∀ target ∈ s.settings.targetLower, ¬ target ≤ s.openBound outLowest)
        ∧ s.stats.processed < s.settings.maxNodes := by
  rw [check_eq h]
  have hany : ∀ (limit : Option α) (p : α → Prop) [DecidablePred p],
      (limit.any fun target => decide (p target)) = false ↔ ∀ target ∈ limit, ¬ p target := by
    intro limit p _
    cases limit <;> simp
  rw [← hany, ← hany]
  split_ifs <;> simp_all

variable [Scalar.Ordered α]

/-- A search that is not over before a node goes out is not over while it is out. -/
theorem check_next (h : s.settings.Plain) (hs : s.brancher.frontier.Consistent)
    (hnext : s.next = (.ok n, t)) (hcheck : s.check none = none) :
    t.check (some n.score) = none := by
  obtain ⟨-, hupper, hlower, hprocessed⟩ := (check_eq_none_iff h _).mp hcheck
  obtain ⟨m, f, hpop, rfl, ht⟩ := Async.next_ok hnext
  have hplain : t.settings.Plain := by
    rw [ht]
    exact h
  rw [check_eq_none_iff hplain, ht]
  refine ⟨fun hnone => (nomatch hnone.2), hupper, fun target htarget hle => ?_, hprocessed⟩
  -- the open bound is that of before, with the score of the node counted apart
  exact hlower target htarget (Scalar.Ordered.le_trans hle (hs.least_pop_le hpop))

/-- A search without strong branching and without limits on time and memory, whose frontier is
consistent. -/
structure Steady (s : Search α) : Prop where
  /-- The settings. -/
  plain : s.settings.Plain
  /-- The frontier. -/
  consistent : s.brancher.frontier.Consistent

omit [Scalar.Ordered α] in
/-- The clock does not matter. -/
theorem Steady.atTime (h : s.Steady) (d : Duration) : (s.atTime d).Steady :=
  ⟨h.plain, h.consistent⟩

/-- A search is steady at its start. -/
theorem Steady.new {vars : List (Variable α)} {settings : Settings α} (hplain : settings.Plain)
    (h : Search.new vars settings = .ok s) : s.Steady := by
  refine ⟨?_, (Reachable.new h).consistent⟩
  rw [(new_frame h).2.2]
  exact hplain

omit [Scalar.Ordered α] in
/-- Handing out a node concerns the tree alone. -/
theorem next_frame (h : s.next = (.ok n, t)) :
    t.cutoff = s.cutoff ∧ t.incumbent = s.incumbent ∧ t.settings = s.settings
      ∧ t.stats = s.stats := by
  obtain ⟨-, rfl⟩ := Prod.mk.inj h
  exact ⟨rfl, rfl, rfl, rfl⟩

/-- Handing out a node keeps a search steady. -/
theorem Steady.next (h : s.Steady) (hnext : s.next = (.ok n, t)) : t.Steady := by
  obtain ⟨-, -, hsettings, -⟩ := next_frame hnext
  have hconsistent := consistent_perform h.consistent .next
  rw [perform, hnext] at hconsistent
  exact ⟨hsettings ▸ h.plain, hconsistent⟩

omit [Scalar.Ordered α] in
/-- Fewer nodes may be processed once the report on a node of a search that was not over is taken
in. -/
theorem left_lt (r : Report α) {outLowest : Option α} (h : s.check outLowest = none) :
    (s.apply r).2.settings.maxNodes - (s.apply r).2.stats.processed
      < s.settings.maxNodes - s.stats.processed := by
  have hlt := processed_lt_of_check h
  obtain ⟨hcounted, hsettings⟩ := s.counted_apply r
  rw [hsettings]
  omega

/-- Taking in a report keeps a search steady. -/
theorem Steady.apply (h : s.Steady) (r : Report α) : (s.apply r).2.Steady :=
  ⟨(s.counted_apply r).2 ▸ h.plain, consistent_perform h.consistent (.apply r)⟩

end Search

namespace Serial

variable {solvers : Solvers σ α} {s t : Search α} {n : Node α} {r : Report α} {memory after : σ}

/-! ## The outcome -/

/-- What a search comes to, and the state of the solvers then. -/
def outcome (solvers : Solvers σ α) (run : Run σ α) : Except (Failure α) (Solution α) × σ :=
  match search solvers run with
  | (.ok status, run) => (.ok (run.search.solution status .complete none), run.memory)
  | (.error (.error e), run) =>
      (.ok (run.search.solution .failed .complete (some e.message)), run.memory)
  | (.error .crash, run) => (.error .crash, run.memory)

/-- What a search comes to once a report is taken in. -/
def concluded (solvers : Solvers σ α) (s : Search α) (memory : σ) (r : Report α) :
    Except (Failure α) (Solution α) × σ :=
  match s.apply r with
  | (.error e, s) => (.ok (s.solution .failed .complete (some e.message)), memory)
  | (.ok _, s) => outcome solvers ⟨s, memory⟩

/-- A problem is solved by a search from its start. -/
theorem solve_eq (solvers : Solvers σ α) (vars : List (Variable α)) (settings : Settings α)
    (memory : σ) :
    solve solvers vars settings memory =
      match Search.new vars settings with
      | .error e => (.error (.error e), memory)
      | .ok s => outcome solvers ⟨s, memory⟩ := rfl

/-- A search goes round once, and then goes on. -/
theorem search_eq (solvers : Solvers σ α) (run : Run σ α) :
    search solvers run =
      match (round solvers).exec run with
      | (.error failure, after) => (.error failure, after)
      | (.ok (some status), after) => (.ok status, after)
      | (.ok none, after) => search solvers after := by
  rw [search]
  split <;> simp_all

/-- The clock does not matter for the outcome. -/
theorem outcome_atTime (solvers : Solvers σ α) (s : Search α) (d : Duration) (memory : σ) :
    outcome solvers ⟨s.atTime d, memory⟩ = outcome solvers ⟨s, memory⟩ := by
  -- a round begins with a look at the clock
  have hround : (round solvers).exec ⟨s.atTime d, memory⟩ = (round solvers).exec ⟨s, memory⟩ := rfl
  unfold outcome
  rw [search_eq solvers ⟨s.atTime d, memory⟩, hround, ← search_eq]

/-- The clock does not matter when a report is taken in. -/
theorem concluded_atTime (solvers : Solvers σ α) (s : Search α) (d : Duration) (memory : σ)
    (r : Report α) : concluded solvers (s.atTime d) memory r = concluded solvers s memory r := by
  unfold concluded
  rw [Search.apply_atTime]
  rcases s.apply r with ⟨e | stage, t⟩
  · rfl
  · exact outcome_atTime solvers t d memory

/-- The outcome of a search that is over. -/
theorem outcome_over {status : Status} (h : s.settings.Plain)
    (hcheck : s.check none = some status) :
    outcome solvers ⟨s, memory⟩ = (.ok (s.solution status .complete none), memory) := by
  have hround : (round solvers).exec ⟨s, memory⟩
      = (.ok (some status), ⟨s.atTime (solvers.clock memory), memory⟩) := by
    simp only [round, Work.exec_bind, Work.exec_modify, Work.exec_search]
    rw [Search.check_atTime h, hcheck]
    rfl
  unfold outcome
  rw [search_eq, hround]
  rfl

/-- A report on a node that is too deep for strong branching is taken in. -/
theorem exec_conclude {depth : Nat} (h : s.settings.strongDepth ≤ depth) (r : Report α)
    (memory : σ) :
    (conclude solvers depth r).exec ⟨s, memory⟩
      = ((s.apply r).1.mapError .error, ⟨(s.apply r).2, memory⟩) := by
  have hdepth : ¬ (depth < s.settings.strongDepth ∧ wantsStrong s r) :=
    fun hwanted => Nat.not_lt.mpr h hwanted.1
  simp only [conclude, Work.exec_bind, Work.exec_search]
  rw [if_neg hdepth, Work.exec_onSearch]

/-- A search that goes on takes in the report on its next node. -/
theorem exec_round_next (h : s.settings.Plain) (hcheck : s.check none = none)
    (hnext : s.next = (.ok n, t))
    (hreport : (processNode solvers n s.cutoff).Returns memory r after) :
    (round solvers).exec ⟨s, memory⟩ =
      match (t.atTime (solvers.clock memory)).apply r with
      | (.error e, u) => (.error (.error e), ⟨u, after⟩)
      | (.ok _, u) => (.ok none, ⟨u, after⟩) := by
  -- to look at the clock and to hand out a node commute
  have hnow : (s.atTime (solvers.clock memory)).next
      = (.ok n, t.atTime (solvers.clock memory)) := by
    obtain ⟨hn, rfl⟩ := Prod.mk.inj hnext
    exact Prod.ext hn rfl
  have hdepth : (t.atTime (solvers.clock memory)).settings.strongDepth = 0 := by
    rw [← (Prod.mk.inj hnow).2]
    exact h.strongDepth
  have hcall : Id.run (StateT.run (ExceptT.run
      (processNode solvers n (s.atTime (solvers.clock memory)).cutoff)) memory) = (.ok r, after) :=
    hreport
  simp only [round, Work.exec_bind, Work.exec_modify, Work.exec_search]
  rw [Search.check_atTime h, hcheck]
  simp only [Work.exec_bind, Work.exec_onSearch, Work.exec_onSolvers, hnow, Except.mapError, hcall,
    exec_conclude (hdepth.trans_le n.depth.zero_le)]
  rcases (t.atTime (solvers.clock memory)).apply r with ⟨e | stage, u⟩
  · rfl
  · rfl

/-- The outcome of a search that goes on is that after the report on its next node. -/
theorem outcome_next (h : s.settings.Plain) (hcheck : s.check none = none)
    (hnext : s.next = (.ok n, t))
    (hreport : (processNode solvers n s.cutoff).Returns memory r after) :
    outcome solvers ⟨s, memory⟩ = concluded solvers t after r := by
  rw [← concluded_atTime solvers t (solvers.clock memory)]
  unfold outcome concluded
  rw [search_eq, exec_round_next h hcheck hnext hreport]
  rcases (t.atTime (solvers.clock memory)).apply r with ⟨e | stage, u⟩
  · rfl
  · rfl

/-! ## Writing down the calls -/

variable [Scalar.Ordered α]

/-- A search comes to the same if the calls on its solvers are written down. -/
theorem outcome_logged (hs : solvers.Reliable) (hdefined : solvers.Defined) (h : s.Steady)
    {memory last : σ × List (Query α)} {answer : Except (Failure α) (Solution α)}
    (houtcome : outcome solvers.logged ⟨s, memory⟩ = (answer, last)) :
    outcome solvers ⟨s, memory.1⟩ = (answer, last.1) := by
  -- on the number of nodes that may still be processed, which every round lowers
  induction hleft : s.settings.maxNodes - s.stats.processed using Nat.strong_induction_on
    generalizing s memory with
  | _ left ih =>
    cases hcheck : s.check none with
    | some status =>
      rw [outcome_over h.plain hcheck] at houtcome ⊢
      cases houtcome
      rfl
    | none =>
      obtain ⟨n, t, hnext⟩ := Async.exists_next h.consistent (Search.isEmpty_eq_false hcheck)
      obtain ⟨r, after, hreport, -⟩ :=
        processNode_returns hs.logged hdefined.logged n s.cutoff memory
      have hplain := (processNode_logs solvers n s.cutoff memory r after hreport).1
      rw [outcome_next h.plain hcheck hnext hreport] at houtcome
      rw [outcome_next h.plain hcheck hnext hplain]
      obtain ⟨-, -, hsettings, hstats⟩ := Search.next_frame hnext
      have hlt := Search.left_lt r (Search.check_next h.plain h.consistent hnext hcheck)
      have hsteady := (h.next hnext).apply r
      unfold concluded at houtcome ⊢
      rcases happly : t.apply r with ⟨e | stage, u⟩
      · rw [happly] at houtcome
        cases houtcome
        rfl
      · rw [happly] at houtcome hlt hsteady
        refine ih _ ?_ hsteady houtcome rfl
        rw [← hleft, ← hsettings, ← hstats]
        exact hlt

/-- So does the solution of a problem. -/
theorem solve_logged (hs : solvers.Reliable) (hdefined : solvers.Defined)
    {vars : List (Variable α)} {settings : Settings α} (hplain : settings.Plain)
    {memory last : σ × List (Query α)} {answer : Except (Failure α) (Solution α)}
    (h : solve solvers.logged vars settings memory = (answer, last)) :
    solve solvers vars settings memory.1 = (answer, last.1) := by
  rw [solve_eq] at h ⊢
  cases hnew : Search.new vars settings with
  | error e =>
    rw [hnew] at h
    cases h
    rfl
  | ok s =>
    rw [hnew] at h
    exact outcome_logged hs hdefined (Search.Steady.new hplain hnew) h

end Serial

end BranchBound
