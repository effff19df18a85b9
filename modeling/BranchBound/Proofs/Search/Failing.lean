import BranchBound.Proofs.Search.Bounds
import BranchBound.Proofs.Search.Rounds

/-! # Searches that fail

A serial search that fails ends with what it has found so far. The node that it was on when it
failed is in no account any more, so the bound of the solution need not include the score of this
node. It is the only one: together with its score, the bound is at most what it was when the round
began.

* **`Search.Falls`**, **`Work.Falls`** — neither the bound nor the incumbent rose.
* **`Serial.Rounded`** — what a round can do; `exec_round` says that there is nothing else.
* **`Serial.Rounds`**, **`Serial.exists_last_round`** — a search ends with its last round.
* **`Serial.solve_failed`** — what a search has found that failed.
* **`Serial.failed_bound_le_value`** — its bound and the score of the node it was on are a bound on
  every feasible point; `failed_brokenSolvers` needs the score. -/

namespace BranchBound

variable {σ α β γ : Type} [Scalar α]

/-! ## Neither the bound nor the incumbent rises -/

namespace Search

variable {s t u : Search α} {y : α}

/-- A search is not over for having failed. -/
theorem check_ne_failed (s : Search α) (outLowest : Option α) :
    s.check outLowest ≠ some .failed :=
  fun hcheck => warrants_of_check hcheck

/-- From one state of a search to another neither the bound nor the incumbent rose. -/
structure Falls (s t : Search α) : Prop where
  /-- The frontier is consistent. -/
  consistent : t.brancher.frontier.Consistent
  /-- The bound did not rise. -/
  lowers : s.Lowers t
  /-- Nor did the incumbent. -/
  incumbent {y : α} : s.incumbent.value ≤ y → t.incumbent.value ≤ y

/-- Nothing rises from a state to itself. -/
theorem Falls.refl (hs : s.brancher.frontier.Consistent) : s.Falls s := ⟨hs, .refl s, id⟩

/-- What does not rise in two steps does not rise. -/
theorem Falls.trans (h : s.Falls t) (k : t.Falls u) : s.Falls u :=
  ⟨k.consistent, h.lowers.trans k.lowers, fun hy => k.incumbent (h.incumbent hy)⟩

variable [Scalar.Ordered α]

/-- The point of a report does not raise an incumbent. -/
theorem adopt_le {i : Incumbent α} (r : Report α) (h : i.value ≤ y) : (i.adopt r).value ≤ y := by
  rcases i.adopt_cases r with ⟨c, -, hlt, heq⟩ | ⟨-, heq⟩
  · rw [heq]
    exact Scalar.Ordered.le_trans (Scalar.le_of_lt hlt) h
  · rw [heq]
    exact h

/-- No operation raises the incumbent. -/
theorem incumbent_perform_le (op : Op α) (h : s.incumbent.value ≤ y) :
    (s.perform op).incumbent.value ≤ y := by
  -- only points that are offered concern the incumbent, and a worse one is not taken
  cases op with
  | atTime => exact h
  | next => exact h
  | offer c =>
    show (s.offer c).2.incumbent.value ≤ y
    by_cases hlt : c.value < s.incumbent.value
    · rw [offer_of_lt hlt, incumbent_noteDiscarded]
      exact Scalar.Ordered.le_trans (Scalar.le_of_lt hlt) h
    · rw [offer_of_not_lt hlt]
      exact h
  | record r =>
    show (s.account r).incumbent.value ≤ y
    rw [(s.account_frame r).2]
    exact adopt_le r h
  | settle r =>
    show (s.settle r).2.incumbent.value ≤ y
    rw [(s.settle_frame r).2]
    exact h
  | apply r =>
    show (s.apply r).2.incumbent.value ≤ y
    rw [s.incumbent_apply r]
    exact adopt_le r h
  | cancel => exact h
  | insertEvaluated => exact h
  | strongChildren => exact h
  | countFathomed r =>
    show (s.countFathomed r).incumbent.value ≤ y
    rw [(s.countFathomed_frame r).2]
    exact h
  | countBranched => exact h
  | countDropped => exact h

/-- The bound while a node is out is at most what the bound without it or its score is at most. -/
theorem provenBound_some_le_iff {score : α} :
    s.provenBound (some score) ≤ y ↔ s.provenBound none ≤ y ∨ score ≤ y := by
  simp only [provenBound_le_iff, Option.some.injEq, exists_eq_left', reduceCtorEq, false_and,
    exists_false, or_false]
  tauto

/-- A node that is handed out raises the bound up to its score at most: while it is out, the bound
is what it was before. -/
theorem lowers_next {n : Node α} (hs : s.brancher.frontier.Consistent) (h : s.next = (.ok n, t))
    (hy : s.provenBound none ≤ y) : t.provenBound (some n.score) ≤ y := by
  obtain ⟨m, f, hpop, rfl, rfl⟩ := Async.next_ok h
  have hleast := hs.least_pop_le hpop
  obtain ⟨slot, -, -, rfl⟩ := Frontier.pop?_eq_some hpop
  rw [provenBound_some_le_iff, provenBound_le_iff]
  rcases provenBound_le_iff.mp hy with ((hopen | ⟨_, hnone, -⟩) | hkept) | hrefused
  · rcases Scalar.least_le_iff.mp (Scalar.Ordered.le_trans hleast hopen) with hlow | hlow
    · exact .inl (.inl (.inl (.inl hlow)))
    · exact .inr hlow
  · cases hnone
  · exact .inl (.inl (.inr hkept))
  · exact .inl (.inr hrefused)

/-- Nothing rises by an operation that hands out no node. -/
theorem falls_perform (hs : s.brancher.frontier.Consistent) {op : Op α} (hop : op ≠ .next) :
    s.Falls (s.perform op) :=
  ⟨consistent_perform hs op, lowers_perform hs hop, incumbent_perform_le op⟩

end Search

namespace Work

/-- A piece of work raises neither the bound nor the incumbent, whether it succeeds or not. -/
def Falls (work : Work σ α β) : Prop :=
  ∀ run : Run σ α, run.search.brancher.frontier.Consistent →
    run.search.Falls (work.exec run).2.search

/-- An answer given without work raises nothing. -/
theorem falls_pure (x : β) : Falls (pure x : Work σ α β) := fun _ hs => .refl hs

/-- Looking at the search raises nothing. -/
theorem falls_search : Falls (search : Work σ α (Search α)) := fun _ hs => .refl hs

/-- A call on the solvers raises nothing. -/
theorem falls_onSolvers (call : Call σ α β) : Falls (onSolvers call) := fun _ hs => .refl hs

/-- An operation on the search that hands out no node raises nothing. -/
theorem falls_onSearch [Scalar.Ordered α] {f : Search α → Except (Error α) β × Search α}
    {op : Search.Op α} (hop : op ≠ .next) (hf : ∀ s, (f s).2 = s.perform op) :
    Falls (onSearch f : Work σ α β) := by
  intro run hs
  have hfalls := Search.falls_perform hs hop
  rw [← hf] at hfalls
  exact hfalls

/-- Work in two parts raises nothing if neither part does. -/
theorem Falls.bind {work : Work σ α β} {next : β → Work σ α γ} (h : Falls work)
    (k : ∀ x, Falls (next x)) : Falls (work >>= next) := by
  intro run hs
  have hfirst := h run hs
  rw [exec_bind]
  rcases heq : work.exec run with ⟨e | x, after⟩ <;> rw [heq] at hfirst
  · exact hfirst
  · exact hfirst.trans (k x after hfirst.consistent)

end Work

namespace Serial

section Falls

variable [Scalar.Ordered α] (solvers : Solvers σ α)

/-- Processing children raises nothing. -/
theorem falls_evaluate (nodes : List (Node α)) : Work.Falls (evaluate solvers nodes) := by
  induction nodes with
  | nil => exact Work.falls_pure []
  | cons node rest ih =>
    refine Work.falls_search.bind fun s => (Work.falls_onSolvers _).bind fun r => ?_
    have hrecord : Work.Falls (Work.onSearch (·.record r) : Work σ α Unit) :=
      Work.falls_onSearch (show Search.Op.record r ≠ .next from nofun) fun _ => rfl
    exact hrecord.bind fun _ => ih.bind fun rs => Work.falls_pure _

/-- Taking in a kept child raises nothing. -/
theorem falls_keep (r : Report α) : Work.Falls (keep r : Work σ α Unit) := by
  unfold keep
  split
  · have hinsert : Work.Falls (Work.onSearch (·.insertEvaluated r.node) : Work σ α Bool) :=
      Work.falls_onSearch (show Search.Op.insertEvaluated r.node ≠ .next from nofun) fun _ => rfl
    exact hinsert.bind fun _ => Work.falls_pure ()
  · exact Work.falls_onSearch (show Search.Op.countFathomed r ≠ .next from nofun) fun _ => rfl

/-- Branching strongly raises nothing. -/
theorem falls_strongBranch (r : Report α) : Work.Falls (strongBranch solvers r) := by
  have hrecord : Work.Falls (Work.onSearch (·.record r) : Work σ α Unit) :=
    Work.falls_onSearch (show Search.Op.record r ≠ .next from nofun) fun _ => rfl
  have hchildren : Work.Falls (Work.onSearch (·.strongChildren r) : Work σ α (List (Node α))) :=
    Work.falls_onSearch (show Search.Op.strongChildren r ≠ .next from nofun) fun _ => rfl
  have hdropped : Work.Falls (Work.change (·.countDropped) : Work σ α Unit) :=
    Work.falls_onSearch (show Search.Op.countDropped ≠ .next from nofun) fun _ => rfl
  have hbranched : Work.Falls (Work.change (·.countBranched) : Work σ α Unit) :=
    Work.falls_onSearch (show Search.Op.countBranched ≠ .next from nofun) fun _ => rfl
  refine hrecord.bind fun _ => hchildren.bind fun children => ?_
  refine (falls_evaluate solvers children).bind fun reports => Work.falls_search.bind fun s => ?_
  split
  · exact hdropped.bind fun _ => Work.falls_pure _
  · exact (falls_keep _).bind fun _ => (falls_keep _).bind fun _ =>
      hbranched.bind fun _ => Work.falls_pure _

/-- What follows the processing of a node raises nothing. -/
theorem falls_conclude (depth : Nat) (r : Report α) :
    Work.Falls (conclude solvers depth r) := by
  refine Work.falls_search.bind fun s => ?_
  split
  · exact falls_strongBranch solvers r
  · exact Work.falls_onSearch (show Search.Op.apply r ≠ .next from nofun) fun _ => rfl

end Falls

/-! ## Rounds -/

variable {solvers : Solvers σ α} {run last after : Run σ α} {failure : Failure α}

/-- The search of a run once it has looked at the clock. -/
def now (solvers : Solvers σ α) (run : Run σ α) : Search α :=
  run.search.atTime (solvers.clock run.memory)

/-- A round ends the search if it is over. -/
theorem exec_round_over {status : Status} (hcheck : (now solvers run).check none = some status) :
    (round solvers).exec run = (.ok (some status), ⟨now solvers run, run.memory⟩) := by
  have hlook : (run.search.atTime (solvers.clock run.memory)).check none = some status := hcheck
  simp only [round, Work.exec_bind, Work.exec_modify, Work.exec_search, hlook]
  rfl

/-- What a round can do. -/
inductive Rounded (solvers : Solvers σ α) (run : Run σ α) :
    Except (Failure α) (Option Status) → Run σ α → Prop
  /-- The search is over. -/
  | ended {status : Status} (hcheck : (now solvers run).check none = some status) :
      Rounded solvers run (.ok (some status)) ⟨now solvers run, run.memory⟩
  /-- No node can be handed out. -/
  | empty {e : Error α} {t : Search α} (hcheck : (now solvers run).check none = none)
      (hnext : (now solvers run).next = (.error e, t)) :
      Rounded solvers run (.error (.error e)) ⟨t, run.memory⟩
  /-- A node is handed out, and processing it fails. -/
  | unprocessed {n : Node α} {t : Search α} {failure : Failure α} {memory : σ}
      (hnext : (now solvers run).next = (.ok n, t)) :
      Rounded solvers run (.error failure) ⟨t, memory⟩
  /-- A node is processed, and concluding it fails. -/
  | failed {n : Node α} {t : Search α} {r : Report α} {memory : σ} {failure : Failure α}
      {after : Run σ α} (hnext : (now solvers run).next = (.ok n, t))
      (hconclude : (conclude solvers n.depth r).exec ⟨t, memory⟩ = (.error failure, after)) :
      Rounded solvers run (.error failure) after
  /-- A node is processed and concluded. -/
  | next {n : Node α} {t : Search α} {r : Report α} {memory : σ} {stage : Stage} {after : Run σ α}
      (hnext : (now solvers run).next = (.ok n, t))
      (hprocess : (processNode solvers n (now solvers run).cutoff).Returns run.memory r memory)
      (hconclude : (conclude solvers n.depth r).exec ⟨t, memory⟩ = (.ok stage, after)) :
      Rounded solvers run (.ok none) after

/-- A round does one of these things. -/
theorem exec_round (solvers : Solvers σ α) (run : Run σ α) :
    Rounded solvers run ((round solvers).exec run).1 ((round solvers).exec run).2 := by
  simp only [round, Work.exec_bind, Work.exec_modify, Work.exec_search]
  cases hcheck : (run.search.atTime (solvers.clock run.memory)).check none with
  | some status => exact .ended hcheck
  | none =>
    simp only [Work.exec_bind, Work.exec_onSearch, Work.exec_onSolvers]
    rcases hnext : (run.search.atTime (solvers.clock run.memory)).next with ⟨e | n, t⟩
    · exact .empty hcheck hnext
    · simp only [Except.mapError]
      rcases hprocess : Id.run (StateT.run (ExceptT.run (processNode solvers n
        (run.search.atTime (solvers.clock run.memory)).cutoff)) run.memory)
        with ⟨failure | r, memory⟩
      · exact .unprocessed hnext
      · dsimp only
        -- the node was processed; what is left is to conclude
        rcases hconclude : (conclude solvers n.depth r).exec ⟨t, memory⟩
          with ⟨failure | stage, after⟩
        · exact .failed hnext hconclude
        · exact .next hnext hprocess hconclude

/-- One round after the other, none of which ends the search. -/
abbrev Rounds (solvers : Solvers σ α) : Run σ α → Run σ α → Prop :=
  Relation.ReflTransGen fun run after => (round solvers).exec run = (.ok none, after)

/-- A search goes round until a round ends it or fails. -/
theorem exists_last_round (solvers : Solvers σ α) (run : Run σ α) :
    ∃ last after, Rounds solvers run last
      ∧ ((∃ status, (round solvers).exec last = (.ok (some status), after)
          ∧ search solvers run = (.ok status, after))
        ∨ ∃ failure, (round solvers).exec last = (.error failure, after)
          ∧ search solvers run = (.error failure, after)) := by
  induction hleft : run.search.settings.maxNodes - run.search.stats.processed
    using Nat.strong_induction_on generalizing run with
  | _ left ih =>
    rcases hround : (round solvers).exec run with ⟨failure | status?, after⟩
    · refine ⟨run, after, .refl, .inr ⟨failure, hround, ?_⟩⟩
      rw [search_eq, hround]
    · cases status? with
      | some status =>
        refine ⟨run, after, .refl, .inl ⟨status, hround, ?_⟩⟩
        rw [search_eq, hround]
      | none =>
        -- a round that does not end the search leaves fewer nodes to be processed
        have hlt := round_lt solvers hround
        rw [hleft] at hlt
        obtain ⟨last, final, hrounds, hends⟩ := ih _ hlt after rfl
        have hsearch : search solvers run = search solvers after := by
          rw [search_eq, hround]
        rw [← hsearch] at hends
        exact ⟨last, final, .head hround hrounds, hends⟩

/-! ## What a search has found that fails -/

/-- A round that does not end the search hands out a node, and raises neither the bound nor the
incumbent from then on, whether it fails or not. -/
theorem falls_round [Scalar.Ordered α] {answer : Except (Failure α) (Option Status)}
    (hs : run.search.brancher.frontier.Consistent)
    (h : (round solvers).exec run = (answer, after)) (hon : ∀ status, answer ≠ .ok (some status)) :
    ∃ n t, (now solvers run).next = (.ok n, t) ∧ t.Falls after.search := by
  have hnow : (now solvers run).brancher.frontier.Consistent := hs
  have hout : ∀ {n t}, (now solvers run).next = (.ok n, t) → t.brancher.frontier.Consistent := by
    intro n t hnext
    have hconsistent := Search.consistent_perform hnow .next
    rw [Search.perform, hnext] at hconsistent
    exact hconsistent
  have hrounded := exec_round solvers run
  rw [h] at hrounded
  cases hrounded with
  | ended => exact absurd rfl (hon _)
  | empty hcheck hempty =>
    -- a search that is not over has a node open
    obtain ⟨n, t, hnext⟩ := Async.exists_next hnow (Search.isEmpty_eq_false hcheck)
    cases hnext.symm.trans hempty
  | unprocessed hnext => exact ⟨_, _, hnext, .refl (hout hnext)⟩
  | @failed n t r memory failure last hnext hconclude =>
    have hfalls := falls_conclude solvers n.depth r ⟨t, memory⟩ (hout hnext)
    rw [hconclude] at hfalls
    exact ⟨n, t, hnext, hfalls⟩
  | @next n t r memory stage last hnext hprocess hconclude =>
    have hfalls := falls_conclude solvers n.depth r ⟨t, memory⟩ (hout hnext)
    rw [hconclude] at hfalls
    exact ⟨n, t, hnext, hfalls⟩

/-- A round takes back no count and keeps the settings. -/
theorem later_round (solvers : Solvers σ α) (run : Run σ α) :
    Search.Later run.search ((round solvers).exec run).2.search := by
  have hrounded := exec_round solvers run
  generalize ((round solvers).exec run).1 = answer at hrounded
  generalize ((round solvers).exec run).2 = after at hrounded ⊢
  -- to hand out a node counts none
  have hnext : ∀ {answer t}, (now solvers run).next = (answer, t) → Search.Later run.search t := by
    intro answer t hnext
    have hlater := Search.later_next (now solvers run)
    rw [hnext] at hlater
    exact hlater
  cases hrounded with
  | ended => exact .refl _
  | empty _ hempty => exact hnext hempty
  | unprocessed hout => exact hnext hout
  | @failed n t r memory failure last hout hconclude =>
    have hcounted := (counts_conclude solvers n.depth r ⟨t, memory⟩).later
    rw [hconclude] at hcounted
    exact (hnext hout).trans hcounted
  | @next n t r memory stage last hout hprocess hconclude =>
    have hcounted := (counts_conclude solvers n.depth r ⟨t, memory⟩).later
    rw [hconclude] at hcounted
    exact (hnext hout).trans hcounted

/-- Neither do rounds take back a count. -/
theorem later_rounds (h : Rounds solvers run last) :
    run.search.stats.processed ≤ last.search.stats.processed := by
  induction h with
  | refl => exact Nat.le_refl _
  | @tail mid after _ hround ih =>
    have hlater := (later_round solvers mid).1
    rw [hround] at hlater
    exact ih.trans hlater

/-- Rounds keep the frontier consistent and the incumbent defined. -/
theorem consistent_rounds [Scalar.Ordered α] (h : Rounds solvers run last)
    (hs : run.search.brancher.frontier.Consistent)
    (hdef : Scalar.isNaN run.search.incumbent.value = false) :
    last.search.brancher.frontier.Consistent
      ∧ Scalar.isNaN last.search.incumbent.value = false := by
  induction h with
  | refl => exact ⟨hs, hdef⟩
  | tail _ hround ih =>
    obtain ⟨n, t, hnext, hfalls⟩ := falls_round ih.1 hround nofun
    have hbefore : t.incumbent.value ≤ t.incumbent.value := by
      rw [(Search.next_frame hnext).2.1]
      exact Scalar.Ordered.le_refl ih.2
    exact ⟨hfalls.consistent, Scalar.Ordered.isNaN_left_of_le (hfalls.incumbent hbefore)⟩

/-! ## What a search has found that fails -/

/-- A search that failed did so in its last round. -/
theorem outcome_failed {solution : Solution α} {left : σ}
    (h : outcome solvers run = (.ok solution, left)) (hfailed : solution.status = .failed) :
    ∃ last after e, Rounds solvers run last
      ∧ (round solvers).exec last = (.error (.error e), after)
      ∧ solution = after.search.solution .failed .complete (some e.message) := by
  unfold outcome at h
  obtain ⟨last, after, hrounds, ⟨status, hround, hsearch⟩ | ⟨failure, hround, hsearch⟩⟩ :=
    exists_last_round solvers run
  · -- a round that ends a search does so with another status
    rw [hsearch] at h
    cases h
    have hrounded := exec_round solvers last
    rw [hround] at hrounded
    cases hrounded with
    | ended hcheck =>
      have hstatus : status = .failed := hfailed
      rw [hstatus] at hcheck
      exact absurd hcheck (Search.check_ne_failed _ _)
  · rw [hsearch] at h
    cases failure with
    | crash => cases h
    | error e =>
      cases h
      exact ⟨last, after, e, hrounds, hround, rfl⟩

/-- The bound that a failed search answers leaves out the node that was handed out in its last
round: with the score of this node, it is at most what it was before. -/
theorem solve_failed [Scalar.Ordered α] {vars : List (Variable α)} {settings : Settings α}
    {memory left : σ} {solution : Solution α}
    (h : solve solvers vars settings memory = (.ok solution, left))
    (hfailed : solution.status = .failed) :
    ∃ start last after n e, Search.new vars settings = .ok start
      ∧ Rounds solvers ⟨start, memory⟩ last ∧ (now solvers last).next.1 = .ok n
      ∧ (round solvers).exec last = (.error (.error e), after)
      ∧ solution = after.search.solution .failed .complete (some e.message)
      ∧ (∀ y, last.search.provenBound none ≤ y → after.search.provenBound (some n.score) ≤ y)
      ∧ ∀ y, last.search.incumbent.value ≤ y → after.search.incumbent.value ≤ y := by
  rw [solve_eq] at h
  cases hnew : Search.new vars settings with
  | error e =>
    rw [hnew] at h
    cases h
  | ok start =>
    rw [hnew] at h
    obtain ⟨last, after, e, hrounds, hround, rfl⟩ := outcome_failed h hfailed
    -- the incumbent at the start is infinite, hence defined
    have hdef : Scalar.isNaN start.incumbent.value = false := by
      rw [(Search.new_frame hnew).1]
      exact Scalar.Ordered.isNaN_infinity
    obtain ⟨hs, -⟩ := consistent_rounds hrounds (Search.Reachable.new hnew).consistent hdef
    obtain ⟨n, t, hnext, hfalls⟩ := falls_round hs hround nofun
    refine ⟨start, last, after, n, e, rfl, hrounds, congrArg Prod.fst hnext, hround, rfl,
      fun y hy => ?_, fun y hy => ?_⟩
    · have hnow : (now solvers last).brancher.frontier.Consistent := hs
      have hbefore : (now solvers last).provenBound none ≤ y := hy
      -- nothing in the round raises the bound once the node is handed out
      exact hfalls.lowers _ _ (Search.lowers_next hnow hnext hbefore)
    · refine hfalls.incumbent ?_
      rw [(Search.next_frame hnext).2.1]
      exact hy

section Exact

variable [Scalar.Exact α] {p : Problem α}

omit [Scalar.Exact α] in
/-- The clock does not matter. -/
theorem lossless_now (h : Async.Lossless p ⟨run.search, []⟩) :
    Async.Lossless p ⟨now solvers run, []⟩ :=
  ⟨h.consistent, h.names, h.nextId_le, h.fits, fun x hx => (h.covers x hx).imp_left
    fun hcovers => hcovers.of_eq rfl rfl rfl⟩

/-- A round without strong branching loses no point, as long as the ids do not run out. -/
theorem lossless_round (h : Async.Lossless p ⟨run.search, []⟩) (hsound : solvers.Sound p)
    (hstrong : run.search.settings.strongDepth = 0)
    (hdef : Scalar.isNaN run.search.incumbent.value = false)
    (hround : (round solvers).exec run = (.ok none, after))
    (hids : 2 * after.search.stats.processed + 1 < wordRange) :
    Async.Lossless p ⟨after.search, []⟩ := by
  have hrounded := exec_round solvers run
  rw [hround] at hrounded
  cases hrounded with
  | @next n t r memory stage last hnext hprocess hconclude =>
    obtain ⟨-, hincumbent, hsettings, -⟩ := Search.next_frame hnext
    have hdepth : t.settings.strongDepth = 0 := by
      rw [hsettings]
      exact hstrong
    -- the search takes in the report as it would if the node had been out for long
    rw [exec_conclude (hdepth.trans_le (Nat.zero_le _))] at hconclude
    rcases happly : t.apply r with ⟨e | answer, u⟩ <;> rw [happly] at hconclude
    · cases hconclude
    · cases hconclude
      have hout := (lossless_now h).next hnext
      refine hout.report hsound (show [n] = [] ++ n :: [] from rfl) hprocess ?_ happly hids
      rw [hincumbent]
      exact Scalar.Ordered.le_refl hdef

/-- Rounds without strong branching lose no point, as long as the ids do not run out. -/
theorem lossless_rounds (h : Rounds solvers run last) (hrun : Async.Lossless p ⟨run.search, []⟩)
    (hsound : solvers.Sound p) (hstrong : run.search.settings.strongDepth = 0)
    (hdef : Scalar.isNaN run.search.incumbent.value = false)
    (hids : 2 * last.search.stats.processed + 1 < wordRange) :
    Async.Lossless p ⟨last.search, []⟩ := by
  induction h using Relation.ReflTransGen.head_induction_on with
  | refl => exact hrun
  | @head run mid hround hrest ih =>
    obtain ⟨hprocessed, hsettings⟩ := later_round solvers run
    rw [hround] at hprocessed hsettings
    have hmid : 2 * mid.search.stats.processed + 1 < wordRange := by
      have hle := later_rounds hrest
      omega
    have hconsistent := consistent_rounds (.single hround) hrun.consistent hdef
    refine ih (lossless_round hrun hsound hstrong hdef hround hmid) ?_ hconsistent.2
    rw [hsettings]
    exact hstrong

/-- The bound of a search that failed is a bound on every feasible point together with the score of
one node, the one that was handed out in its last round. -/
theorem failed_bound_le_value {vars : List (Variable α)} {settings : Settings α} {start : Search α}
    {memory left : σ} {solution : Solution α} (hnew : Search.new vars settings = .ok start)
    (hfits : p.Fits start.brancher.vars) (hsound : solvers.Sound p)
    (hstrong : settings.strongDepth = 0)
    (h : solve solvers vars settings memory = (.ok solution, left))
    (hfailed : solution.status = .failed)
    (hids : 2 * solution.stats.processed + 1 < wordRange) :
    ∃ last n e, Rounds solvers ⟨start, memory⟩ last ∧ (now solvers last).next.1 = .ok n
      ∧ ((round solvers).exec last).1 = .error (.error e)
      ∧ ∀ x ∈ p.points, Scalar.least solution.lowerBound n.score ≤ p.value x := by
  obtain ⟨_, last, after, n, e, hstart, hrounds, hnext, hround, rfl, hbound, hincumbent⟩ :=
    solve_failed h hfailed
  cases hnew.symm.trans hstart
  have hlater := (later_round solvers last).1
  rw [hround] at hlater
  change last.search.stats.processed ≤ after.search.stats.processed at hlater
  change 2 * after.search.stats.processed + 1 < wordRange at hids
  have hlossless := lossless_rounds hrounds (Async.lossless_start hnew hfits) hsound
    (by rw [(Search.new_frame hnew).2.2]; exact hstrong)
    (by rw [(Search.new_frame hnew).1]; exact Scalar.Ordered.isNaN_infinity)
    (by omega)
  -- before the last round every point is accounted for, and the round loses one node at most
  refine ⟨last, n, e, hrounds, hnext, by rw [hround], fun x hx => ?_⟩
  obtain hcovers | ⟨_, hnone, -⟩ := hlossless.covers x hx
  · show Scalar.least (Scalar.least (after.search.provenBound none) after.search.incumbent.value) _
      ≤ _
    rw [Scalar.least_le_iff, Scalar.least_le_iff]
    rcases Scalar.least_le_iff.mp (hcovers.bound_le none) with hle | hle
    · rcases Search.provenBound_some_le_iff.mp (hbound _ hle) with hrest | hscore
      · exact .inl (.inl hrest)
      · exact .inr hscore
    · exact .inl (.inr (hincumbent _ hle))
  · cases hnone

end Exact

/-- Solvers that fail to bound any node. -/
def brokenSolvers : Solvers Unit (Extended ℚ) where
  lower _ _ := throw (.error (.solverFailed (.described "no bound")))
  upper _ _ incumbent := pure (.ofPoint 1 [1] incumbent)

/-- The node of the last round cannot be left out: nothing is known of the problem when its root
cannot be bounded, and yet the bound is infinity and no gap is left. -/
theorem failed_brokenSolvers :
    ∃ solution ∈ (solve brokenSolvers Async.sampleVars Settings.standard ()).1.toOption,
      solution.status = .failed ∧ solution.lowerBound = Scalar.infinity ∧ solution.gap = 0 := by
  decide +kernel

end Serial

end BranchBound
