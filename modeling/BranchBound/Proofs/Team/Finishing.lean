import BranchBound.Proofs.Team.Progress
import BranchBound.Proofs.Team.SoloRuns

/-! # Every search ends

A team comes to its end under every fair schedule, and by then it has processed no more nodes than
its settings allow, but for those that were out already.

* **`Team.FairToAll`** — the schedules under which everyone gets a turn again and again.
* **`Team.Stalled`**, **`Team.FairToAll.not_stalled`** — what a search that goes on for ever comes
  to, and that none does.
* **`Team.Live.exists_over`**, **`Team.Live.exists_solution`** — under such a schedule the search is
  over at some time, and there is an outcome.
* **`Team.fairToAll_rounds`** — going round the team is fair.
* **`Team.processed_le_allowance`** — however a search runs, it stays within the allowance, and
  under a fair schedule it comes to its end. -/

namespace BranchBound.Team

variable {σ α : Type} [Scalar α] {solvers : Nat → Solvers σ α} {t : Team σ α} {i : Nat}
  {settings : Settings α} {schedule : Nat → Event}

/-! ## Fair schedules -/

/-- The team after the first events of a schedule. -/
def after (solvers : Nat → Solvers σ α) (schedule : Nat → Event) (t : Team σ α) (n : Nat) :
    Team σ α :=
  t.run solvers (upTo schedule n)

/-- One event after the other happens. -/
theorem after_succ (solvers : Nat → Solvers σ α) (schedule : Nat → Event) (t : Team σ α) (n : Nat) :
    t.after solvers schedule (n + 1)
      = (t.after solvers schedule n).step solvers (schedule n) := by
  rw [after, upTo, List.range_succ, List.map_append, run_append]
  rfl

omit [Scalar α] in
/-- The manager waits, and there is news to read. -/
def Ripe (t : Team σ α) : Prop := t.phase = .waiting ∧ ∃ i, (t.news? i).isSome = true

/-- Everyone gets a turn again and again: the manager looks at the search, every worker handles
orders, and the time for late results is over at some time. The clock may wake a manager while there
is news to read, but not for ever: if it waits again and again while there is some, it reads
some. -/
structure FairToAll (solvers : Nat → Solvers σ α) (t : Team σ α) (schedule : Nat → Event) :
    Prop where
  /-- The manager looks at the search again and again. -/
  decide : ∀ n, ∃ m, n ≤ m ∧ schedule m = .decide
  /-- Every worker handles orders again and again. -/
  work : ∀ i < t.seats.length, ∀ n, ∃ m, n ≤ m ∧ schedule m = .work i
  /-- The time for late results is over at some time. -/
  deadline : ∀ n, ∃ m, n ≤ m ∧ schedule m = .deadline
  /-- A manager that waits again and again while there is news to read reads some. -/
  receive : ∀ n, (∀ k, n ≤ k → ∃ m, k ≤ m ∧ (t.after solvers schedule m).Ripe) →
    ∃ m i, n ≤ m ∧ schedule m = .receive i ∧ (t.after solvers schedule m).phase = .waiting
      ∧ ((t.after solvers schedule m).news? i).isSome = true

/-! ## A search does not stall -/

/-- From some time on the search goes on, and no event brings its end closer. -/
structure Stalled (solvers : Nat → Solvers σ α) (schedule : Nat → Event) (t : Team σ α) (n : Nat) :
    Prop where
  /-- The search goes on. -/
  searching : ∀ m, n ≤ m → (t.after solvers schedule m).Searching
  /-- No seat changes. -/
  seats : ∀ m, n ≤ m → (t.after solvers schedule m).seats = (t.after solvers schedule n).seats
  /-- No event brings the end closer. -/
  still : ∀ m, n ≤ m →
    (t.after solvers schedule m).Still (schedule m) (t.after solvers schedule (m + 1))

/-- At some time the search is over, or its end is closer, or else it stalls. -/
theorem Live.closer_or_stalled (h : t.Live settings) (solvers : Nat → Solvers σ α)
    (schedule : Nat → Event) (n : Nat) :
    (∃ m, n ≤ m ∧ (¬ (t.after solvers schedule m).Searching
        ∨ (t.after solvers schedule m).toGo settings < (t.after solvers schedule n).toGo settings))
      ∨ t.Stalled solvers schedule n := by
  by_contra! hneither
  obtain ⟨hgoing, hmoves⟩ := hneither
  have hlive : ∀ m, (t.after solvers schedule m).Live settings := fun m => h.run _
  -- as long as seats and counts are what they were, the next event leaves them so
  have hstill : ∀ m, n ≤ m →
      (t.after solvers schedule m).toGo settings = (t.after solvers schedule n).toGo settings →
      (t.after solvers schedule m).Still (schedule m) (t.after solvers schedule (m + 1)) := by
    intro m hm hsame
    have hturn := (hlive m).turn solvers (hgoing m hm).1 (schedule m)
    rw [← after_succ] at hturn
    cases hturn with
    | ended hover => exact absurd (hgoing (m + 1) (by omega)).1 hover
    | closer hlt => exact absurd (hsame ▸ hlt) (hgoing (m + 1) (by omega)).2.not_gt
    | still hstill => exact hstill
  have hsame : ∀ m, n ≤ m →
      (t.after solvers schedule m).seats = (t.after solvers schedule n).seats
        ∧ (t.after solvers schedule m).spent = (t.after solvers schedule n).spent := by
    intro m hm
    induction m, hm using Nat.le_induction with
    | base => exact ⟨rfl, rfl⟩
    | succ m hm hbefore =>
      have hone := hstill m hm (toGo_congr hbefore.1 hbefore.2)
      exact ⟨hone.seats.trans hbefore.1, hone.spent.trans hbefore.2⟩
  exact hmoves ⟨fun m hm => (hgoing m hm).1, fun m hm => (hsame m hm).1,
    fun m hm => hstill m hm (toGo_congr (hsame m hm).1 (hsame m hm).2)⟩

variable {n : Nat}

/-- There is news of every worker that a stalled search waits for: otherwise the worker had an order
to read, and got a turn. -/
theorem Stalled.news (hstalled : t.Stalled solvers schedule n) (h : t.Live settings)
    (hfair : FairToAll solvers t schedule) {seat : Seat α}
    (hseat : (t.after solvers schedule n).seats[i]? = some seat) (hout : seat.out.isSome = true) :
    seat.replies ≠ [] ∨ seat.worker = none := by
  by_contra! hsilent
  have hlive : (t.after solvers schedule n).Live settings := h.run _
  have hworker := Option.isSome_iff_ne_none.mpr hsilent.2
  have hunread :=
    hlive.attended (hstalled.searching n le_rfl) i seat hseat hout hsilent.1 hworker
  have hi : i < t.seats.length := by
    rw [h.books.workers, ← hlive.books.workers]
    exact (List.getElem?_eq_some_iff.mp hseat).1
  obtain ⟨m, hm, hwork⟩ := hfair.work i hi n
  have horders :=
    (hstalled.still m hm).work i seat hwork ((hstalled.seats m hm).symm ▸ hseat) hworker
  rw [Seat.unread, horders] at hunread
  exact hunread rfl

/-- The manager of a stalled search waits again and again while there is news to read. -/
theorem Stalled.ripe (hstalled : t.Stalled solvers schedule n) (h : t.Live settings)
    (hfair : FairToAll solvers t schedule) {k : Nat} (hk : n ≤ k) :
    ∃ m, k ≤ m ∧ (t.after solvers schedule m).Ripe := by
  obtain ⟨m, hm, hdecide⟩ := hfair.decide k
  have hwaits := (hstalled.still m (hk.trans hm)).decide hdecide
  have hlive : (t.after solvers schedule (m + 1)).Live settings := h.run _
  -- it waits for a node that is out, and there is news of the worker that is on it
  obtain ⟨node, hnode⟩ := List.exists_mem_of_ne_nil _ (hlive.waits hwaits)
  obtain ⟨i, seat, a, hseat, hout, -⟩ := mem_outNodes.mp hnode
  have hbusy : seat.out.isSome = true := by rw [hout]; rfl
  have hbefore := hstalled.seats (m + 1) (by omega) ▸ hseat
  exact ⟨m + 1, by omega, hwaits, i,
    isSome_news?.mpr ⟨seat, hseat, hbusy, hstalled.news h hfair hbefore hbusy⟩⟩

/-- No search stalls under a fair schedule. -/
theorem FairToAll.not_stalled (hfair : FairToAll solvers t schedule) (h : t.Live settings) :
    ¬ t.Stalled solvers schedule n := by
  intro hstalled
  obtain ⟨m, i, hm, hreceive, hwaits, hnews⟩ :=
    hfair.receive n fun k hk => hstalled.ripe h hfair hk
  rw [(hstalled.still m hm).receive i hreceive hwaits] at hnews
  cases hnews

/-- Under a fair schedule the search is over at some time. -/
theorem Live.exists_over (h : t.Live settings) (hfair : FairToAll solvers t schedule) (n : Nat) :
    ∃ m, n ≤ m ∧ ¬ (t.after solvers schedule m).Searching := by
  induction hrank : (t.after solvers schedule n).toGo settings using WellFoundedLT.induction
    generalizing n with
  | ind rank ih =>
    subst hrank
    rcases h.closer_or_stalled solvers schedule n with ⟨m, hm, hover | hlt⟩ | hstalled
    · exact ⟨m, hm, hover⟩
    · obtain ⟨k, hk, hover⟩ := ih _ hlt m rfl
      exact ⟨k, hm.trans hk, hover⟩
    · exact absurd hstalled (hfair.not_stalled h)

/-- A search that has ended has an outcome. -/
theorem exists_solution_of_ended {result : Except (Error α) Status} {termination : Termination}
    (h : t.phase = .ended result termination) : ∃ solution, t.solution? = some solution := by
  unfold solution?
  rw [h]
  cases result with
  | ok status => exact ⟨_, rfl⟩
  | error e => exact ⟨_, rfl⟩

/-- An outcome has the counters of the search. -/
theorem processed_of_solution {solution : Solution α} (h : t.solution? = some solution) :
    solution.stats.processed = t.search.stats.processed := by
  unfold solution? at h
  split at h
  · cases h
    rfl
  · cases h
    rfl
  · cases h

/-- When the time for late results is over, a search that was over has an outcome. -/
theorem exists_solution_of_deadline (hover : ¬ t.Searching) :
    ∃ solution, (t.step solvers .deadline).solution? = some solution := by
  unfold step
  cases hphase : t.phase with
  | deciding => exact absurd (searching_iff.mpr (.inl hphase)) hover
  | waiting => exact absurd (searching_iff.mpr (.inr hphase)) hover
  | draining status => exact exists_solution_of_ended rfl
  | ended => exact exists_solution_of_ended hphase

/-- Under a fair schedule there is an outcome at some time. -/
theorem Live.exists_solution (h : t.Live settings) (hfair : FairToAll solvers t schedule) :
    ∃ n solution, (t.after solvers schedule n).solution? = some solution := by
  obtain ⟨n, -, hover⟩ := h.exists_over hfair 0
  have hstays : ∀ m, n ≤ m → ¬ (t.after solvers schedule m).Searching := by
    intro m hm
    induction m, hm using Nat.le_induction with
    | base => exact hover
    | succ m _ ih =>
      rw [after_succ]
      exact fun hsearching => ih (searching_of_step hsearching)
  obtain ⟨m, hm, hdeadline⟩ := hfair.deadline n
  obtain ⟨solution, hsolution⟩ := exists_solution_of_deadline (hstays m hm)
  exact ⟨m + 1, solution, by rw [after_succ, hdeadline]; exact hsolution⟩

/-! ## Rounds -/

/-- News stay there while workers handle orders. -/
theorem isSome_news?_work (h : (t.news? i).isSome = true) (j : Nat) :
    ((t.work solvers j).news? i).isSome = true := by
  obtain ⟨seat, hseat, hout, hnews⟩ := isSome_news?.mp h
  rcases work_cases solvers j t
    with heq | ⟨old, w, order, rest, reaction, v, memory, hold, hw, -, -, heq⟩
  · rw [heq]
    exact h
  · rw [heq, isSome_news?]
    by_cases hij : j = i
    · subst hij
      cases hseat.symm.trans hold
      refine ⟨_, getElem?_modifySeat_self hseat, (seat.out_served rest v reaction).symm ▸ hout, ?_⟩
      -- it is not gone, so it has answered, and does not take back what it has answered
      have hreplies : seat.replies ≠ [] := hnews.resolve_right (by rw [hw]; exact nofun)
      cases reaction with
      | answer reply => exact .inl (List.append_ne_nil_of_left_ne_nil hreplies _)
      | note => exact .inl hreplies
      | stopped | crashed => exact .inr rfl
    · exact ⟨seat, (getElem?_modifySeat_ne hij).trans hseat, hout, hnews⟩

/-- While the manager waits and there is news of a worker, some news is read, or nothing of this
changes. -/
theorem news?_step (solvers : Nat → Solvers σ α) (hwaits : t.phase = .waiting)
    (hnews : (t.news? i).isSome = true) {event : Event} (htick : event ≠ .tick) :
    (∃ j, event = .receive j ∧ (t.news? j).isSome = true)
      ∨ (t.step solvers event).phase = .waiting
        ∧ ((t.step solvers event).news? i).isSome = true := by
  -- news that are not read stay news, since a worker only appends to its replies
  cases event with
  | work j => exact .inr ⟨(work_frame solvers t j).2.1.trans hwaits, isSome_news?_work hnews j⟩
  | tick => exact absurd rfl htick
  | receive j =>
    cases hread : t.news? j with
    | some read => exact .inl ⟨j, rfl, by rw [hread]; rfl⟩
    | none =>
      right
      rw [step_receive, hwaits, hread]
      exact ⟨hwaits, hnews⟩
  | decide | deadline =>
    right
    rw [step_waiting solvers hwaits]
    exact ⟨hwaits, hnews⟩

/-- A schedule is fair under which everyone gets a turn again and again and the clock wakes the
manager only while there is no news to read. -/
theorem FairToAll.of_busy (h : t.Thrifty settings)
    (hdecide : ∀ n, ∃ m, n ≤ m ∧ schedule m = .decide)
    (hwork : ∀ i < t.seats.length, ∀ n, ∃ m, n ≤ m ∧ schedule m = .work i)
    (hreceive : ∀ i < t.seats.length, ∀ n, ∃ m, n ≤ m ∧ schedule m = .receive i)
    (hdeadline : ∀ n, ∃ m, n ≤ m ∧ schedule m = .deadline)
    (hbusy : ∀ n, schedule n = .tick → ∀ i, (t.after solvers schedule n).news? i = none) :
    FairToAll solvers t schedule := by
  refine ⟨hdecide, hwork, hdeadline, fun n hripe => ?_⟩
  obtain ⟨k, hk, hwaits, i, hnews⟩ := hripe n le_rfl
  have hi : i < t.seats.length := by
    obtain ⟨seat, hseat, -, -⟩ := isSome_news?.mp hnews
    have hbooks : (t.after solvers schedule k).Thrifty settings := h.run _
    rw [h.workers, ← hbooks.workers]
    exact (List.getElem?_eq_some_iff.mp hseat).1
  obtain ⟨m, hm, hdue⟩ := hreceive i hi k
  by_contra! hnever
  -- the news stay there until it is their turn
  have hstays : ∀ l, k ≤ l → (t.after solvers schedule l).phase = .waiting
      ∧ ((t.after solvers schedule l).news? i).isSome = true := by
    intro l hl
    induction l, hl using Nat.le_induction with
    | base => exact ⟨hwaits, hnews⟩
    | succ l hl ih =>
      have htick : schedule l ≠ .tick := by
        intro htick
        rw [hbusy l htick i] at ih
        cases ih.2
      rw [after_succ]
      rcases news?_step solvers ih.1 ih.2 htick with ⟨j, hj, hread⟩ | hstill
      · exact absurd hread (hnever l j (hk.trans hl) hj ih.1)
      · exact hstill
  exact hnever m i (hk.trans hm) hdue (hstays m hm).1 (hstays m hm).2

/-- Round after round, the manager looks at the search, every worker handles an order, the manager
reads the news of every worker, and the time for late results is over. -/
def rounds (workers n : Nat) : Event :=
  let turn := n % (2 * workers + 2)
  if turn = 0 then .decide
  else if turn ≤ workers then .work (turn - 1)
  else if turn ≤ 2 * workers then .receive (turn - workers - 1)
  else .deadline

/-- Everyone gets a turn in every round. -/
theorem exists_turn (workers turn n : Nat) :
    ∃ m, n ≤ m ∧ rounds workers m = rounds workers turn := by
  refine ⟨(2 * workers + 2) * n + turn, ?_, ?_⟩
  · have hle := Nat.le_mul_of_pos_left n (show 0 < 2 * workers + 2 by omega)
    omega
  · unfold rounds
    rw [Nat.mul_add_mod]

/-- Going round a team is fair. -/
theorem fairToAll_rounds (solvers : Nat → Solvers σ α) (h : t.Thrifty settings) :
    FairToAll solvers t (rounds t.seats.length) := by
  generalize hworkers : t.seats.length = workers
  -- every event has a slot of its own in each round
  refine FairToAll.of_busy h (fun n => ?_) (fun i hi n => ?_) (fun i hi n => ?_) (fun n => ?_)
    fun n htick => ?_
  · exact exists_turn workers 0 n
  · obtain ⟨m, hm, heq⟩ := exists_turn workers (i + 1) n
    refine ⟨m, hm, heq.trans ?_⟩
    unfold rounds
    rw [Nat.mod_eq_of_lt (by omega), if_neg (by omega), if_pos (by omega)]
    rfl
  · obtain ⟨m, hm, heq⟩ := exists_turn workers (workers + i + 1) n
    refine ⟨m, hm, heq.trans ?_⟩
    unfold rounds
    rw [Nat.mod_eq_of_lt (by omega), if_neg (by omega), if_neg (by omega), if_pos (by omega)]
    congr 1
    omega
  · obtain ⟨m, hm, heq⟩ := exists_turn workers (2 * workers + 1) n
    refine ⟨m, hm, heq.trans ?_⟩
    unfold rounds
    rw [Nat.mod_eq_of_lt (by omega), if_neg (by omega), if_neg (by omega), if_neg (by omega)]
  · unfold rounds at htick
    dsimp only at htick
    split_ifs at htick

/-! ## The allowance -/

/-- However the workers of a team reply and the clock ticks, no more nodes are dispatched and
processed than the allowance: none if no node is allowed, and otherwise the nodes that are allowed
and one more for every worker but one. Whatever has happened before, under a fair schedule the
search comes to its end. -/
theorem processed_le_allowance (solvers : Nat → Solvers σ α) {vars : List (Variable α)}
    {settings : Settings α} {memory : σ} {start : Team σ α}
    (hstart : Team.start vars settings memory = .ok start) (events : List Event) :
    let t := start.run solvers events
    t.dispatched.length ≤ settings.allowance
      ∧ (∀ solution, t.solution? = some solution →
        solution.stats.processed ≤ settings.allowance)
      ∧ ∀ schedule, FairToAll solvers t schedule → ∃ n solution,
        (t.after solvers schedule n).solution? = some solution
          ∧ solution.stats.processed ≤ settings.allowance := by
  intro t
  have hlive : t.Live settings := (live_start hstart).run events
  -- what is processed was charged, and what is charged was dispatched
  have hbound : ∀ u : Team σ α, u.Thrifty settings → ∀ solution, u.solution? = some solution →
      solution.stats.processed ≤ settings.allowance := by
    intro u hbooks solution hsolution
    rw [processed_of_solution hsolution]
    exact (Nat.le_add_right _ _).trans (hbooks.charged_le.trans hbooks.dispatched_le)
  refine ⟨hlive.books.dispatched_le, hbound t hlive.books, fun schedule hfair => ?_⟩
  obtain ⟨n, solution, hsolution⟩ := hlive.exists_solution hfair
  exact ⟨n, solution, hsolution, hbound _ (hlive.run _).books solution hsolution⟩

/-- Settings under which two workers may process two nodes. -/
def scantSettings : Settings (Extended ℚ) :=
  { Settings.standard with workers := 2, maxNodes := 2 }

/-- The root is processed, and both of its children go out before one of them comes in and the limit
is reached. The other one comes in late. -/
def lateEvents : List Event :=
  [.decide, .work 0, .receive 0, .decide, .work 0, .work 0, .receive 0, .decide, .work 1, .work 1,
    .receive 1]

/-- Everything that the settings allow is dispatched and processed. -/
theorem exists_lateEvents :
    ∃ start ∈ (Team.start Async.sampleVars scantSettings ()).toOption,
      let t := start.run (fun _ => Async.sampleSolvers) lateEvents
      t.dispatched.length = 3 ∧ ∃ solution ∈ t.solution?, solution.status = .nodeLimit
        ∧ solution.stats.processed = 3 := by
  decide +kernel

/-- The allowance is used up by two workers that may process two nodes, and no more than that is
ever dispatched or processed by them, also if the rest of the search goes round the team. -/
theorem processed_le_allowance_lateEvents :
    ∃ start, Team.start Async.sampleVars scantSettings () = .ok start
      ∧ (start.run (fun _ => Async.sampleSolvers) lateEvents).dispatched.length
        = scantSettings.allowance
      ∧ (∃ solution, (start.run (fun _ => Async.sampleSolvers) lateEvents).solution? = some solution
        ∧ solution.stats.processed = 3 ∧ solution.stats.processed ≤ scantSettings.allowance)
      ∧ ∃ n solution, ((start.run (fun _ => Async.sampleSolvers) (lateEvents.take 4)).after
          (fun _ => Async.sampleSolvers) (rounds 2) n).solution? = some solution
        ∧ solution.stats.processed ≤ scantSettings.allowance := by
  obtain ⟨start, hstart, hdispatched, solution, hsolution, -, hprocessed⟩ :=
    exists_eq_ok exists_lateEvents
  obtain ⟨-, hle, -⟩ := processed_le_allowance (fun _ => Async.sampleSolvers) hstart lateEvents
  obtain ⟨-, -, hends⟩ :=
    processed_le_allowance (fun _ => Async.sampleSolvers) hstart (lateEvents.take 4)
  have hbooks : (start.run (fun _ => Async.sampleSolvers) (lateEvents.take 4)).Thrifty
      scantSettings := (thrifty_start hstart).run _
  -- the schedule that goes round the team is fair to it
  have hfair := fairToAll_rounds (fun _ => Async.sampleSolvers) hbooks
  rw [hbooks.workers] at hfair
  exact ⟨start, hstart, hdispatched, ⟨solution, hsolution, hprocessed, hle solution hsolution⟩,
    hends _ hfair⟩

end BranchBound.Team
