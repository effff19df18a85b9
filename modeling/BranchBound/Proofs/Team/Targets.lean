import BranchBound.Proofs.Search.Targets
import BranchBound.Proofs.Team.Cutoffs
import BranchBound.Proofs.Team.Draining

/-! # Targets of a team

In a distributed search the manager finds that the incumbent has reached its target, but the search
ends only later, when the late results are in. By then the incumbent is at least as good, and it has
a point, because workers send no point that is empty. So the answer is as good as the target in
every run, and as in one place it has a point unless the target is infinite.

* **`Team.incumbent_step`** — an event leaves the incumbent as it is, or offers it the point of a
  reply.
* **`Phase.status?`**, **`Team.status_step`** — the status with which a search is over comes from
  the manager's look at it.
* **`Team.Reached`** — the invariant.
* **`Team.value_le_target`** — what a team answers that ends with its incumbent at the target. -/

namespace BranchBound

variable {σ α : Type}

/-- The status with which a search is over. -/
def Phase.status? : Phase α → Option Status
  | .draining status | .ended (.ok status) _ => some status
  | .deciding | .waiting | .ended (.error _) _ => none

variable [Scalar α]

/-- The point of a report that a worker answers with is not empty. -/
theorem Worker.handle_pointed {solvers : Solvers σ α} {w v : Worker α} {order : Order α}
    {reply : Reply α} {memory after : σ}
    (h : w.handle solvers order memory = (.answer reply, v, after)) :
    ∀ c ∈ reply.candidate?, c.point ≠ [] := by
  unfold handle at h
  split at h
  · next node =>
    split at h
    · next hprocess =>
      cases h
      exact processNode_pointed hprocess
    · cases h
      exact nofun
    · cases h
  · cases h
  · cases h

/-- The points on their way to the manager are not empty. -/
def Seat.Pointed (seat : Seat α) : Prop := ∀ c ∈ seat.finds, c.point ≠ []

/-- Handling an order sends no empty point. -/
theorem Seat.Pointed.served {seat : Seat α} (h : seat.Pointed) {solvers : Solvers σ α}
    {w v : Worker α} {order : Order α} {rest : List (Order α)} {reaction : Reaction α}
    {memory after : σ} (hhandle : w.handle solvers order memory = (reaction, v, after)) :
    (seat.served rest v reaction).Pointed := by
  cases reaction with
  | answer reply =>
    intro c hc
    rw [finds_answer] at hc
    rcases List.mem_append.mp hc with hc | hc
    · exact h c hc
    · exact Worker.handle_pointed hhandle c (Option.mem_toList.mp hc)
  | note | stopped | crashed => exact h

namespace Team

variable {solvers : Nat → Solvers σ α} {t u : Team σ α} {i : Nat}

/-! ## What an event does to the incumbent -/

/-- Taking in a reply leaves the incumbent as it is, or offers it the point of the report. -/
theorem incumbent_takeIn (t : Team σ α) (i : Nat) (reply : Reply α) :
    (t.takeIn i reply).2.search.incumbent = t.search.incumbent
      ∨ ∃ r, reply = .report r
        ∧ (t.takeIn i reply).2.search.incumbent = t.search.incumbent.adopt r := by
  cases reply with
  | failed text => exact .inl rfl
  | report r =>
    rw [(takeIn_report t i r).2]
    split
    · exact .inr ⟨r, rfl, t.search.incumbent_apply r⟩
    · exact .inl rfl

/-- News that reach a searching manager do to the search what taking in the reply does. -/
theorem search_hear (t : Team σ α) (i : Nat) (reply : Reply α) :
    (t.hear i (.reply reply)).search = (t.takeIn i reply).2.search := by
  have hhearing := hearing t i (.reply reply)
  generalize t.hear i (.reply reply) = after at hhearing ⊢
  cases hhearing with
  | refused htake =>
    rw [htake]
    rfl
  | taken htake => rw [htake]

/-- An event leaves the incumbent as it is, or offers it the point of a report that a worker has
sent. -/
theorem incumbent_step (solvers : Nat → Solvers σ α) (t : Team σ α) (event : Event) :
    (t.step solvers event).search.incumbent = t.search.incumbent
      ∨ ∃ (i : Nat) (seat : Seat α) (r : Report α), t.seats[i]? = some seat
        ∧ Reply.report r ∈ seat.replies
        ∧ (t.step solvers event).search.incumbent = t.search.incumbent.adopt r := by
  have heffect := effect_step solvers t event
  generalize t.step solvers event = after at heffect ⊢
  -- a reply that is read was sent
  have hread : ∀ {i : Nat} {reply : Reply α} {u : Team σ α}, t.news? i = some (.reply reply, u) →
      (u.takeIn i reply).2.search.incumbent = t.search.incumbent
        ∨ ∃ (j : Nat) (seat : Seat α) (r : Report α), t.seats[j]? = some seat
          ∧ Reply.report r ∈ seat.replies
          ∧ (u.takeIn i reply).2.search.incumbent = t.search.incumbent.adopt r := by
    intro i reply u hnews
    have hsearch := search_news hnews
    obtain ⟨seat, hseat, -, ⟨_, rest, heq, hreplies, -⟩ | ⟨hgone, -⟩⟩ := news?_eq_some hnews
    · cases heq
      rcases incumbent_takeIn u i reply with hsame | ⟨r, rfl, hadopt⟩
      · exact .inl (hsearch ▸ hsame)
      · exact .inr ⟨i, seat, r, hseat, hreplies ▸ List.mem_cons_self, hsearch ▸ hadopt⟩
    · cases hgone
  have hrequeue : ∀ {i : Nat} {news : News α} {u : Team σ α}, t.news? i = some (news, u) →
      (u.requeue i).search.incumbent = t.search.incumbent := by
    intro i news u hnews
    have hframe := requeue_frame (P := fun _ _ => True) (t := u) (fun _ _ _ => trivial) i
      fun _ _ _ => trivial
    exact hframe.2.trans (congrArg Search.incumbent (search_news hnews))
  cases heffect with
  | nothing | tick => exact .inl rfl
  | work i => exact .inl (congrArg Search.incumbent (work_frame solvers t i).1)
  | decide =>
    exact .inl (decide_frame (P := fun _ _ => True) solvers (fun _ _ _ _ _ _ => trivial)
      (fun _ _ _ _ => trivial) fun _ _ _ => trivial).2
  | @hear i news u _ hnews =>
    cases news with
    | gone =>
      have hsearch : (u.hear i .gone).search = u.search := rfl
      exact .inl (congrArg Search.incumbent (hsearch.trans (search_news hnews)))
    | reply reply =>
      rw [search_hear]
      exact hread hnews
  | @hearLate i news u status _ hnews =>
    rw [search_finishDrain]
    cases news with
    | gone => exact .inl (hrequeue hnews)
    | reply reply =>
      cases reply with
      | failed text => exact .inl (hrequeue hnews)
      | report r => exact hread hnews
  | deadline =>
    exact .inl (foldl_requeue_frame (P := fun _ _ => True) (fun _ _ _ => trivial) _
      fun _ _ _ => trivial).2

/-! ## The status of a search that is over -/

omit [Scalar α] in
/-- Waiting for late results or not, the search is over with its status. -/
theorem status_finishDrain (t : Team σ α) (status : Status) :
    (t.finishDrain status).phase.status? = some status := by
  rcases finishDrain_cases t status with ⟨-, heq⟩ | ⟨-, heq⟩ <;> rw [heq] <;> rfl

/-- The status with which a search is over comes from the manager's look at it, and stays. -/
theorem status_step {event : Event} {status : Status}
    (h : (t.step solvers event).phase.status? = some status) :
    t.phase.status? = some status
      ∨ (t.atTime solvers).search.check (t.atTime solvers).outLowest = some status
        ∧ t.step solvers event = (t.atTime solvers).finishDrain status := by
  have heffect := effect_step solvers t event
  generalize t.step solvers event = after at heffect h ⊢
  cases heffect with
  | nothing => exact .inl h
  | work i =>
    rw [(work_frame solvers t i).2.1] at h
    exact .inl h
  -- a look that finds no status leaves the team without one
  | decide =>
    rcases decide_cases solvers t with ⟨found, hcheck, heq⟩ | ⟨-, ⟨e, v, -, heq⟩ | ⟨v, -, heq⟩⟩
    · rw [heq, status_finishDrain] at h
      cases h
      exact .inr ⟨hcheck, heq⟩
    · rw [heq] at h
      cases h
    · rw [heq] at h
      dsimp only at h
      split at h <;> cases h
  | tick => cases h
  | @hear i news u =>
    have hhearing := hearing u i news
    generalize u.hear i news = later at hhearing h
    cases hhearing with
    | gone | refused | taken => cases h
  | @hearLate i news u found hphase =>
    rw [status_finishDrain] at h
    rw [hphase]
    exact .inl h
  | deadline hphase =>
    rw [hphase]
    exact .inl h

/-! ## The invariant -/

/-- The incumbent and the points on their way to the manager are not empty, and once the search is
over because the incumbent has reached its target, it stays there. -/
structure Reached (t : Team σ α) : Prop where
  /-- The incumbent is the best of some points. -/
  found : t.search.incumbent.Found
  /-- More points are on their way. -/
  pointed : t.Each fun _ seat => seat.Pointed
  /-- The incumbent is as good as its target. -/
  value_le : t.phase.status? = some .targetUpperReached →
    ∃ target ∈ t.search.settings.targetUpper, t.search.incumbent.value ≤ target

/-- No event sends an empty point. -/
theorem pointed_step (h : t.Each fun _ seat => seat.Pointed) (event : Event) :
    (t.step solvers event).Each fun _ seat => seat.Pointed := by
  have heffect := effect_step solvers t event
  generalize t.step solvers event = after at heffect ⊢
  by_cases hevent : ∀ i, event ≠ .work i
  · -- the manager only reads replies
    have hkept : Kept fun _ (seat : Seat α) => seat.Pointed :=
      { push := fun _ _ _ hseat => hseat
        assign := fun _ _ _ hseat => hseat
        read := fun _ seat replies hsuffix hseat c hc =>
          hseat c ((hsuffix.sublist.filterMap Reply.candidate?).subset hc) }
    exact hkept.effect heffect hevent h
  · rw [not_forall_not] at hevent
    obtain ⟨i, rfl⟩ := hevent
    cases heffect with
    | nothing => exact h
    | work => exact each_work solvers i h fun _ _ _ hhandle hpointed => hpointed.served hhandle

variable [Scalar.Ordered α]

/-- The point of a report that was sent is not empty. -/
theorem Reached.found_adopt (h : t.Reached) {seat : Seat α} {r : Report α}
    (hseat : t.seats[i]? = some seat) (hr : Reply.report r ∈ seat.replies) :
    (t.search.incumbent.adopt r).Found := by
  rw [Search.adopt_eq_offerAll]
  refine h.found.offerAll fun c hc => ?_
  exact h.pointed i seat hseat c (Seat.mem_finds.mpr ⟨r, hr, Option.mem_toList.mp hc⟩)

/-- What holds of the incumbent goes on to hold after an event. -/
theorem Reached.step (h : t.Reached) (event : Event) : (t.step solvers event).Reached := by
  have hsettings := (later_step solvers t event).2
  have hincumbent := incumbent_step solvers t event
  refine ⟨?_, pointed_step h.pointed event, fun hstatus => ?_⟩
  · rcases hincumbent with hsame | ⟨i, seat, r, hseat, hr, hadopt⟩
    · rw [hsame]
      exact h.found
    · rw [hadopt]
      exact h.found_adopt hseat hr
  · have hbefore : ∃ target ∈ t.search.settings.targetUpper,
        t.search.incumbent.value ≤ target := by
      rcases status_step hstatus with hover | ⟨hcheck, -⟩
      · exact h.value_le hover
      · have hreached := Search.warrants_of_check hcheck
        exact hreached
    obtain ⟨target, htarget, hle⟩ := hbefore
    rw [hsettings]
    refine ⟨target, htarget, ?_⟩
    -- late points do not make the incumbent worse
    rcases hincumbent with hsame | ⟨_, _, r, -, -, hadopt⟩
    · rw [hsame]
      exact hle
    · rw [hadopt]
      exact Search.adopt_le r hle

/-- Nothing is known at the start. -/
theorem reached_start {vars : List (Variable α)} {settings : Settings α} {memory : σ}
    (h : Team.start vars settings memory = .ok t) : t.Reached := by
  have hidle := each_start h
  obtain ⟨-, search, hnew, rfl⟩ := start_ok h
  refine ⟨?_, fun i seat hseat => ?_, nofun⟩
  · rw [(Search.new_frame hnew).1]
    exact Incumbent.found_none
  · rw [hidle i seat hseat]
    exact fun c hc => absurd hc List.not_mem_nil

/-- What holds of the incumbent holds in every run. -/
theorem Reached.run (h : t.Reached) (events : List Event) : (t.run solvers events).Reached :=
  run_of_step (fun _ event h => h.step event) h events

/-! ## The answer -/

/-- A team that ends because its incumbent reached its target answers a value that is at most the
target, in whatever order its workers reply. It comes with a point just in case it is below
infinity, so it does under a finite target. -/
theorem value_le_target {vars : List (Variable α)} {settings : Settings α} {memory : σ}
    {start : Team σ α} {events : List Event} {solution : Solution α} {target : α}
    (hstart : Team.start vars settings memory = .ok start)
    (hended : (start.run solvers events).solution? = some solution)
    (hstatus : solution.status = .targetUpperReached)
    (htarget : settings.targetUpper = some target) :
    solution.value ≤ target
      ∧ (solution.hasPoint = true ↔ solution.value < Scalar.infinity) := by
  have hreached : (start.run solvers events).Reached := (reached_start hstart).run events
  have hsettings : (start.run solvers events).search.settings = settings := by
    obtain ⟨-, search, hnew, rfl⟩ := start_ok hstart
    exact (later_run solvers _ events).2.trans (Search.new_frame hnew).2.2
  generalize start.run solvers events = last at hended hreached hsettings
  -- a run that failed has another status
  unfold solution? at hended
  split at hended
  · next status termination hphase =>
    cases hended
    obtain rfl : status = .targetUpperReached := hstatus
    obtain ⟨reached, hmem, hle⟩ := hreached.value_le (by rw [hphase]; rfl)
    rw [hsettings, htarget] at hmem
    cases hmem
    exact ⟨hle, Search.hasPoint_solution_iff hreached.found _ _ _⟩
  · cases hended
    cases hstatus
  · cases hended

omit [Scalar.Ordered α] in
/-- A team whose target for the incumbent is infinite ends when its manager looks at the search for
the first time. It says that its incumbent reached the target and answers no point. -/
theorem hasPoint_of_infinite_target [Scalar.Congruent α] (solvers : Nat → Solvers σ α)
    {vars : List (Variable α)} {settings : Settings α} {memory : σ} {start : Team σ α}
    (hstart : Team.start vars settings memory = .ok start)
    (htarget : settings.targetUpper = some Scalar.infinity) :
    ∃ solution, (start.step solvers .decide).solution? = some solution
      ∧ solution.status = .targetUpperReached ∧ solution.hasPoint = false
      ∧ solution.stats.processed = 0 := by
  have hidle := each_start hstart
  obtain ⟨-, search, hnew, heq⟩ := start_ok hstart
  have hsearch : start.search = search := by rw [heq]
  have hphase : start.phase = .deciding := by rw [heq]
  have hnone : (start.atTime solvers).outNodes = [] :=
    outNodes_eq_nil.mpr fun i seat hseat => by rw [hidle i seat hseat]
  -- the value at the start is infinite, so it is at the target already
  have hcheck : (start.atTime solvers).search.check (start.atTime solvers).outLowest
      = some .targetUpperReached := by
    show (start.search.atTime _).check _ = _
    rw [hsearch]
    exact Search.check_of_infinite_target hnew htarget _ _
  have hdecide : start.step solvers .decide
      = (start.atTime solvers).finishDrain .targetUpperReached := by
    rw [step_deciding solvers hphase]
    rcases decide_cases solvers start with ⟨status, hover, hdone⟩ | ⟨hgoes, -⟩
    · cases hcheck.symm.trans hover
      exact hdone
    · cases hcheck.symm.trans hgoes
  refine ⟨(search.atTime ((solvers 0).clock start.memory)).solution .targetUpperReached .complete
    none, ?_, rfl, Search.hasPoint_new hnew _ _ _ _, (Search.new_ok hnew).2.1⟩
  rw [hdecide, finishDrain, if_pos (by rw [hnone]; rfl), ← hsearch]
  rfl

end Team

end BranchBound
