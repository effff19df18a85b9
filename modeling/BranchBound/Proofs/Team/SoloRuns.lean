import BranchBound.Proofs.Team.Solo

/-! # A team of one does what the serial search does

A team with one worker makes the calls on the solvers that the serial search makes, with the same
arguments and in the same order, and finds the same solution, whatever the order of events. The
events may keep it from its end only by leaving out what is due for ever, or by letting the clock
wake the manager again and again before it reads a reply (`Team.Fair`).

* **`Team.Fair`**, **`Team.Fair.ends`** — schedules under which the search comes to its end.
* **`Team.Mirrors`** — what it means that a team does what the serial search does.
* **`Team.solo_mirrors`** — a team of one does so. -/

namespace BranchBound.Team

variable {σ α : Type} [Scalar α] [Scalar.Ordered α] {solvers : Nat → Solvers σ α}
  {final : Except (Failure α) (Solution α) × σ} {t : Team σ α} {rank : Nat} {due : Event}

/-! ## Runs that follow the serial search -/

/-- Every run leads to a team that follows the serial search. -/
theorem Follows.run (hs : (solvers 0).Reliable) (hdefined : (solvers 0).Defined)
    (h : t.Follows solvers final rank due) (events : List Event) :
    ∃ next dueNext, (t.run solvers events).Follows solvers final next dueNext := by
  induction events generalizing t rank due with
  | nil => exact ⟨rank, due, h⟩
  | cons event rest ih =>
    obtain ⟨next, dueNext, hnext, -⟩ := (h.step hs hdefined event).follows
    exact ih hnext

omit [Scalar.Ordered α] in
/-- If the search has ended, the serial search comes to the same. -/
theorem Follows.final_eq (h : t.Follows solvers final rank due) {sol : Solution α}
    (hsol : t.solution? = some sol) : final = (.ok sol, t.memory) := by
  have hover : ¬ t.Searching := by
    intro hsearching
    unfold solution? at hsol
    rcases searching_iff.mp hsearching with hphase | hphase
    · rw [hphase] at hsol
      cases hsol
    · rw [hphase] at hsol
      cases hsol
  -- of the ways to follow only the ended one gives a solution
  cases h with
  | idle hphase | looking hphase => exact absurd (searching_iff.mpr (.inl hphase)) hover
  | assigned hsearching => exact absurd hsearching hover
  | answered hphase => exact absurd (searching_iff.mpr (.inr hphase)) hover
  | ended h =>
    rw [h.solution] at hsol
    cases hsol
    exact h.final

omit [Scalar.Ordered α] in
/-- What is due is never that the clock wakes the manager. -/
theorem Follows.due_ne_tick (h : t.Follows solvers final rank due) : due ≠ .tick := by
  cases h <;> exact nofun

/-- From wherever the team is, its search can come to its end. -/
theorem Follows.exists_end (hs : (solvers 0).Reliable) (hdefined : (solvers 0).Defined)
    (h : t.Follows solvers final rank due) :
    ∃ events sol, (t.run solvers events).solution? = some sol := by
  induction rank using Nat.strong_induction_on generalizing t due with
  | _ rank ih =>
    -- what is due brings it closer to its end
    obtain ⟨next, dueNext, hnext, hnear⟩ := (h.step hs hdefined due).follows
    rcases hnear fun htick => absurd htick h.due_ne_tick with hlt | ⟨-, -, hended⟩
    · obtain ⟨events, sol, hsol⟩ := ih next hlt hnext
      exact ⟨due :: events, sol, hsol⟩
    · obtain ⟨sol, hsol⟩ := Option.isSome_iff_exists.mp (hended rfl)
      exact ⟨[], sol, hsol⟩

/-! ## Fair schedules -/

/-- The first events of a schedule. -/
def upTo (schedule : Nat → Event) (n : Nat) : List Event := (List.range n).map schedule

/-- The first event, and the first ones of those that follow. -/
theorem upTo_succ (schedule : Nat → Event) (n : Nat) :
    upTo schedule (n + 1) = schedule 0 :: upTo (fun k => schedule (k + 1)) n := by
  rw [upTo, List.range_succ_eq_map, List.map_cons, List.map_map]
  rfl

/-- The manager looks at the search, the worker handles orders and the manager reads replies again
and again, and the clock wakes the manager only while there is no reply to read. -/
structure Fair (solvers : Nat → Solvers σ α) (t : Team σ α) (schedule : Nat → Event) : Prop where
  /-- The manager looks at the search again and again. -/
  decide : ∀ n, ∃ m, n ≤ m ∧ schedule m = .decide
  /-- The worker handles orders again and again. -/
  work : ∀ n, ∃ m, n ≤ m ∧ schedule m = .work 0
  /-- The manager reads replies again and again. -/
  receive : ∀ n, ∃ m, n ≤ m ∧ schedule m = .receive 0
  /-- The clock wakes the manager while the worker is busy. -/
  busy : ∀ n, schedule n = .tick → (t.run solvers (upTo schedule n)).news? 0 = none

omit [Scalar.Ordered α] in
/-- What follows the first event of a fair schedule is fair. -/
theorem Fair.tail {schedule : Nat → Event} (h : Fair solvers t schedule) :
    Fair solvers (t.step solvers (schedule 0)) fun n => schedule (n + 1) := by
  have hlater : ∀ {event}, (∀ n, ∃ m, n ≤ m ∧ schedule m = event) →
      ∀ n, ∃ m, n ≤ m ∧ schedule (m + 1) = event := by
    intro event hagain n
    obtain ⟨m, hm, heq⟩ := hagain (n + 1)
    exact ⟨m - 1, by omega, by rw [Nat.sub_add_cancel (by omega)]; exact heq⟩
  refine ⟨hlater h.decide, hlater h.work, hlater h.receive, fun n htick => ?_⟩
  have hbusy := h.busy (n + 1) htick
  rw [upTo_succ] at hbusy
  exact hbusy

omit [Scalar.Ordered α] in
/-- What is due happens under a fair schedule, unless the search has ended. -/
theorem Fair.exists_due {schedule : Nat → Event} (hfair : Fair solvers t schedule)
    (h : t.Follows solvers final rank due) (hgoing : t.solution? = none) :
    ∃ m, schedule m = due := by
  cases h with
  | idle | looking =>
    obtain ⟨m, -, hm⟩ := hfair.decide 0
    exact ⟨m, hm⟩
  | assigned =>
    obtain ⟨m, -, hm⟩ := hfair.work 0
    exact ⟨m, hm⟩
  | answered =>
    obtain ⟨m, -, hm⟩ := hfair.receive 0
    exact ⟨m, hm⟩
  | ended h =>
    rw [h.solution] at hgoing
    cases hgoing

/-- Under a fair schedule the search comes to its end. -/
theorem Fair.ends (hs : (solvers 0).Reliable) (hdefined : (solvers 0).Defined)
    {schedule : Nat → Event} (hfair : Fair solvers t schedule)
    (h : t.Follows solvers final rank due) :
    ∃ n sol, (t.run solvers (upTo schedule n)).solution? = some sol := by
  induction rank using Nat.strong_induction_on generalizing t due schedule with
  | _ rank ih =>
    -- the first event leads closer to the end, or what is due is still so
    have hfirst : ∀ {t : Team σ α} {schedule : Nat → Event}, Fair solvers t schedule →
        t.Follows solvers final rank due → t.solution? = none →
        (∃ n sol, (t.run solvers (upTo schedule n)).solution? = some sol)
          ∨ schedule 0 ≠ due ∧ (t.step solvers (schedule 0)).Follows solvers final rank due := by
      intro t schedule hfair h hgoing
      obtain ⟨next, dueNext, hnext, hnear⟩ := (h.step hs hdefined (schedule 0)).follows
      rcases hnear (hfair.busy 0) with hlt | ⟨rfl, rfl, hended⟩
      · obtain ⟨n, sol, hsol⟩ := ih next hlt hfair.tail hnext
        exact .inl ⟨n + 1, sol, by rw [upTo_succ]; exact hsol⟩
      · refine .inr ⟨fun hdue => ?_, hnext⟩
        have hsome := hended hdue
        rw [hgoing] at hsome
        cases hsome
    cases hgoing : t.solution? with
    | some sol => exact ⟨0, sol, hgoing⟩
    | none =>
      obtain ⟨m, hm⟩ := hfair.exists_due h hgoing
      induction m generalizing t schedule with
      | zero => exact (hfirst hfair h hgoing).resolve_right fun hother => hother.1 hm
      | succ m ihm =>
        rcases hfirst hfair h hgoing with hend | ⟨-, hnext⟩
        · exact hend
        · cases hlater : (t.step solvers (schedule 0)).solution? with
          | some sol => exact ⟨1, sol, hlater⟩
          | none =>
            obtain ⟨n, sol, hsol⟩ := ihm hfair.tail hnext hlater hm
            exact ⟨n + 1, sol, by rw [upTo_succ]; exact hsol⟩

/-! ## The calls on the solvers -/

/-- No run takes back what was written down. -/
theorem Follows.calls_run {solvers : Nat → Solvers σ α}
    {final : Except (Failure α) (Solution α) × (σ × List (Query α))}
    {t : Team (σ × List (Query α)) α} (hs : (solvers 0).Reliable) (hdefined : (solvers 0).Defined)
    (h : t.Follows (fun i => (solvers i).logged) final rank due) (events : List Event) :
    t.memory.2 <+: (t.run (fun i => (solvers i).logged) events).memory.2 := by
  induction events generalizing t rank due with
  | nil => exact List.prefix_rfl
  | cons event rest ih =>
    have hleads := h.step hs.logged hdefined.logged event
    obtain ⟨next, dueNext, hnext, -⟩ := hleads.follows
    refine List.IsPrefix.trans ?_ (ih hnext)
    rcases hleads.memory with heq | ⟨n, cutoff, r, hcall⟩
    · exact ⟨[], by rw [List.append_nil, heq]⟩
    · exact (processNode_logs (solvers 0) n cutoff _ _ _ hcall).2

/-- Whatever the order of events, a team makes the calls that were made when the serial search came
to a solution, and comes to that solution. -/
structure Mirrors (solvers : Nat → Solvers (σ × List (Query α)) α)
    (t : Team (σ × List (Query α)) α) (sol : Solution α) (last : σ × List (Query α)) : Prop where
  /-- The calls that the team has made are the first ones that the serial search makes. -/
  calls : ∀ events, (t.run solvers events).memory.2 <+: last.2
  /-- When the team has come to a solution, it is that of the serial search, and the team has made
  all its calls. -/
  solution : ∀ events other, (t.run solvers events).solution? = some other →
    other = sol ∧ (t.run solvers events).memory = last
  /-- The team comes to a solution under a fair schedule. -/
  ends : ∀ schedule, Fair solvers t schedule →
    ∃ n, (t.run solvers (upTo schedule n)).solution? = some sol

/-- A team that follows the serial search does what that does. -/
theorem Follows.mirrors {solvers : Nat → Solvers σ α}
    {final : Except (Failure α) (Solution α) × (σ × List (Query α))}
    {t : Team (σ × List (Query α)) α} (hs : (solvers 0).Reliable) (hdefined : (solvers 0).Defined)
    (h : t.Follows (fun i => (solvers i).logged) final rank due) :
    ∃ sol last, final = (.ok sol, last) ∧ t.Mirrors (fun i => (solvers i).logged) sol last := by
  obtain ⟨events, sol, hsol⟩ := h.exists_end hs.logged hdefined.logged
  obtain ⟨next, dueNext, hend⟩ := h.run hs.logged hdefined.logged events
  have hfinal := hend.final_eq hsol
  refine ⟨sol, _, hfinal, fun events => ?_, fun events other hother => ?_, fun schedule hfair => ?_⟩
  · -- from wherever the team is, it can come to its end, where it has made all calls
    obtain ⟨_, _, hmid⟩ := h.run hs.logged hdefined.logged events
    obtain ⟨rest, other, hother⟩ := hmid.exists_end hs.logged hdefined.logged
    obtain ⟨_, _, hlast⟩ := hmid.run hs.logged hdefined.logged rest
    have hsame := hfinal.symm.trans (hlast.final_eq hother)
    rw [(Prod.mk.inj hsame).2]
    exact hmid.calls_run hs hdefined rest
  · obtain ⟨_, _, hlast⟩ := h.run hs.logged hdefined.logged events
    have hsame := hfinal.symm.trans (hlast.final_eq hother)
    obtain ⟨hsol, hmemory⟩ := Prod.mk.inj hsame
    exact ⟨(Except.ok.inj hsol).symm, hmemory.symm⟩
  · obtain ⟨n, other, hother⟩ := hfair.ends hs.logged hdefined.logged h
    obtain ⟨_, _, hlast⟩ := h.run hs.logged hdefined.logged (upTo schedule n)
    have hsame := hfinal.symm.trans (hlast.final_eq hother)
    rw [Except.ok.inj (Prod.mk.inj hsame).1]
    exact ⟨n, hother⟩

omit [Scalar.Ordered α] in
/-- A team that does not come about because settings or variables are not valid. -/
theorem start_error {vars : List (Variable α)} {settings : Settings α} {memory : σ} {e : Error α}
    (hworkers : settings.workers = 1) (h : start vars settings memory = .error e) :
    Search.new vars settings = .error e := by
  unfold start at h
  rw [if_neg (by omega)] at h
  cases hnew : Search.new vars settings with
  | error cause =>
    rw [hnew] at h
    cases h
    rfl
  | ok search =>
    rw [hnew] at h
    cases h

/-- A team of one follows the serial search from its start. -/
theorem exists_follows_start (solvers : Nat → Solvers σ α) {vars : List (Variable α)}
    {settings : Settings α} {memory : σ} (hworkers : settings.workers = 1)
    (hplain : settings.Plain) (h : start vars settings memory = .ok t) :
    ∃ rank, t.Follows solvers (Serial.solve (solvers 0) vars settings memory) rank .decide := by
  obtain ⟨-, search, hnew, rfl⟩ := start_ok h
  have hseats : (List.range settings.workers).map
      (fun i => ({ worker := some ⟨i, search.cutoff⟩ } : Seat α))
        = [⟨some ⟨0, search.cutoff⟩, none, [], []⟩] := by
    rw [hworkers]
    rfl
  have hfinal : Serial.solve (solvers 0) vars settings memory
      = Serial.outcome (solvers 0) ⟨search, memory⟩ := by
    rw [Serial.solve_eq, hnew]
  exact ⟨_, .idle rfl ⟨hseats, rfl, fun _ horder => absurd horder List.not_mem_nil,
    .new hplain hnew, hfinal.symm⟩⟩

/-- A team with one worker does what the serial search does, if nodes are not branched strongly,
neither time nor memory is limited, and the solvers answer, with bounds that are defined. The calls
are compared by having the solvers write them down, which does not change the solution. If settings
or variables are not valid, both come to the same error. -/
theorem solo_mirrors (solvers : Nat → Solvers σ α) {vars : List (Variable α)}
    {settings : Settings α}
    (hworkers : settings.workers = 1) (hplain : settings.Plain) (hs : (solvers 0).Reliable)
    (hdefined : (solvers 0).Defined) (memory : σ) :
    (∀ e, start vars settings (memory, ([] : List (Query α))) = .error e →
      Serial.solve (solvers 0).logged vars settings (memory, [])
        = (.error (.error e), (memory, [])))
      ∧ ∀ t, start vars settings (memory, ([] : List (Query α))) = .ok t → ∃ sol last,
        Serial.solve (solvers 0).logged vars settings (memory, []) = (.ok sol, last)
          ∧ Serial.solve (solvers 0) vars settings memory = (.ok sol, last.1)
          ∧ t.Mirrors (fun i => (solvers i).logged) sol last := by
  refine ⟨fun e hstart => ?_, fun t hstart => ?_⟩
  · rw [Serial.solve_eq, start_error hworkers hstart]
  · obtain ⟨rank, hfollows⟩ :=
      exists_follows_start (fun i => (solvers i).logged) hworkers hplain hstart
    obtain ⟨sol, last, hsolve, hmirrors⟩ := hfollows.mirrors hs hdefined
    exact ⟨sol, last, hsolve, Serial.solve_logged hs hdefined hplain hsolve, hmirrors⟩

/-- The manager and the worker take turns. -/
def turns (n : Nat) : Event :=
  match n % 3 with
  | 0 => .decide
  | 1 => .work 0
  | _ => .receive 0

omit [Scalar.Ordered α] in
/-- Taking turns is fair. -/
theorem fair_turns (solvers : Nat → Solvers σ α) (t : Team σ α) : Fair solvers t turns where
  decide n := ⟨3 * n, by omega, by rw [turns, Nat.mul_mod_right]; rfl⟩
  work n := ⟨3 * n + 1, by omega, by rw [turns, Nat.mul_add_mod]; rfl⟩
  receive n := ⟨3 * n + 2, by omega, by rw [turns, Nat.mul_add_mod]; rfl⟩
  busy n htick := by
    unfold turns at htick
    split at htick <;> cases htick

/-- Settings with one worker. -/
def soloSettings : Settings (Extended ℚ) := { Settings.standard with workers := 1 }

/-- A team with these settings can start. -/
theorem exists_soloStart :
    ∃ t ∈ (start Async.sampleVars soloSettings ((), ([] : List (Query (Extended ℚ))))).toOption,
      t.seats.length = 1 := by
  decide +kernel

/-- A team of one solves the sample problem as the serial search does, when manager and worker take
turns. -/
theorem solo_mirrors_turns :
    ∃ t sol last, start Async.sampleVars soloSettings ((), []) = .ok t
      ∧ Serial.solve Async.sampleSolvers.logged Async.sampleVars soloSettings ((), [])
        = (.ok sol, last)
      ∧ t.Mirrors (fun _ => Async.sampleSolvers.logged) sol last
      ∧ ∃ n, (t.run (fun _ => Async.sampleSolvers.logged) (upTo turns n)).solution? = some sol := by
  obtain ⟨t, hstart, -⟩ := exists_eq_ok exists_soloStart
  obtain ⟨sol, last, hsolve, -, hmirrors⟩ :=
    (solo_mirrors (fun _ => Async.sampleSolvers) rfl ⟨rfl, rfl, rfl, rfl⟩
      Async.reliable_sampleSolvers Async.defined_sampleSolvers ()).2 t hstart
  exact ⟨t, sol, last, hstart, hsolve, hmirrors, hmirrors.ends turns (fair_turns _ t)⟩

end BranchBound.Team
