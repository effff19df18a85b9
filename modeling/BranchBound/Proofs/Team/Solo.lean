import BranchBound.Proofs.Node.Calls
import BranchBound.Proofs.Search.Rounds
import BranchBound.Proofs.Team.Runs

/-! # A team of one

A team with a single worker goes through the states of the serial search: its worker is on no node,
on a node, or has answered. In each of them it is known what the serial search comes to, be it from
the state of the search or from the report that the worker is about to send (`Team.Follows`). The
worker has the cutoff of the search whenever it begins with a node, since it has adopted its own
points, and what it is told of the incumbent is no news to it.

A rank says how far the search is from its end. Every event keeps the team where it follows the
serial search, and does not raise the rank; the event that is due lowers it (`Team.Leads`). Only a
clock that wakes the manager before it reads a reply takes the team back.

* **`Team.Follows`** — the invariant, with the rank and the event that is due.
* **`Team.Follows.step`** — what every event does. -/

namespace BranchBound.Team

variable {σ α : Type} [Scalar α]

/-! ## One seat -/

section Seat

variable {solvers : Nat → Solvers σ α} {t u : Team σ α} {w v : Worker α} {a : Assignment α}
  {gone : Option (Worker α)} {out : Option (Assignment α)} {order : Order α}
  {orders rest : List (Order α)} {replies : List (Reply α)} {i : Nat}

/-- A worker that has no order does nothing, and neither does one that is not there. -/
theorem work_idle (h : ∀ seat, t.seats[i]? = some seat → seat.orders = []) :
    t.work solvers i = t := by
  rcases work_cases solvers i t with heq | ⟨seat, w, order, rest, -, -, -, hseat, -, horders, -⟩
  · exact heq
  · rw [h seat hseat] at horders
    cases horders

/-- Another worker is not there. -/
theorem work_other {seat : Seat α} (hseats : t.seats = [seat]) (hi : i ≠ 0) :
    t.work solvers i = t := by
  refine work_idle fun other hother => ?_
  rw [hseats, List.getElem?_singleton, if_neg hi] at hother
  cases hother

/-- The only worker has read all orders. -/
theorem work_read (hseats : t.seats = [⟨gone, out, [], replies⟩]) (i : Nat) :
    t.work solvers i = t := by
  by_cases hi : i = 0
  · refine work_idle fun other hother => ?_
    rw [hseats, hi] at hother
    cases hother
    rfl
  · exact work_other hseats hi

/-- The only worker handles its oldest order. -/
theorem work_solo {reaction : Reaction α} {memory : σ}
    (hseats : t.seats = [⟨some w, out, order :: rest, replies⟩])
    (hhandle : w.handle (solvers 0) order t.memory = (reaction, v, memory)) :
    t.work solvers 0 = { t with
      seats := [Seat.served ⟨some w, out, order :: rest, replies⟩ rest v reaction], memory } := by
  have hseat : t.seats[0]? = some ⟨some w, out, order :: rest, replies⟩ := by
    rw [hseats]
    rfl
  unfold work
  simp only [hseat, hhandle]
  rw [modifySeat, hseats]
  cases reaction <;> rfl

omit [Scalar α] in
/-- The nodes that are out if the only worker is on one. -/
theorem outNodes_solo (hseats : t.seats = [⟨gone, some a, orders, replies⟩]) :
    t.outNodes = [a.node] := by
  unfold outNodes
  rw [hseats]
  rfl

/-- Their lowest score. -/
theorem outLowest_solo (hseats : t.seats = [⟨gone, some a, orders, replies⟩]) :
    t.outLowest = some a.node.score := by
  unfold outLowest
  rw [outNodes_solo hseats]
  rfl

omit [Scalar α] in
/-- No node is out if the only worker is on none. -/
theorem outNodes_solo_idle (hseats : t.seats = [⟨gone, none, orders, replies⟩]) :
    t.outNodes = [] := by
  unfold outNodes
  rw [hseats]
  rfl

/-- There is no lowest score then. -/
theorem outLowest_solo_idle (hseats : t.seats = [⟨gone, none, orders, replies⟩]) :
    t.outLowest = none :=
  outLowest_eq_none (outNodes_solo_idle hseats)

/-- No node is handed out while the only worker is on one. -/
theorem dispatch_solo_busy (hseats : t.seats = [⟨gone, some a, orders, replies⟩]) :
    t.dispatch = (.ok (), t) := by
  unfold dispatch
  rw [hseats]
  simp [dispatchTo, hseats]

/-- The next node is handed out to the only worker if it is on none. -/
theorem dispatch_solo_idle {n : Node α} {search : Search α}
    (hseats : t.seats = [⟨some w, none, orders, []⟩])
    (hopen : t.search.brancher.frontier.isEmpty = false) (hnext : t.search.next = (.ok n, search)) :
    t.dispatch = (.ok (), { t with
      search
      seats := [⟨some w, some ⟨n, t.dispatched.length⟩, orders ++ [.process n], []⟩]
      dispatched := t.dispatched ++ [(n.id, 0)] }) := by
  unfold dispatch
  rw [hseats]
  simp [dispatchTo, hseats, hopen, hnext, send?, modifySeat, assign]

omit [Scalar α] in
/-- Another worker has no news. -/
theorem news?_other {seat : Seat α} (hseats : t.seats = [seat]) (hi : i ≠ 0) :
    t.news? i = none := by
  have hseat : t.seats[i]? = none := by
    rw [hseats, List.getElem?_singleton, if_neg hi]
  unfold news?
  rw [hseat]

omit [Scalar α] in
/-- There are no news of a worker that is there and has not answered. -/
theorem news?_silent (hseats : t.seats = [⟨some w, out, orders, []⟩]) (i : Nat) :
    t.news? i = none := by
  by_cases hi : i = 0
  · unfold news?
    rw [hseats, hi]
    simp
  · exact news?_other hseats hi

omit [Scalar α] in
/-- The news of the only worker, once it has answered. -/
theorem news?_solo {reply : Reply α} (hseats : t.seats = [⟨gone, some a, orders, [reply]⟩]) :
    t.news? 0 = some (.reply reply, { t with seats := [⟨gone, some a, orders, []⟩] }) := by
  unfold news?
  rw [hseats]
  simp [modifySeat, hseats]

/-- The report of the only worker is taken in. -/
theorem takeIn_solo {r : Report α} (hseats : t.seats = [⟨gone, some a, orders, []⟩])
    (hid : r.node.id = a.node.id) :
    t.takeIn 0 (.report r) =
      match t.search.apply r with
      | (.error e, search) =>
          (.error e, { t with search, seats := [⟨gone, none, orders, []⟩] })
      | (.ok _, search) =>
          let u : Team σ α := { t with search, seats := [⟨gone, none, orders, []⟩] }
          if search.incumbent.value < t.search.incumbent.value then u.announce
          else (.ok (), u) := by
  have haccept : t.accept 0 r
      = { t with search := (t.search.apply r).2, seats := [⟨gone, none, orders, []⟩] } := by
    rw [accept, release, modifySeat, hseats]
    rfl
  -- the worker is on the node of the report, so it is not mistaken
  have hanswered : (t.seats[0]?.bind (·.out)).map (·.node.id) = some r.node.id := by
    rw [hseats, hid]
    rfl
  have htaking := taking t 0 (.report r)
  generalize t.takeIn 0 (.report r) = result at htaking ⊢
  cases htaking with
  | mistaken hexpected hother => exact absurd (hexpected.symm.trans hanswered) hother
  | refused _ happly => rw [haccept, happly]
  | better _ happly hbetter =>
    rw [haccept, happly]
    exact (if_pos hbetter).symm
  | accepted _ happly hworse =>
    rw [haccept, happly]
    exact (if_neg hworse).symm

omit [Scalar α] in
/-- The only worker is told of the incumbent, if there is one. -/
theorem announce_solo (hseats : t.seats = [⟨some w, out, orders, replies⟩]) :
    ∃ told, t.announce
        = (.ok (), { t with seats := [⟨some w, out, orders ++ told, replies⟩] })
      ∧ told.length ≤ 1
      ∧ ∀ order ∈ told, ∃ point, order = .improve ⟨t.search.incumbent.value, point⟩ := by
  unfold announce
  cases t.search.incumbent.point with
  | none =>
    refine ⟨[], ?_, Nat.zero_le _, fun _ horder => absurd horder List.not_mem_nil⟩
    rw [List.append_nil, ← hseats]
  | some point =>
    refine ⟨[.improve ⟨t.search.incumbent.value, point⟩], ?_, Nat.le_refl _, fun order horder => ?_⟩
    · rw [hseats]
      simp [announceTo, send?, modifySeat, hseats]
    · exact ⟨point, List.mem_singleton.mp horder⟩

end Seat

/-! ## The invariant -/

/-- The orders tell of points that are no better than a value. -/
def Stale (value : α) (orders : List (Order α)) : Prop :=
  ∀ order ∈ orders, ∃ c, order = .improve c ∧ ¬ c.value < value

/-- What is left of such orders. -/
theorem Stale.tail {value : α} {order : Order α} {rest : List (Order α)}
    (h : Stale value (order :: rest)) : Stale value rest :=
  fun other hother => h other (List.mem_cons_of_mem _ hother)

/-- How many nodes may still be processed. -/
def left (t : Team σ α) : Nat := t.search.settings.maxNodes - t.search.stats.processed

variable (solvers : Nat → Solvers σ α) (final : Except (Failure α) (Solution α) × σ)

/-- The only worker is on no node, and the serial search comes to `final` from here. -/
structure Idle (t : Team σ α) (w : Worker α) (orders : List (Order α)) : Prop where
  /-- What the worker has not read yet. -/
  seats : t.seats = [⟨some w, none, orders, []⟩]
  /-- Its cutoff is that of the search. -/
  cutoff : w.cutoff = t.search.cutoff
  /-- It is told of no better point. -/
  stale : Stale t.search.incumbent.value orders
  /-- The search is steady. -/
  steady : t.search.Steady
  /-- What the serial search comes to. -/
  final : Serial.outcome (solvers 0) ⟨t.search, t.memory⟩ = final

/-- The only worker is on a node that it has not processed. The serial search comes to `final` once
the report on it is taken in. -/
structure Assigned (t : Team σ α) (w : Worker α) (a : Assignment α) (orders : List (Order α))
    (r : Report α) (after : σ) : Prop where
  /-- What the worker has not read yet. -/
  seats : t.seats = [⟨some w, some a, orders ++ [.process a.node], []⟩]
  /-- Its cutoff is that of the search. -/
  cutoff : w.cutoff = t.search.cutoff
  /-- It is told of no better point. -/
  stale : Stale t.search.incumbent.value orders
  /-- The search is steady. -/
  steady : t.search.Steady
  /-- The search is not over while the node is out. -/
  check : t.search.check (some a.node.score) = none
  /-- The report is about the node. -/
  id : r.node.id = a.node.id
  /-- It is the report that the worker is going to send. -/
  report : (processNode (solvers 0) a.node t.search.cutoff).Returns t.memory r after
  /-- What the serial search comes to. -/
  final : Serial.concluded (solvers 0) t.search after r = final

/-- The only worker has answered, and the serial search comes to `final` once its report is taken
in. -/
structure Answered (t : Team σ α) (w : Worker α) (a : Assignment α) (r : Report α) : Prop where
  /-- The worker has read its orders, and its report is not read. -/
  seats : t.seats = [⟨some w, some a, [], [.report r]⟩]
  /-- Its cutoff is that of the search, up to the point of the report. -/
  cutoff : w.cutoff = { t.search.cutoff with incumbent := (t.search.incumbent.adopt r).value }
  /-- The search is steady. -/
  steady : t.search.Steady
  /-- The search is not over while the node is out. -/
  check : t.search.check (some a.node.score) = none
  /-- The report is about the node. -/
  id : r.node.id = a.node.id
  /-- What the serial search comes to. -/
  final : Serial.concluded (solvers 0) t.search t.memory r = final

/-- The search has ended with a solution, and so does the serial search. -/
structure Ended (t : Team σ α) (result : Except (Error α) Status) (termination : Termination)
    (sol : Solution α) : Prop where
  /-- The manager is done. -/
  phase : t.phase = .ended result termination
  /-- What it has found. -/
  solution : t.solution? = some sol
  /-- No worker is still to process a node. -/
  read : t.Each fun _ seat => ∀ n, Order.process n ∉ seat.orders
  /-- What the serial search comes to. -/
  final : final = (.ok sol, t.memory)

/-- The team is where the serial search comes to `final` from. The rank falls with the event that is
due next, and rises with no other but the clock. A node that was processed counts eight: the worker
is told of at most one point then, and four more events take it to the report on its next node. -/
inductive Follows (t : Team σ α) : (rank : Nat) → (due : Event) → Prop
  /-- The worker is on no node. -/
  | idle {w : Worker α} {orders : List (Order α)} (hphase : t.phase = .deciding)
      (h : t.Idle solvers final w orders) : Follows t (8 * t.left + orders.length + 3) .decide
  /-- The worker is on a node that it has not processed. -/
  | assigned {w : Worker α} {a : Assignment α} {orders : List (Order α)} {r : Report α} {after : σ}
      (hsearching : t.Searching) (h : t.Assigned solvers final w a orders r after) :
      Follows t (8 * t.left + orders.length + 2) (.work 0)
  /-- The worker has answered, and the manager looks at the search first. -/
  | looking {w : Worker α} {a : Assignment α} {r : Report α} (hphase : t.phase = .deciding)
      (h : t.Answered solvers final w a r) : Follows t (8 * t.left + 1) .decide
  /-- The worker has answered, and the manager waits for that. -/
  | answered {w : Worker α} {a : Assignment α} {r : Report α} (hphase : t.phase = .waiting)
      (h : t.Answered solvers final w a r) : Follows t (8 * t.left) (.receive 0)
  /-- The search has ended. -/
  | ended {result : Except (Error α) Status} {termination : Termination} {sol : Solution α}
      (h : t.Ended final result termination sol) : Follows t 0 .deadline

/-- An event leads from one team to another that follows the serial search as well. Nothing but the
processing of a node touches the state of the solvers. Unless the clock wakes the manager before it
has read a reply, the rank falls or stays, and falls if the event was due and the search had not
ended. -/
structure Leads (t : Team σ α) (rank : Nat) (due event : Event) (u : Team σ α) : Prop where
  /-- The team afterwards follows the serial search. -/
  follows : ∃ next dueNext, u.Follows solvers final next dueNext
    ∧ ((event = .tick → t.news? 0 = none) →
      next < rank ∨ next = rank ∧ dueNext = due ∧ (event = due → t.solution?.isSome = true))
  /-- The state of the solvers. -/
  memory : u.memory = t.memory
    ∨ ∃ n cutoff r, (processNode (solvers 0) n cutoff).Returns t.memory r u.memory

variable {solvers final} {t u : Team σ α} {rank next : Nat} {due event : Event}

/-- An event that changes nothing, if it is not due or the search has ended. -/
theorem Follows.stay (h : t.Follows solvers final rank due)
    (hdue : event = due → t.solution?.isSome = true) : t.Leads solvers final rank due event t :=
  ⟨⟨rank, due, h, fun _ => .inr ⟨rfl, rfl, hdue⟩⟩, .inl rfl⟩

/-- An event that changes something, but not what is due, nor how far it is. -/
theorem Follows.shift (h : u.Follows solvers final rank due) (hdue : event ≠ due)
    (hmemory : u.memory = t.memory) : t.Leads solvers final rank due event u :=
  ⟨⟨rank, due, h, fun _ => .inr ⟨rfl, rfl, fun heq => absurd heq hdue⟩⟩, .inl hmemory⟩

/-- An event that brings the team closer to its end. -/
theorem Follows.near {dueNext : Event} (h : u.Follows solvers final next dueNext)
    (hnext : next < rank) (hmemory : u.memory = t.memory) :
    t.Leads solvers final rank due event u :=
  ⟨⟨next, dueNext, h, fun _ => .inl hnext⟩, .inl hmemory⟩

/-! ## The steps -/

/-- Once the search has ended, it stays so. -/
theorem Ended.step {result : Except (Error α) Status} {termination : Termination} {sol : Solution α}
    (h : t.Ended final result termination sol) (event : Event) :
    t.Leads solvers final 0 .deadline event (t.step solvers event) := by
  have hsome : t.solution?.isSome = true := by
    rw [h.solution]
    rfl
  have hstay : t.Leads solvers final 0 .deadline event t :=
    (Follows.ended h).stay fun _ => hsome
  rw [Team.step_ended solvers h.phase]
  cases event with
  | work i =>
    show t.Leads solvers final 0 .deadline (.work i) (t.work solvers i)
    rcases work_cases solvers i t
      with heq | ⟨seat, w, order, rest, reaction, v, memory, hseat, -, horders, hhandle, heq⟩
    · rw [heq]
      exact hstay
    · -- the order is not to process a node, so the solvers are not called
      have hunread : ∀ n, Order.process n ∉ seat.orders := h.read i seat hseat
      rw [horders] at hunread
      have hmemory : memory = t.memory := by
        cases order with
        | process n => exact absurd List.mem_cons_self (hunread n)
        | improve c | stop tag =>
          cases hhandle
          rfl
      subst hmemory
      have hread : (t.modifySeat i fun _ => seat.served rest v reaction).Each
          fun _ seat => ∀ n, Order.process n ∉ seat.orders := by
        refine Each.modify_same h.read fun _ _ _ n hn => ?_
        have hsub : (seat.served rest v reaction).orders ⊆ rest := by
          cases reaction <;> simp [Seat.served]
        exact hunread n (List.mem_cons_of_mem _ (hsub hn))
      rw [heq]
      refine ⟨⟨0, .deadline, .ended ⟨h.phase, h.solution, ?_, h.final⟩, fun _ => ?_⟩, .inl rfl⟩
      · exact hread.of_eq rfl
      · exact .inr ⟨rfl, rfl, fun _ => hsome⟩
  | _ => exact hstay

/-- Looking at the search while the only worker is on a node changes nothing. -/
theorem decide_busy {gone : Option (Worker α)} {a : Assignment α} {orders : List (Order α)}
    {replies : List (Reply α)} (hseats : t.seats = [⟨gone, some a, orders, replies⟩])
    (hsteady : t.search.Steady) (hcheck : t.search.check (some a.node.score) = none) :
    t.decide solvers = { t.atTime solvers with phase := .waiting } := by
  have hnow : (t.atTime solvers).seats = [⟨gone, some a, orders, replies⟩] := hseats
  have hgoes : (t.atTime solvers).search.check (t.atTime solvers).outLowest = none := by
    rw [outLowest_solo hnow]
    exact (Search.check_atTime hsteady.plain _ _).trans hcheck
  have hdispatch := dispatch_solo_busy hnow
  -- the check passes and there is nobody idle to hand a node to
  rcases decide_cases solvers t with ⟨status, hstatus, -⟩ | ⟨-, ⟨e, u, hu, -⟩ | ⟨u, hu, heq⟩⟩
  · rw [hgoes] at hstatus
    cases hstatus
  · rw [hdispatch] at hu
    cases hu
  · rw [hdispatch] at hu
    cases hu
    rw [heq, outNodes_solo hnow]
    rfl

/-- The clock does not matter to a worker that has not processed its node. -/
theorem Assigned.atTime {w : Worker α} {a : Assignment α} {orders : List (Order α)} {r : Report α}
    {after : σ} (h : t.Assigned solvers final w a orders r after) :
    (t.atTime solvers).Assigned solvers final w a orders r after where
  seats := h.seats
  cutoff := h.cutoff
  stale := h.stale
  steady := h.steady.atTime _
  check := (Search.check_atTime h.steady.plain _ _).trans h.check
  id := h.id
  report := h.report
  final := (Serial.concluded_atTime _ _ _ _ _).trans h.final

/-- What the manager is doing does not matter either. -/
theorem Assigned.of_phase {w : Worker α} {a : Assignment α} {orders : List (Order α)}
    {r : Report α} {after : σ} (h : t.Assigned solvers final w a orders r after)
    (phase : Phase α) :
    Assigned solvers final { t with phase } w a orders r after :=
  ⟨h.seats, h.cutoff, h.stale, h.steady, h.check, h.id, h.report, h.final⟩

/-- A worker with the cutoff of a search does nothing when it reads of a point that is no better. -/
theorem handle_stale (solvers : Nat → Solvers σ α) {s : Search α} {w : Worker α} {order : Order α}
    {rest : List (Order α)} (hcutoff : w.cutoff = s.cutoff)
    (h : Stale s.incumbent.value (order :: rest)) (memory : σ) :
    w.handle (solvers 0) order memory = (.note, w, memory) := by
  obtain ⟨c, rfl, hc⟩ := h order List.mem_cons_self
  have hworse : ¬ c.value < w.cutoff.incumbent := by
    rw [hcutoff]
    exact hc
  simp only [Worker.handle, Worker.tighten, Cutoff.tighten, if_neg hworse]

/-- A worker that processes a node answers with the report and adopts its point. -/
theorem handle_report {w : Worker α} {n : Node α} {r : Report α} {memory after : σ}
    (h : (processNode (solvers 0) n w.cutoff).Returns memory r after) :
    w.handle (solvers 0) (.process n) memory = (.answer (.report r), w.adopt r, after) := by
  have hrun : Id.run (StateT.run (ExceptT.run (processNode (solvers 0) n w.cutoff)) memory)
      = (.ok r, after) := h
  simp only [Worker.handle, hrun]

/-- The cutoff of a worker that has the cutoff of the search, once it has adopted the point of a
report. -/
theorem cutoff_adopt {s : Search α} {w : Worker α} (h : w.cutoff = s.cutoff) (r : Report α) :
    (w.adopt r).cutoff = { s.cutoff with incumbent := (s.incumbent.adopt r).value } := by
  unfold Worker.adopt Incumbent.adopt
  cases r.candidate with
  | none => exact h
  | some c =>
    have hsame : s.cutoff.incumbent = s.incumbent.value := rfl
    simp only [Worker.tighten, Cutoff.tighten, h, hsame, Incumbent.offer]
    split <;> rfl

/-- The worker processes its node. -/
theorem Assigned.process {w : Worker α} {a : Assignment α} {r : Report α} {after : σ}
    (hsearching : t.Searching) (h : t.Assigned solvers final w a [] r after) :
    t.Leads solvers final (8 * t.left + 2) (.work 0) (.work 0) (t.work solvers 0) := by
  have hhandle : w.handle (solvers 0) (.process a.node) t.memory
      = (.answer (.report r), w.adopt r, after) := by
    refine handle_report ?_
    rw [h.cutoff]
    exact h.report
  have hwork := work_solo h.seats hhandle
  have hanswered : (t.work solvers 0).Answered solvers final (w.adopt r) a r := by
    rw [hwork]
    exact ⟨rfl, cutoff_adopt h.cutoff r, h.steady, h.check, h.id, h.final⟩
  have hleft : (t.work solvers 0).left = t.left := by rw [hwork]; rfl
  have hphase : (t.work solvers 0).phase = t.phase := by rw [hwork]
  refine ⟨?_, .inr ⟨a.node, t.search.cutoff, r, ?_⟩⟩
  · -- the manager waits, or is about to look at the search again
    rcases searching_iff.mp hsearching with hdeciding | hwaiting
    · refine ⟨_, _, .looking (hphase.trans hdeciding) hanswered, fun _ => .inl ?_⟩
      rw [hleft]
      omega
    · refine ⟨_, _, .answered (hphase.trans hwaiting) hanswered, fun _ => .inl ?_⟩
      rw [hleft]
      omega
  · rw [hwork]
    exact h.report

/-- The worker reads of a point, which is no better than the ones it knows. -/
theorem Assigned.note {w : Worker α} {a : Assignment α} {order : Order α} {rest : List (Order α)}
    {r : Report α} {after : σ} (hsearching : t.Searching)
    (h : t.Assigned solvers final w a (order :: rest) r after) :
    t.Leads solvers final (8 * t.left + (rest.length + 1) + 2) (.work 0) (.work 0)
      (t.work solvers 0) := by
  have hwork := work_solo h.seats (handle_stale solvers h.cutoff h.stale t.memory)
  have hassigned : (t.work solvers 0).Assigned solvers final w a rest r after := by
    rw [hwork]
    exact ⟨rfl, h.cutoff, h.stale.tail, h.steady, h.check, h.id, h.report, h.final⟩
  have hleft : (t.work solvers 0).left = t.left := by rw [hwork]; rfl
  have hphase : (t.work solvers 0).Searching := by
    rw [hwork]
    exact hsearching
  refine (Follows.assigned hphase hassigned).near ?_ (by rw [hwork])
  rw [hleft]
  omega

/-- The worker handles an order. -/
theorem Assigned.work {w : Worker α} {a : Assignment α} {orders : List (Order α)} {r : Report α}
    {after : σ} (hsearching : t.Searching) (h : t.Assigned solvers final w a orders r after) :
    t.Leads solvers final (8 * t.left + orders.length + 2) (.work 0) (.work 0)
      (t.work solvers 0) := by
  cases orders with
  | nil => exact h.process hsearching
  | cons order rest => exact h.note hsearching

/-- A run in which the worker is on a node that it has not processed. -/
theorem Assigned.step {w : Worker α} {a : Assignment α} {orders : List (Order α)} {r : Report α}
    {after : σ} (hsearching : t.Searching) (h : t.Assigned solvers final w a orders r after)
    (event : Event) :
    t.Leads solvers final (8 * t.left + orders.length + 2) (.work 0) event
      (t.step solvers event) := by
  have hstay : ∀ {other}, other ≠ .work 0 →
      t.Leads solvers final (8 * t.left + orders.length + 2) (.work 0) other t :=
    fun hother => (Follows.assigned hsearching h).stay fun heq => absurd heq hother
  have hwork : ∀ i, t.Leads solvers final (8 * t.left + orders.length + 2) (.work 0) (.work i)
      (t.work solvers i) := by
    intro i
    by_cases hi : i = 0
    · subst hi
      exact h.work hsearching
    · rw [work_other h.seats hi]
      exact hstay (by simpa using hi)
  rcases searching_iff.mp hsearching with hphase | hphase
  · rw [step_deciding solvers hphase]
    cases event with
    | work i => exact hwork i
    | decide =>
      show t.Leads solvers final _ _ _ (t.decide solvers)
      rw [decide_busy h.seats h.steady h.check]
      exact Follows.shift (.assigned rfl (h.atTime.of_phase .waiting)) nofun rfl
    | tick | receive | deadline => exact hstay nofun
  · rw [step_waiting solvers hphase]
    cases event with
    | work i => exact hwork i
    | tick => exact Follows.shift (.assigned rfl (h.of_phase .deciding)) nofun rfl
    | receive i =>
      -- the worker has not answered
      show t.Leads solvers final _ _ _ ((t.news? i).elim t fun p => p.2.hear i p.1)
      rw [news?_silent h.seats i]
      exact hstay nofun
    | decide | deadline => exact hstay nofun

/-- The clock and what the manager is doing do not matter to a worker that has answered. -/
theorem Answered.waits {w : Worker α} {a : Assignment α} {r : Report α}
    (h : t.Answered solvers final w a r) :
    Answered solvers final { t.atTime solvers with phase := .waiting } w a r where
  seats := h.seats
  cutoff := h.cutoff
  steady := h.steady.atTime _
  check := (Search.check_atTime h.steady.plain _ _).trans h.check
  id := h.id
  final := (Serial.concluded_atTime _ _ _ _ _).trans h.final

/-- A run in which the worker has answered and the manager is about to look at the search. -/
theorem Answered.step_looking {w : Worker α} {a : Assignment α} {r : Report α}
    (hphase : t.phase = .deciding) (h : t.Answered solvers final w a r) (event : Event) :
    t.Leads solvers final (8 * t.left + 1) .decide event (t.step solvers event) := by
  have hstay : ∀ {other}, other ≠ .decide →
      t.Leads solvers final (8 * t.left + 1) .decide other t :=
    fun hother => (Follows.looking hphase h).stay fun heq => absurd heq hother
  rw [step_deciding solvers hphase]
  cases event with
  | work i =>
    show t.Leads solvers final _ _ _ (t.work solvers i)
    rw [work_read h.seats i]
    exact hstay nofun
  | decide =>
    show t.Leads solvers final _ _ _ (t.decide solvers)
    rw [decide_busy h.seats h.steady h.check]
    exact (Follows.answered rfl h.waits).near (Nat.lt_succ_self _) rfl
  | tick | receive | deadline => exact hstay nofun

variable [Scalar.Ordered α]

omit [Scalar.Ordered α] in
/-- The manager reads a report that the search refuses. -/
theorem Answered.refused {w : Worker α} {a : Assignment α} {r : Report α} {e : Error α}
    {s : Search α} (h : t.Answered solvers final w a r)
    (happly : t.search.apply r = (.error e, s)) :
    Ended final (abort { t with search := s, seats := [⟨some w, none, [], []⟩] } e) (.error e)
      .complete (s.solution .failed .complete (some e.message)) where
  phase := rfl
  solution := rfl
  read i seat hseat n hn := by
    change [_][i]? = some seat at hseat
    rw [List.getElem?_singleton] at hseat
    split at hseat
    · cases hseat
      exact absurd (List.mem_singleton.mp hn) nofun
    · cases hseat
  final := by
    have hfinal := h.final
    unfold Serial.concluded at hfinal
    rw [happly] at hfinal
    exact hfinal.symm

/-- The manager reads a report that the search accepts, and tells the worker of nothing better than
the incumbent. -/
theorem Answered.accepted {w : Worker α} {a : Assignment α} {r : Report α} {stage : Stage}
    {s : Search α} (h : t.Answered solvers final w a r) (happly : t.search.apply r = (.ok stage, s))
    {told : List (Order α)}
    (htold : ∀ order ∈ told, ∃ point, order = .improve ⟨s.incumbent.value, point⟩) :
    Idle solvers final { t with
      search := s, seats := [⟨some w, none, told, []⟩], phase := .deciding } w told where
  seats := rfl
  cutoff := by
    have hincumbent := t.search.incumbent_apply r
    have hsettings := (t.search.counted_apply r).2
    rw [happly] at hincumbent hsettings
    rw [h.cutoff, ← hincumbent]
    show _ = s.cutoff
    unfold Search.cutoff
    rw [hsettings]
  stale order horder := by
    obtain ⟨point, rfl⟩ := htold order horder
    exact ⟨_, rfl, fun hlt => Scalar.not_le_of_lt hlt (Scalar.le_of_lt hlt)⟩
  steady := by
    have hsteady := h.steady.apply r
    rw [happly] at hsteady
    exact hsteady
  final := by
    have hfinal := h.final
    unfold Serial.concluded at hfinal
    rw [happly] at hfinal
    exact hfinal

/-- The manager reads the report. -/
theorem Answered.receive {w : Worker α} {a : Assignment α} {r : Report α}
    (h : t.Answered solvers final w a r) :
    let u := hear { t with seats := [⟨some w, some a, [], []⟩] } 0 (.reply (.report r))
    ∃ next dueNext, u.Follows solvers final next dueNext ∧ next < 8 * t.left
      ∧ u.memory = t.memory := by
  have hleft := Search.left_lt r h.check
  have htaken := takeIn_solo (t := { t with seats := [⟨some w, some a, [], []⟩] }) (a := a) rfl h.id
  rcases happly : t.search.apply r with ⟨e | stage, s⟩
  · rw [happly] at htaken
    unfold hear
    dsimp only
    rw [htaken]
    refine ⟨_, _, .ended (h.refused happly), ?_, rfl⟩
    rw [left]
    omega
  · rw [happly] at hleft htaken
    dsimp only at hleft
    -- the worker is told of the incumbent or of nothing
    have hshort : ∃ told : List (Order α), told.length ≤ 1
        ∧ (∀ order ∈ told, ∃ point, order = .improve ⟨s.incumbent.value, point⟩)
        ∧ takeIn { t with seats := [⟨some w, some a, [], []⟩] } 0 (.report r)
          = (.ok (), { t with search := s, seats := [⟨some w, none, told, []⟩] }) := by
      rw [htaken]
      dsimp only
      split
      · obtain ⟨told, hannounce, hlength, htold⟩ := announce_solo
          (t := { t with search := s, seats := [⟨some w, none, [], []⟩] }) rfl
        exact ⟨told, hlength, htold, hannounce⟩
      · exact ⟨[], Nat.zero_le _, fun _ horder => absurd horder List.not_mem_nil, rfl⟩
    obtain ⟨told, hlength, htold, hafter⟩ := hshort
    unfold hear
    dsimp only
    rw [hafter]
    refine ⟨_, _, .idle rfl (h.accepted happly htold), ?_, rfl⟩
    show 8 * (s.settings.maxNodes - s.stats.processed) + told.length + 3 < _
    rw [left]
    omega

/-- A run in which the worker has answered and the manager waits for that. -/
theorem Answered.step_waiting {w : Worker α} {a : Assignment α} {r : Report α}
    (hphase : t.phase = .waiting) (h : t.Answered solvers final w a r) (event : Event) :
    t.Leads solvers final (8 * t.left) (.receive 0) event (t.step solvers event) := by
  have hstay : ∀ {other}, other ≠ .receive 0 →
      t.Leads solvers final (8 * t.left) (.receive 0) other t :=
    fun hother => (Follows.answered hphase h).stay fun heq => absurd heq hother
  rw [Team.step_waiting solvers hphase]
  cases event with
  | work i =>
    show t.Leads solvers final _ _ _ (t.work solvers i)
    rw [work_read h.seats i]
    exact hstay nofun
  | tick =>
    -- the clock must not wake the manager, which is to read the report
    refine ⟨⟨_, _, .looking rfl ⟨h.seats, h.cutoff, h.steady, h.check, h.id, h.final⟩,
      fun hbusy => ?_⟩, .inl rfl⟩
    have hsilent := hbusy rfl
    rw [news?_solo h.seats] at hsilent
    cases hsilent
  | receive i =>
    show t.Leads solvers final _ _ _ ((t.news? i).elim t fun p => p.2.hear i p.1)
    by_cases hi : i = 0
    · subst hi
      rw [news?_solo h.seats]
      obtain ⟨next, dueNext, hfollows, hnext, hmemory⟩ := h.receive
      exact hfollows.near hnext hmemory
    · rw [news?_other h.seats hi]
      exact hstay (by simpa using hi)
  | decide | deadline => exact hstay nofun

omit [Scalar.Ordered α] in
/-- The manager finds that the search is over. -/
theorem Idle.over {w : Worker α} {orders : List (Order α)} {status : Status}
    (h : t.Idle solvers final w orders)
    (hcheck : (t.atTime solvers).search.check none = some status) :
    Ended final ((t.atTime solvers).finishDrain status) (.ok status) .complete
      (t.search.solution status .complete none) := by
  have hnow : (t.atTime solvers).seats = [⟨some w, none, orders, []⟩] := h.seats
  have hfinish : (t.atTime solvers).finishDrain status
      = { (t.atTime solvers).dismiss .everythingFine with
          phase := .ended (.ok status) .complete } := by
    refine ((finishDrain_cases _ status).resolve_right fun hsome => ?_).2
    rw [outNodes_solo_idle hnow] at hsome
    cases hsome.1
  rw [hfinish]
  refine ⟨rfl, rfl, fun i seat hseat n hn => ?_, ?_⟩
  · change ((t.atTime solvers).seats.map _)[i]? = some seat at hseat
    rw [hnow, List.map_singleton, List.getElem?_singleton] at hseat
    split at hseat
    · cases hseat
      rcases List.mem_append.mp hn with hold | hnew
      · -- what the worker has not read tells of points, and then to stop
        obtain ⟨c, hc, -⟩ := h.stale _ hold
        cases hc
      · exact absurd (List.mem_singleton.mp hnew) nofun
    · cases hseat
  · have hover : t.search.check none = some status :=
      (Search.check_atTime h.steady.plain _ none).symm.trans hcheck
    rw [← h.final]
    exact Serial.outcome_over h.steady.plain hover

/-- The manager hands out the next node. -/
theorem Idle.assigned (hs : (solvers 0).Reliable) (hdefined : (solvers 0).Defined) {w : Worker α}
    {orders : List (Order α)} (h : t.Idle solvers final w orders)
    (hcheck : (t.atTime solvers).search.check none = none) :
    ∃ n s r after, (t.atTime solvers).search.next = (.ok n, s)
      ∧ (t.atTime solvers).dispatch = (.ok (), { t with
          search := s
          seats := [⟨some w, some ⟨n, t.dispatched.length⟩, orders ++ [.process n], []⟩]
          dispatched := t.dispatched ++ [(n.id, 0)] })
      ∧ Assigned solvers final { t with
          search := s
          seats := [⟨some w, some ⟨n, t.dispatched.length⟩, orders ++ [.process n], []⟩]
          dispatched := t.dispatched ++ [(n.id, 0)]
          phase := .waiting } w ⟨n, t.dispatched.length⟩ orders r after := by
  have hsteady : (t.atTime solvers).search.Steady := h.steady.atTime _
  have hopen := Search.isEmpty_eq_false hcheck
  obtain ⟨n, s, hnext⟩ := Async.exists_next hsteady.consistent hopen
  obtain ⟨hcutoff, hincumbent, -, -⟩ := Search.next_frame hnext
  obtain ⟨r, after, hreport, hid⟩ :=
    processNode_returns hs hdefined n (t.atTime solvers).search.cutoff t.memory
  refine ⟨n, s, r, after, hnext, dispatch_solo_idle h.seats hopen hnext, rfl, ?_, ?_,
    hsteady.next hnext, Search.check_next hsteady.plain hsteady.consistent hnext hcheck, hid, ?_,
    ?_⟩
  · exact h.cutoff.trans hcutoff.symm
  · show Stale s.incumbent.value orders
    rw [hincumbent]
    exact h.stale
  · show (processNode (solvers 0) n s.cutoff).Returns t.memory r after
    rw [hcutoff]
    exact hreport
  · -- the serial search would process the same node under the same cutoff
    rw [← h.final, ← Serial.outcome_atTime]
    exact (Serial.outcome_next hsteady.plain hcheck hnext hreport).symm

/-- The manager looks at the search while the worker is on no node. -/
theorem Idle.decide (hs : (solvers 0).Reliable) (hdefined : (solvers 0).Defined) {w : Worker α}
    {orders : List (Order α)} (h : t.Idle solvers final w orders) :
    t.Leads solvers final (8 * t.left + orders.length + 3) .decide .decide (t.decide solvers) := by
  have hlowest : (t.atTime solvers).outLowest = none := outLowest_solo_idle h.seats
  rcases decide_cases solvers t with ⟨status, hcheck, heq⟩ | ⟨hcheck, hdispatch⟩
  · rw [hlowest] at hcheck
    rw [heq]
    refine (Follows.ended (h.over hcheck)).near (by omega) ?_
    -- with no node out the drain is over at once
    rcases finishDrain_cases (t.atTime solvers) status with ⟨-, hfinish⟩ | ⟨-, hfinish⟩
    · rw [hfinish]
      rfl
    · rw [hfinish]
      rfl
  · rw [hlowest] at hcheck
    obtain ⟨n, s, r, after, hnext, hu, hassigned⟩ := h.assigned hs hdefined hcheck
    obtain ⟨-, -, hsettings, hstats⟩ := Search.next_frame hnext
    rw [hu] at hdispatch
    rcases hdispatch with ⟨e, u, heq, -⟩ | ⟨u, heq, hdecide⟩
    · cases heq
    · cases heq
      have hwaiting : t.decide solvers = { t with
          search := s
          seats := [⟨some w, some ⟨n, t.dispatched.length⟩, orders ++ [.process n], []⟩]
          dispatched := t.dispatched ++ [(n.id, 0)]
          phase := .waiting } := hdecide
      rw [hwaiting]
      refine Follows.near (.assigned rfl hassigned) ?_ rfl
      show 8 * (s.settings.maxNodes - s.stats.processed) + orders.length + 2 < _
      rw [hsettings, hstats]
      exact Nat.lt_succ_self _

/-- A run in which the worker is on no node. -/
theorem Idle.step (hs : (solvers 0).Reliable) (hdefined : (solvers 0).Defined) {w : Worker α}
    {orders : List (Order α)} (hphase : t.phase = .deciding) (h : t.Idle solvers final w orders)
    (event : Event) :
    t.Leads solvers final (8 * t.left + orders.length + 3) .decide event
      (t.step solvers event) := by
  have hstay : ∀ {other}, other ≠ .decide →
      t.Leads solvers final (8 * t.left + orders.length + 3) .decide other t :=
    fun hother => (Follows.idle hphase h).stay fun heq => absurd heq hother
  rw [step_deciding solvers hphase]
  cases event with
  -- a stale announcement is read and forgotten, which is what makes the rank fall
  | work i =>
    show t.Leads solvers final _ _ _ (t.work solvers i)
    by_cases hi : i = 0
    · subst hi
      cases orders with
      | nil =>
        rw [work_read h.seats 0]
        exact hstay nofun
      | cons order rest =>
        have hidle : Idle solvers final { t with seats := [⟨some w, none, rest, []⟩] } w rest :=
          ⟨rfl, h.cutoff, h.stale.tail, h.steady, h.final⟩
        rw [work_solo h.seats (handle_stale solvers h.cutoff h.stale t.memory)]
        refine Follows.near (.idle hphase hidle) ?_ rfl
        show 8 * t.left + rest.length + 3 < _
        rw [List.length_cons]
        omega
    · rw [work_other h.seats hi]
      exact hstay nofun
  | decide => exact h.decide hs hdefined
  | tick | receive | deadline => exact hstay nofun

/-- Every event leads to a team that follows the serial search. -/
theorem Follows.step (hs : (solvers 0).Reliable) (hdefined : (solvers 0).Defined)
    (h : t.Follows solvers final rank due) (event : Event) :
    t.Leads solvers final rank due event (t.step solvers event) := by
  cases h with
  | idle hphase h => exact h.step hs hdefined hphase event
  | assigned hsearching h => exact h.step hsearching event
  | looking hphase h => exact h.step_looking hphase event
  | answered hphase h => exact h.step_waiting hphase event
  | ended h => exact h.step event

end BranchBound.Team
