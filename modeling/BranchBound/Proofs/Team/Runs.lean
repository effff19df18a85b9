import BranchBound.Proofs.Team.Seats
import BranchBound.Search.Progress

/-! # Runs of a team

A run is one event after the other. Here is said once what the parts of a step can do; the
invariants of runs are derived from that.

* **`Team.run`**, **`Team.Searching`** — runs, and the teams whose search is not over.
* **`Team.start_ok`** — the team at the start.
* **`Team.Effect`**, **`Team.effect_step`** — what an event can do.
* **`Team.work_cases`** — a worker handles an order, or nothing happens.
* **`Team.handing`** — a worker is given a node, or passed over, or there is none to give.
* **`Team.taking`**, **`Team.takeIn_ok`**, **`Team.takeIn_error`** — a reply is taken in, or
  refused.
* **`Team.hearing`**, **`Team.hearLate_cases`** — news reach the manager.
* **`Team.requeuing`**, **`Team.finishDrain_cases`** — a node is put back; the search is over.
* **`Team.each_work`**, **`each_takeIn`**, **`decide_frame`** — what holds of every seat, part by
  part.
* **`Team.later_step`** — no event takes back what was counted. -/

namespace BranchBound

variable {σ α : Type} [Scalar α]

/-- The seat of a worker that has handled an order, given the orders after it and the worker. -/
def Seat.served (seat : Seat α) (rest : List (Order α)) (w : Worker α) : Reaction α → Seat α
  | .answer reply =>
      { seat with worker := some w, orders := rest, replies := seat.replies ++ [reply] }
  | .note => { seat with worker := some w, orders := rest }
  | .stopped _ | .crashed => { seat with worker := none, orders := [] }

omit [Scalar α] in
/-- Handling an order takes it out of the queue. -/
theorem Seat.length_orders_served (seat : Seat α) (rest : List (Order α)) (w : Worker α)
    (reaction : Reaction α) : (seat.served rest w reaction).orders.length ≤ rest.length := by
  cases reaction with
  | answer | note => exact Nat.le_refl _
  | stopped | crashed => exact Nat.zero_le _

omit [Scalar α] in
/-- Handling an order is no business of the manager. -/
@[simp] theorem Seat.out_served (seat : Seat α) (rest : List (Order α)) (w : Worker α)
    (reaction : Reaction α) : (seat.served rest w reaction).out = seat.out := by
  cases reaction <;> rfl

/-- Whether the manager looks for nodes to hand out or waits for a reply. -/
def Phase.isSearching {α : Type} : Phase α → Bool
  | .deciding | .waiting => true
  | .draining _ | .ended .. => false

namespace Team

variable {solvers : Nat → Solvers σ α} {t u : Team σ α} {i : Nat}

/-! ## Runs -/

/-- The team after some events. -/
def run (solvers : Nat → Solvers σ α) (t : Team σ α) (events : List Event) : Team σ α :=
  events.foldl (fun t event => t.step solvers event) t

@[simp] theorem run_nil (t : Team σ α) : t.run solvers [] = t := rfl

@[simp] theorem run_cons (t : Team σ α) (event : Event) (rest : List Event) :
    t.run solvers (event :: rest) = (t.step solvers event).run solvers rest := rfl

@[simp] theorem run_append (t : Team σ α) (first rest : List Event) :
    t.run solvers (first ++ rest) = (t.run solvers first).run solvers rest :=
  List.foldl_append

/-- What every event keeps, every run keeps. -/
theorem run_of_step {P : Team σ α → Prop} (hstep : ∀ t event, P t → P (t.step solvers event))
    (h : P t) (events : List Event) : P (t.run solvers events) := by
  induction events generalizing t with
  | nil => exact h
  | cons event rest ih => exact ih (hstep t event h)

/-- The search of the team is not over. -/
def Searching (t : Team σ α) : Prop := t.phase.isSearching = true

instance (t : Team σ α) : Decidable t.Searching := inferInstanceAs (Decidable (_ = true))

omit [Scalar α] in
/-- The manager of a search that is not over looks at it or waits for a reply. -/
theorem searching_iff : t.Searching ↔ t.phase = .deciding ∨ t.phase = .waiting := by
  unfold Searching Phase.isSearching
  cases t.phase <;> simp

/-- The team once the manager has looked at the clock. -/
def atTime (solvers : Nat → Solvers σ α) (t : Team σ α) : Team σ α :=
  { t with search := t.search.atTime ((solvers 0).clock t.memory) }

/-- The team at the start of a search. -/
theorem start_ok {vars : List (Variable α)} {settings : Settings α} {memory : σ}
    (h : start vars settings memory = .ok t) :
    0 < settings.workers ∧ ∃ search, Search.new vars settings = .ok search
      ∧ t = { search, memory, dispatched := [], phase := .deciding
              seats := (List.range settings.workers).map fun i =>
                { worker := some ⟨i, search.cutoff⟩ } } := by
  unfold start at h
  split at h
  · cases h
  · next hworkers =>
    refine ⟨Nat.pos_of_ne_zero hworkers, ?_⟩
    cases hnew : Search.new vars settings with
    | error e =>
      rw [hnew] at h
      cases h
    | ok search =>
      rw [hnew] at h
      cases h
      exact ⟨search, rfl, rfl⟩

/-- At the start every worker is idle and has the cutoff of the search. -/
theorem each_start {vars : List (Variable α)} {settings : Settings α} {memory : σ}
    (h : start vars settings memory = .ok t) :
    t.Each fun i seat => seat = { worker := some ⟨i, t.search.cutoff⟩ } := by
  obtain ⟨-, search, -, rfl⟩ := start_ok h
  intro i seat hseat
  rw [List.getElem?_map, Option.map_eq_some_iff] at hseat
  obtain ⟨j, hj, rfl⟩ := hseat
  obtain ⟨hlt, rfl⟩ := List.getElem?_eq_some_iff.mp hj
  rw [List.getElem_range]

/-! ## What the parts of a step do -/

/-- There is no lowest score of the nodes that are out if none is. -/
theorem outLowest_eq_none (h : t.outNodes = []) : t.outLowest = none := by
  rw [outLowest, h]

/-- A worker that is there handles its oldest order. -/
theorem work_eq {seat : Seat α} {w v : Worker α} {order : Order α} {rest : List (Order α)}
    {reaction : Reaction α} {memory : σ} (hseat : t.seats[i]? = some seat)
    (hworker : seat.worker = some w) (horders : seat.orders = order :: rest)
    (hhandle : w.handle (solvers i) order t.memory = (reaction, v, memory)) :
    t.work solvers i = { t.modifySeat i fun _ => seat.served rest v reaction with memory } := by
  unfold work
  simp only [hseat, hworker, horders, hhandle]
  cases reaction <;> rfl

/-- A worker that is there handles its oldest order; otherwise nothing happens. -/
theorem work_cases (solvers : Nat → Solvers σ α) (i : Nat) (t : Team σ α) :
    t.work solvers i = t ∨ ∃ seat w order rest reaction v memory,
      t.seats[i]? = some seat ∧ seat.worker = some w ∧ seat.orders = order :: rest
        ∧ w.handle (solvers i) order t.memory = (reaction, v, memory)
        ∧ t.work solvers i
          = { t.modifySeat i fun _ => seat.served rest v reaction with memory } := by
  -- three things must be there: the seat, a worker on it and an order
  cases hseat : t.seats[i]? with
  | none =>
    left
    unfold work
    simp only [hseat]
  | some seat =>
    cases hworker : seat.worker with
    | none =>
      left
      unfold work
      simp only [hseat, hworker]
    | some w =>
      cases horders : seat.orders with
      | nil =>
        left
        unfold work
        simp only [hseat, hworker, horders]
      | cons order rest =>
        right
        rcases hhandle : w.handle (solvers i) order t.memory with ⟨reaction, v, memory⟩
        exact ⟨seat, w, order, rest, reaction, v, memory, rfl, hworker, horders, hhandle,
          work_eq hseat hworker horders hhandle⟩

/-- What an event can do to a team. -/
inductive Effect (solvers : Nat → Solvers σ α) (t : Team σ α) : Event → Team σ α → Prop
  /-- The event cannot happen. -/
  | nothing {event : Event} : Effect solvers t event t
  /-- A worker handles an order. -/
  | work (i : Nat) : Effect solvers t (.work i) (t.work solvers i)
  /-- The manager looks at the search. -/
  | decide (hphase : t.phase = .deciding) : Effect solvers t .decide (t.decide solvers)
  /-- The manager is about to look at the search. -/
  | tick (hphase : t.phase = .waiting) : Effect solvers t .tick { t with phase := .deciding }
  /-- News reach a manager that is searching. -/
  | hear {i : Nat} {news : News α} {u : Team σ α} (hphase : t.phase = .waiting)
      (hnews : t.news? i = some (news, u)) : Effect solvers t (.receive i) (u.hear i news)
  /-- News reach a manager that waits for late results. -/
  | hearLate {i : Nat} {news : News α} {u : Team σ α} {status : Status}
      (hphase : t.phase = .draining status) (hnews : t.news? i = some (news, u)) :
      Effect solvers t (.receive i) ((u.hearLate i news).finishDrain status)
  /-- The time for late results is over. -/
  | deadline {status : Status} (hphase : t.phase = .draining status) :
      Effect solvers t .deadline
        { ((List.range t.seats.length).foldl requeue t).dismiss .everythingFine with
          phase := .ended (.ok status) .workersActive }

/-- An event does one of these things. -/
theorem effect_step (solvers : Nat → Solvers σ α) (t : Team σ α) (event : Event) :
    Effect solvers t event (t.step solvers event) := by
  unfold step
  split
  · exact .work _
  · next hphase => exact .decide hphase
  · next hphase => exact .tick hphase
  · next hphase =>
    split
    · next hnews => exact .hear hphase hnews
    · exact .nothing
  · next hphase =>
    split
    · next hnews => exact .hearLate hphase hnews
    · exact .nothing
  · next hphase => exact .deadline hphase
  · exact .nothing

/-- A manager that is about to look at the search does not read replies. -/
theorem step_deciding (solvers : Nat → Solvers σ α) (h : t.phase = .deciding) (event : Event) :
    t.step solvers event = match event with
      | .work i => t.work solvers i
      | .decide => t.decide solvers
      | .tick | .receive _ | .deadline => t := by
  unfold step
  rw [h]
  cases event <;> rfl

/-- A manager that waits reads replies until the clock wakes it. -/
theorem step_waiting (solvers : Nat → Solvers σ α) (h : t.phase = .waiting) (event : Event) :
    t.step solvers event = match event with
      | .work i => t.work solvers i
      | .tick => { t with phase := .deciding }
      | .receive i => (t.news? i).elim t fun p => p.2.hear i p.1
      | .decide | .deadline => t := by
  unfold step
  rw [h]
  cases event with
  | receive i =>
    dsimp only
    cases t.news? i <;> rfl
  | _ => rfl

/-- A manager whose search has ended does nothing. -/
theorem step_ended (solvers : Nat → Solvers σ α) {result : Except (Error α) Status}
    {termination : Termination} (h : t.phase = .ended result termination) (event : Event) :
    t.step solvers event = match event with
      | .work i => t.work solvers i
      | .decide | .tick | .receive _ | .deadline => t := by
  unfold step
  rw [h]
  cases event <;> rfl

/-- The manager finds that the search is over, or hands out nodes, which may fail. -/
theorem decide_cases (solvers : Nat → Solvers σ α) (t : Team σ α) :
    (∃ status, (t.atTime solvers).search.check (t.atTime solvers).outLowest = some status
        ∧ t.decide solvers = (t.atTime solvers).finishDrain status)
      ∨ (t.atTime solvers).search.check (t.atTime solvers).outLowest = none
        ∧ ((∃ e u, (t.atTime solvers).dispatch = (.error e, u) ∧ t.decide solvers = u.abort e)
          ∨ ∃ u, (t.atTime solvers).dispatch = (.ok (), u) ∧ t.decide solvers
            = { u with phase := if u.outNodes.isEmpty then .deciding else .waiting }) := by
  unfold decide
  dsimp only
  split
  · next status hcheck => exact .inl ⟨status, hcheck, rfl⟩
  · next hcheck =>
    refine .inr ⟨hcheck, ?_⟩
    split
    · next e u hdispatch => exact .inl ⟨e, u, hdispatch, rfl⟩
    · next u hdispatch => exact .inr ⟨u, hdispatch, rfl⟩

/-- How handing out nodes goes on at a worker. -/
inductive Handing (t : Team σ α) (i : Nat) (rest : List Nat) :
    Except (Error α) Unit × Team σ α → Prop
  /-- The worker is on a node. -/
  | busy {seat : Seat α} (hseat : t.seats[i]? = some seat) (hout : seat.out.isSome = true) :
      Handing t i rest (dispatchTo rest t)
  /-- No node is open. -/
  | exhausted (hempty : t.search.brancher.frontier.isEmpty = true) : Handing t i rest (.ok (), t)
  /-- No node can be taken. -/
  | failed {e : Error α} {search : Search α} (hnext : t.search.next = (.error e, search)) :
      Handing t i rest (.error e, { t with search })
  /-- The worker is gone. -/
  | gone {node : Node α} {search : Search α} (hnext : t.search.next = (.ok node, search)) :
      Handing t i rest (.error (.channelClosed (.workerGone i)), { t with search })
  /-- The worker is given a node. -/
  | given {seat : Seat α} {node : Node α} {search : Search α}
      (hopen : t.search.brancher.frontier.isEmpty = false)
      (hnext : t.search.next = (.ok node, search)) (hseat : t.seats[i]? = some seat)
      (hout : seat.out = none) :
      Handing t i rest (dispatchTo rest (({ t with search } : Team σ α).give i node))

/-- Handing out nodes goes on in one of these ways. -/
theorem handing (i : Nat) (rest : List Nat) (t : Team σ α) :
    Handing t i rest (dispatchTo (i :: rest) t) := by
  unfold dispatchTo
  split
  · next hbusy =>
    obtain ⟨seat, hseat, hout⟩ := (Option.any_eq_true _ _).mp hbusy
    exact .busy hseat hout
  · next hidle =>
    split
    · next hempty => exact .exhausted hempty
    · next hopen =>
      rcases hnext : t.search.next with ⟨e | node, search⟩
      · exact .failed hnext
      · dsimp only
        cases hsend : ({ t with search } : Team σ α).send? i (.process node) with
        | none => exact .gone hnext
        | some v =>
          -- the search was advanced before the node is sent, the seats were not
          obtain ⟨seat, hseat, -, rfl⟩ := send?_eq_some hsend
          have hseat : t.seats[i]? = some seat := hseat
          refine .given (eq_false_of_ne_true hopen) hnext hseat ?_
          rw [hseat] at hidle
          simpa using hidle

/-- The team once the report of a worker was taken in, before a better point is announced. -/
def accept (t : Team σ α) (i : Nat) (r : Report α) : Team σ α :=
  { t.release i with search := (t.search.apply r).2 }

/-- How a reply is taken in. -/
inductive Taking (t : Team σ α) (i : Nat) : Reply α → Except (Error α) Unit × Team σ α → Prop
  /-- The worker has failed, and stays on its node. -/
  | failed {text : String} : Taking t i (.failed text) (.error (.workerFailed i text), t)
  /-- The report is about another node than the one the worker is on. -/
  | mistaken {r : Report α} {expected : Option Nat}
      (hexpected : (t.seats[i]?.bind (·.out)).map (·.node.id) = expected)
      (hid : expected ≠ some r.node.id) :
      Taking t i (.report r) (.error (.protocol (.wrongReport i r.node.id expected)), t.release i)
  /-- The search refuses the report. -/
  | refused {r : Report α} {e : Error α} {search : Search α}
      (hid : (t.seats[i]?.bind (·.out)).map (·.node.id) = some r.node.id)
      (happly : t.search.apply r = (.error e, search)) :
      Taking t i (.report r) (.error e, t.accept i r)
  /-- The report brings a better point, which is announced. -/
  | better {r : Report α} {stage : Stage} {search : Search α}
      (hid : (t.seats[i]?.bind (·.out)).map (·.node.id) = some r.node.id)
      (happly : t.search.apply r = (.ok stage, search))
      (hbetter : search.incumbent.value < t.search.incumbent.value) :
      Taking t i (.report r) (t.accept i r).announce
  /-- The report brings no better point. -/
  | accepted {r : Report α} {stage : Stage} {search : Search α}
      (hid : (t.seats[i]?.bind (·.out)).map (·.node.id) = some r.node.id)
      (happly : t.search.apply r = (.ok stage, search))
      (hworse : ¬ search.incumbent.value < t.search.incumbent.value) :
      Taking t i (.report r) (.ok (), t.accept i r)

/-- A reply is taken in in one of these ways. -/
theorem taking (t : Team σ α) (i : Nat) (reply : Reply α) :
    Taking t i reply (t.takeIn i reply) := by
  unfold takeIn
  cases reply with
  | failed text => exact .failed
  | report r =>
    -- accepting a report gives the node back whether or not the search takes the report in
    have haccept : t.accept i r = { t.release i with search := (t.search.apply r).2 } := rfl
    dsimp only
    split
    · next hid => exact .mistaken rfl hid
    · next hid =>
      rw [not_not] at hid
      split
      · next e search happly =>
        rw [show t.search.apply r = (.error e, search) from happly] at haccept
        exact haccept ▸ .refused hid happly
      · next stage search happly =>
        rw [show t.search.apply r = (.ok stage, search) from happly] at haccept
        split
        · next hbetter => exact haccept ▸ .better hid happly hbetter
        · next hworse => exact haccept ▸ .accepted hid happly hworse

/-- A reply that is taken in is a report on the node that the worker is on. If it brings a better
point, the point is announced. -/
theorem takeIn_ok {reply : Reply α} (h : t.takeIn i reply = (.ok (), u)) :
    ∃ seat a r stage search, reply = .report r ∧ t.seats[i]? = some seat ∧ seat.out = some a
      ∧ r.node.id = a.node.id ∧ t.search.apply r = (.ok stage, search)
      ∧ (search.incumbent.value < t.search.incumbent.value ∧ (t.accept i r).announce = (.ok (), u)
        ∨ ¬ search.incumbent.value < t.search.incumbent.value ∧ u = t.accept i r) := by
  -- an id that is expected is that of a node the worker is on
  have hseat : ∀ {r : Report α}, (t.seats[i]?.bind (·.out)).map (·.node.id) = some r.node.id →
      ∃ seat a, t.seats[i]? = some seat ∧ seat.out = some a ∧ r.node.id = a.node.id := by
    intro r hid
    obtain ⟨a, ha, hid⟩ := Option.map_eq_some_iff.mp hid
    obtain ⟨seat, hseat, hout⟩ := Option.bind_eq_some_iff.mp ha
    exact ⟨seat, a, hseat, hout, hid.symm⟩
  have htaking := taking t i reply
  generalize t.takeIn i reply = result at htaking h
  cases htaking with
  | failed | mistaken | refused => cases h
  | @better r stage search hid happly hbetter =>
    obtain ⟨seat, a, hseat, hout, hid⟩ := hseat hid
    exact ⟨seat, a, r, stage, search, rfl, hseat, hout, hid, happly, .inl ⟨hbetter, h⟩⟩
  | @accepted r stage search hid happly hworse =>
    obtain ⟨seat, a, hseat, hout, hid⟩ := hseat hid
    cases h
    exact ⟨seat, a, r, stage, search, rfl, hseat, hout, hid, happly, .inr ⟨hworse, rfl⟩⟩

/-- A reply is refused if it is a failure, if it is about another node than the one the worker is
on, if the search refuses the report, or if a worker is gone that should be told of a better
point. -/
theorem takeIn_error {reply : Reply α} {e : Error α} (h : t.takeIn i reply = (.error e, u)) :
    (∃ text, reply = .failed text ∧ e = .workerFailed i text)
      ∨ ∃ r, reply = .report r
        ∧ ((t.seats[i]?.bind (·.out)).map (·.node.id) ≠ some r.node.id
          ∨ (∃ search, t.search.apply r = (.error e, search))
          ∨ ∃ u, (t.accept i r).announce = (.error e, u)) := by
  have htaking := taking t i reply
  generalize t.takeIn i reply = result at htaking h
  cases htaking with
  | @failed text =>
    cases h
    exact .inl ⟨text, rfl, rfl⟩
  | @mistaken r expected hexpected hid => exact .inr ⟨r, rfl, .inl (hexpected ▸ hid)⟩
  | @refused r cause search hid happly =>
    cases h
    exact .inr ⟨r, rfl, .inr (.inl ⟨search, happly⟩)⟩
  | @better r => exact .inr ⟨r, rfl, .inr (.inr ⟨u, h⟩)⟩
  | accepted => cases h

/-- What becomes of news that reach a searching manager. -/
inductive Hearing (t : Team σ α) (i : Nat) : News α → Team σ α → Prop
  /-- The worker is gone. -/
  | gone : Hearing t i .gone (t.abort (.channelClosed (.workerGone i)))
  /-- The reply is refused. -/
  | refused {reply : Reply α} {e : Error α} {u : Team σ α}
      (htake : t.takeIn i reply = (.error e, u)) : Hearing t i (.reply reply) (u.abort e)
  /-- The reply is taken in. -/
  | taken {reply : Reply α} {u : Team σ α} (htake : t.takeIn i reply = (.ok (), u)) :
      Hearing t i (.reply reply) { u with phase := .deciding }

/-- A searching manager hears news in one of these ways. -/
theorem hearing (t : Team σ α) (i : Nat) (news : News α) : Hearing t i news (t.hear i news) := by
  unfold hear
  cases news with
  | gone => exact .gone
  | reply reply =>
    dsimp only
    split
    · next htake => exact .refused htake
    · next htake => exact .taken htake

/-- A late report is taken in; on other late news the node is put back. -/
theorem hearLate_cases (t : Team σ α) (i : Nat) (news : News α) :
    t.hearLate i news = t.requeue i
      ∨ ∃ r, news = .reply (.report r) ∧ t.hearLate i news = (t.takeIn i (.report r)).2 := by
  unfold hearLate
  split
  · next r => exact .inr ⟨r, rfl, rfl⟩
  · exact .inl rfl
  · exact .inl rfl

/-- What becomes of the node of a worker that is to be put back. -/
inductive Requeuing (t : Team σ α) (i : Nat) : Team σ α → Prop
  /-- The worker is on no node. -/
  | idle (hout : t.seats[i]?.bind (·.out) = none) : Requeuing t i t
  /-- The search does not wait for the node; the worker is released even so. -/
  | refused {seat : Seat α} {a : Assignment α} {e : Error α} {b : Brancher α}
      (hseat : t.seats[i]? = some seat) (hout : seat.out = some a)
      (hcancel : t.search.brancher.cancel a.node.id = (.error e, b)) : Requeuing t i (t.release i)
  /-- The node is put back. -/
  | putBack {seat : Seat α} {a : Assignment α} {b : Brancher α}
      (hseat : t.seats[i]? = some seat) (hout : seat.out = some a)
      (hcancel : t.search.brancher.cancel a.node.id = (.ok (), b)) :
      Requeuing t i { t.release i with
        search := { t.search with brancher := (b.insertNode a.node).2 } }

/-- One of these things becomes of it. -/
theorem requeuing (t : Team σ α) (i : Nat) : Requeuing t i (t.requeue i) := by
  unfold requeue
  split
  · next hout => exact .idle hout
  · next a ha =>
    obtain ⟨seat, hseat, hout⟩ := Option.bind_eq_some_iff.mp ha
    dsimp only
    split
    · next hcancel => exact .refused hseat hout hcancel
    · next hcancel => exact .putBack hseat hout hcancel

omit [Scalar α] in
/-- A search that is over ends if no node is out, and otherwise waits for late results. -/
theorem finishDrain_cases (t : Team σ α) (status : Status) :
    t.outNodes.isEmpty = true ∧ t.finishDrain status
        = { t.dismiss .everythingFine with phase := .ended (.ok status) .complete }
      ∨ t.outNodes.isEmpty = false ∧ t.finishDrain status
        = { t with phase := .draining status } := by
  unfold finishDrain
  split
  · next hempty => exact .inl ⟨hempty, rfl⟩
  · next hsome => exact .inr ⟨eq_false_of_ne_true hsome, rfl⟩

/-! ## What the manager does to the seats -/

variable {P : Nat → Seat α → Prop}

/-- Handing out nodes gives some to idle workers and does not touch the incumbent. -/
theorem dispatchTo_frame
    (hgive : ∀ i seat node turn, seat.out = none → P i seat → P i (seat.give node turn))
    (is : List Nat) (ht : t.Each P) :
    (dispatchTo is t).2.Each P
      ∧ (dispatchTo is t).2.search.incumbent = t.search.incumbent := by
  induction is generalizing t with
  | nil => exact ⟨ht, rfl⟩
  | cons i rest ih =>
    -- a node that is taken leaves the incumbent alone
    have hsame : t.search.next.2.incumbent = t.search.incumbent := rfl
    have hcases := handing i rest t
    generalize dispatchTo (i :: rest) t = result at hcases ⊢
    cases hcases with
    | busy => exact ih ht
    | exhausted => exact ⟨ht, rfl⟩
    | failed hnext | gone hnext =>
      rw [hnext] at hsame
      exact ⟨ht, hsame⟩
    | @given seat node search _ hnext hseat hout =>
      rw [hnext] at hsame
      have hgiven : (({ t with search } : Team σ α).give i node).Each P := by
        refine (Each.modify_same (f := (·.give node t.dispatched.length)) ht
          fun old hold hkept => ?_).of_eq (seats_give _ i node)
        cases hseat.symm.trans hold
        exact hgive i seat node t.dispatched.length hout hkept
      obtain ⟨heach, hincumbent⟩ := ih hgiven
      exact ⟨heach, hincumbent.trans hsame⟩

omit [Scalar α] in
/-- Dismissing the workers tells some of them to stop. -/
theorem each_dismiss (hstop : ∀ i seat tag, P i seat → P i (seat.push (.stop tag))) (tag : Tag)
    (ht : t.Each P) : (t.dismiss tag).Each P := by
  intro i seat hseat
  change (t.seats.map fun seat => if seat.worker.isSome then
    { seat with orders := seat.orders ++ [.stop tag] } else seat)[i]? = some seat at hseat
  rw [List.getElem?_map, Option.map_eq_some_iff] at hseat
  obtain ⟨old, hold, rfl⟩ := hseat
  split
  · exact hstop i old tag (ht i old hold)
  · exact ht i old hold

/-- Putting a node back takes it from its worker and does not touch the incumbent. -/
theorem requeue_frame (hout : ∀ i seat, P i seat → P i { seat with out := none }) (i : Nat)
    (ht : t.Each P) :
    (t.requeue i).Each P ∧ (t.requeue i).search.incumbent = t.search.incumbent := by
  have hreleased : (t.release i).Each P := ht.modify_same fun seat _ hseat => hout i seat hseat
  have hrequeuing := requeuing t i
  generalize t.requeue i = after at hrequeuing ⊢
  cases hrequeuing with
  | idle => exact ⟨ht, rfl⟩
  | refused | putBack => exact ⟨hreleased, rfl⟩

/-- Putting nodes back takes them from their workers and does not touch the incumbent. -/
theorem foldl_requeue_frame (hout : ∀ i seat, P i seat → P i { seat with out := none })
    (is : List Nat) (ht : t.Each P) :
    (is.foldl requeue t).Each P
      ∧ (is.foldl requeue t).search.incumbent = t.search.incumbent := by
  induction is generalizing t with
  | nil => exact ⟨ht, rfl⟩
  | cons i rest ih =>
    obtain ⟨hone, hsame⟩ := requeue_frame hout i ht
    obtain ⟨hrest, hlast⟩ := ih hone
    exact ⟨hrest, hlast.trans hsame⟩

omit [Scalar α] in
/-- Whether the wait for late results is over or not, the incumbent is what it was. -/
theorem finishDrain_frame (hstop : ∀ i seat tag, P i seat → P i (seat.push (.stop tag)))
    (status : Status) (ht : t.Each P) :
    (t.finishDrain status).Each P ∧ (t.finishDrain status).search = t.search := by
  rcases finishDrain_cases t status with ⟨-, heq⟩ | ⟨-, heq⟩
  · rw [heq]
    exact ⟨(each_dismiss hstop .everythingFine ht).of_eq rfl, rfl⟩
  · rw [heq]
    exact ⟨ht.of_eq rfl, rfl⟩

/-- Looking at the search gives idle workers nodes or tells workers to stop, and does not touch the
incumbent. -/
theorem decide_frame (solvers : Nat → Solvers σ α)
    (hgive : ∀ i seat node turn, seat.out = none → P i seat → P i (seat.give node turn))
    (hstop : ∀ i seat tag, P i seat → P i (seat.push (.stop tag))) (ht : t.Each P) :
    (t.decide solvers).Each P
      ∧ (t.decide solvers).search.incumbent = t.search.incumbent := by
  have hnow : (t.atTime solvers).Each P := ht
  -- the search is dispatched from as it stands at this time, with the same seats
  have hdispatch : (t.atTime solvers).dispatch.2.Each P
      ∧ (t.atTime solvers).dispatch.2.search.incumbent = t.search.incumbent :=
    dispatchTo_frame hgive (List.range t.seats.length) hnow
  rcases decide_cases solvers t with ⟨status, -, heq⟩ | ⟨-, ⟨e, u, hu, heq⟩ | ⟨u, hu, heq⟩⟩
  · obtain ⟨hfinished, hsearch⟩ := finishDrain_frame hstop status hnow
    rw [heq, hsearch]
    exact ⟨hfinished, rfl⟩
  · rw [hu] at hdispatch
    rw [heq]
    exact ⟨(each_dismiss hstop .exception hdispatch.1).of_eq rfl, hdispatch.2⟩
  · rw [hu] at hdispatch
    rw [heq]
    exact ⟨hdispatch.1.of_eq rfl, hdispatch.2⟩

/-- A worker that handles an order changes its own seat. -/
theorem each_work (solvers : Nat → Solvers σ α) (i : Nat) (ht : t.Each P)
    (hserved : ∀ {seat w v order rest reaction memory}, t.seats[i]? = some seat →
      seat.worker = some w → seat.orders = order :: rest →
      w.handle (solvers i) order t.memory = (reaction, v, memory) → P i seat →
      P i (seat.served rest v reaction)) : (t.work solvers i).Each P := by
  rcases work_cases solvers i t
    with heq | ⟨seat, w, order, rest, reaction, v, memory, hseat, hw, horders, hhandle, heq⟩
  · rw [heq]
    exact ht
  · rw [heq]
    refine Each.of_eq (t := t.modifySeat i fun _ => seat.served rest v reaction) ?_ rfl
    refine ht.modify_same fun old hold hkept => ?_
    cases hseat.symm.trans hold
    exact hserved hseat hw horders hhandle hkept

/-- Taking in a report takes its node from the worker, and a better point is announced. -/
theorem each_takeIn (himprove : ∀ i seat c, P i seat → P i (seat.push (.improve c)))
    (ht : (t.release i).Each P) (r : Report α) : (t.takeIn i (.report r)).2.Each P := by
  have haccept : (t.accept i r).Each P := ht.of_eq rfl
  have htaking := taking t i (.report r)
  generalize t.takeIn i (.report r) = result at htaking ⊢
  cases htaking with
  | mistaken => exact ht
  | refused | accepted => exact haccept
  | better => exact (announce_frame himprove haccept).1

/-- When news reach a searching manager, a reply is taken in, or workers are told to stop. -/
theorem each_hear (hstop : ∀ i seat tag, P i seat → P i (seat.push (.stop tag))) {news : News α}
    (ht : t.Each P) (htake : ∀ reply, news = .reply reply → (t.takeIn i reply).2.Each P) :
    (t.hear i news).Each P := by
  have hhearing := hearing t i news
  generalize t.hear i news = after at hhearing ⊢
  cases hhearing with
  | gone => exact (each_dismiss hstop .exception ht).of_eq rfl
  | @refused reply _ _ heq =>
    have htaken := htake reply rfl
    rw [heq] at htaken
    exact (each_dismiss hstop .exception htaken).of_eq rfl
  | @taken reply _ heq =>
    have htaken := htake reply rfl
    rw [heq] at htaken
    exact htaken.of_eq rfl

/-- A property of seats that the manager does not break, whatever it sends or reads and to whomever
it gives nodes. -/
structure Kept (P : Nat → Seat α → Prop) : Prop where
  /-- An order is sent. -/
  push : ∀ i seat order, P i seat → P i (seat.push order)
  /-- A node is given or taken back. -/
  assign : ∀ i seat out, P i seat → P i { seat with out }
  /-- The oldest replies are read. -/
  read : ∀ i seat replies, replies <:+ seat.replies → P i seat → P i { seat with replies }

/-- Taking in a reply keeps such a property. -/
theorem Kept.takeIn (h : Kept P) (i : Nat) (reply : Reply α) (ht : t.Each P) :
    (t.takeIn i reply).2.Each P := by
  cases reply with
  | failed text => exact ht
  | report r =>
    refine each_takeIn (fun i seat c hseat => h.push i seat _ hseat) ?_ r
    exact ht.modify_same fun seat _ hseat => h.assign i seat none hseat

/-- What the manager does keeps such a property. -/
theorem Kept.effect (h : Kept P) {event : Event} (heffect : Effect solvers t event u)
    (hevent : ∀ i, event ≠ .work i) (ht : t.Each P) : u.Each P := by
  have hgive : ∀ i seat node turn, seat.out = none → P i seat → P i (seat.give node turn) :=
    fun i seat node turn _ hseat => h.assign i _ (some ⟨node, turn⟩) (h.push i seat _ hseat)
  have hstop : ∀ i seat tag, P i seat → P i (seat.push (.stop tag)) :=
    fun i seat tag hseat => h.push i seat _ hseat
  have hout : ∀ i seat, P i seat → P i { seat with out := none } :=
    fun i seat hseat => h.assign i seat none hseat
  -- reading takes replies off the front of one seat, or nothing off any
  have hread : ∀ {i news v}, t.news? i = some (news, v) → v.Each P := by
    intro i news v hnews
    obtain ⟨seat, hseat, -, ⟨reply, rest, -, hreplies, rfl⟩ | ⟨-, -, rfl⟩⟩ := news?_eq_some hnews
    · refine ht.modify_same fun old hold hkept => ?_
      rw [hseat] at hold
      cases hold
      exact h.read i seat rest (hreplies ▸ List.suffix_cons reply rest) hkept
    · exact ht
  cases heffect with
  | nothing => exact ht
  | work i => exact absurd rfl (hevent i)
  | decide => exact (decide_frame solvers hgive hstop ht).1
  | tick => exact ht.of_eq rfl
  | @hear i news v _ hnews =>
    exact each_hear hstop (hread hnews) fun reply _ => h.takeIn i reply (hread hnews)
  | @hearLate i news v status _ hnews =>
    refine (finishDrain_frame hstop status ?_).1
    rcases hearLate_cases v i news with heq | ⟨r, -, heq⟩
    · rw [heq]
      exact (requeue_frame hout i (hread hnews)).1
    · rw [heq]
      exact h.takeIn i _ (hread hnews)
  | deadline =>
    exact (each_dismiss hstop .everythingFine (foldl_requeue_frame hout _ ht).1).of_eq rfl

/-! ## What was counted stays counted -/

/-- Handing out nodes counts none. -/
theorem later_dispatchTo (is : List Nat) (t : Team σ α) :
    Search.Later t.search (dispatchTo is t).2.search := by
  induction is generalizing t with
  | nil => exact .refl _
  | cons i rest ih =>
    have hlater := Search.later_next t.search
    have hcases := handing i rest t
    generalize dispatchTo (i :: rest) t = result at hcases ⊢
    cases hcases with
    | busy => exact ih t
    | exhausted => exact .refl _
    | failed hnext | gone hnext =>
      rw [hnext] at hlater
      exact hlater
    | @given _ node search _ hnext =>
      rw [hnext] at hlater
      exact hlater.trans (ih (({ t with search } : Team σ α).give i node))

/-- Taking in a reply takes back no count. -/
theorem later_takeIn (t : Team σ α) (i : Nat) (reply : Reply α) :
    Search.Later t.search (t.takeIn i reply).2.search := by
  have haccept : ∀ r, Search.Later t.search (t.accept i r).search :=
    fun r => (Search.counted_apply t.search r).later
  have htaking := taking t i reply
  generalize t.takeIn i reply = result at htaking ⊢
  cases htaking with
  | failed | mistaken => exact .refl _
  | @refused r | @accepted r => exact haccept r
  | @better r =>
    rw [(announce_same (t.accept i r)).1]
    exact haccept r

/-- Putting a node back counts none. -/
theorem later_requeue (t : Team σ α) (i : Nat) : Search.Later t.search (t.requeue i).search := by
  have hrequeuing := requeuing t i
  generalize t.requeue i = after at hrequeuing ⊢
  cases hrequeuing with
  | idle | refused | putBack => exact .refl _

/-- Putting nodes back counts none. -/
theorem later_foldl_requeue (is : List Nat) (t : Team σ α) :
    Search.Later t.search (is.foldl requeue t).search := by
  induction is generalizing t with
  | nil => exact .refl _
  | cons i rest ih => exact (later_requeue t i).trans (ih _)

omit [Scalar α] in
/-- A search that is over stays so. -/
theorem not_searching_finishDrain (t : Team σ α) (status : Status) :
    ¬ (t.finishDrain status).Searching := by
  rcases finishDrain_cases t status with ⟨-, heq⟩ | ⟨-, heq⟩ <;> rw [heq]
  · exact Bool.false_ne_true
  · exact Bool.false_ne_true

omit [Scalar α] in
/-- Whether the wait for late results is over is no business of the search. -/
theorem search_finishDrain (t : Team σ α) (status : Status) :
    (t.finishDrain status).search = t.search := by
  rcases finishDrain_cases t status with ⟨-, heq⟩ | ⟨-, heq⟩ <;> rw [heq]
  rfl

/-- Handling an order is no business of the manager. -/
theorem work_frame (solvers : Nat → Solvers σ α) (t : Team σ α) (i : Nat) :
    (t.work solvers i).search = t.search ∧ (t.work solvers i).phase = t.phase
      ∧ (t.work solvers i).outNodes = t.outNodes
      ∧ (t.work solvers i).seats.length = t.seats.length := by
  rcases work_cases solvers i t
    with heq | ⟨seat, w, order, rest, reaction, v, memory, hseat, -, -, -, heq⟩
  · rw [heq]
    exact ⟨rfl, rfl, rfl, rfl⟩
  · rw [heq]
    refine ⟨rfl, rfl, ?_, length_modifySeat⟩
    refine outNodes_modifySeat (f := fun _ => seat.served rest v reaction) fun old hold => ?_
    rw [hseat] at hold
    cases hold
    exact seat.out_served rest v reaction

/-- Looking at the search counts no node. -/
theorem later_decide (t : Team σ α) : Search.Later t.search (t.decide solvers).search := by
  have hdispatch : Search.Later t.search (t.atTime solvers).dispatch.2.search :=
    later_dispatchTo (List.range t.seats.length) (t.atTime solvers)
  rcases decide_cases solvers t with ⟨status, -, heq⟩ | ⟨-, ⟨e, u, hu, heq⟩ | ⟨u, hu, heq⟩⟩
  · rw [heq, search_finishDrain]
    exact .refl _
  · rw [hu] at hdispatch
    rw [heq]
    exact hdispatch
  · rw [hu] at hdispatch
    rw [heq]
    exact hdispatch

/-- News that reach a searching manager take back no count. -/
theorem later_hear (t : Team σ α) (i : Nat) (news : News α) :
    Search.Later t.search (t.hear i news).search := by
  have hhearing := hearing t i news
  generalize t.hear i news = after at hhearing ⊢
  cases hhearing with
  | gone => exact .refl _
  | @refused reply _ _ htake | @taken reply _ htake =>
    have hlater := later_takeIn t i reply
    rw [htake] at hlater
    exact hlater

/-- News that reach a manager who waits for late results take back no count. -/
theorem later_hearLate (t : Team σ α) (i : Nat) (news : News α) :
    Search.Later t.search (t.hearLate i news).search := by
  rcases hearLate_cases t i news with heq | ⟨r, -, heq⟩
  · rw [heq]
    exact later_requeue t i
  · rw [heq]
    exact later_takeIn t i (.report r)

omit [Scalar α] in
/-- Reading the news of a worker is no business of the search. -/
theorem search_news {news : News α} (h : t.news? i = some (news, u)) : u.search = t.search := by
  obtain ⟨seat, -, -, ⟨reply, rest, -, -, rfl⟩ | ⟨-, -, rfl⟩⟩ := news?_eq_some h
  · rfl
  · rfl

/-- No event takes back the count of processed nodes or changes the settings. -/
theorem later_step (solvers : Nat → Solvers σ α) (t : Team σ α) (event : Event) :
    Search.Later t.search (t.step solvers event).search := by
  have heffect := effect_step solvers t event
  generalize t.step solvers event = after at heffect ⊢
  cases heffect with
  | nothing => exact .refl _
  | work i =>
    rw [(work_frame solvers t i).1]
    exact .refl _
  | decide hphase => exact later_decide t
  | tick hphase => exact .refl _
  | @hear i news u hphase hnews =>
    rw [← search_news hnews]
    exact later_hear u i news
  | @hearLate i news u status hphase hnews =>
    rw [search_finishDrain, ← search_news hnews]
    exact later_hearLate u i news
  | deadline hphase => exact later_foldl_requeue _ t

/-- A search that is over stays so. -/
theorem searching_of_step {event : Event} (h : (t.step solvers event).Searching) :
    t.Searching := by
  have heffect := effect_step solvers t event
  generalize t.step solvers event = after at heffect h
  cases heffect with
  | nothing => exact h
  | work i =>
    rw [Searching, (work_frame solvers t i).2.1] at h
    exact h
  | decide hphase => exact searching_iff.mpr (.inl hphase)
  | tick hphase | hear hphase => exact searching_iff.mpr (.inr hphase)
  | hearLate hphase => exact absurd h (not_searching_finishDrain _ _)
  | deadline hphase => cases h

/-- No run takes back the count of processed nodes or changes the settings. -/
theorem later_run (solvers : Nat → Solvers σ α) (t : Team σ α) (events : List Event) :
    Search.Later t.search (t.run solvers events).search := by
  induction events generalizing t with
  | nil => exact .refl _
  | cons event rest ih => exact (later_step solvers t event).trans (ih _)

/-- A search that is over stays so. -/
theorem searching_of_run {events : List Event} (h : (t.run solvers events).Searching) :
    t.Searching := by
  induction events generalizing t with
  | nil => exact h
  | cons event rest ih => exact searching_of_step (ih h)

end Team

end BranchBound
