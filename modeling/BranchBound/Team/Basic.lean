import BranchBound.Search.State
import BranchBound.Team.Worker

/-! # A manager and its workers

In a distributed search one manager owns the tree and workers process the nodes. Each worker is
connected to the manager by two queues, one for its orders and one for its replies, and has at most
one node at a time.

A `Team` is the state of all of them. What happens next in it is an `Event`: a worker handles its
oldest order, the manager looks at the search and hands out nodes, or a waiting manager is woken by
a reply, by its clock, or by the end of the time for late results. The order of events is free;
`Team.step` says what each of them does, and an event that cannot happen changes nothing. The
solvers of all workers share one state, of which each of them may have a part to itself.

* **`Seat`** — a worker with its queues and the node that the manager believes it to be on.
* **`Phase`** — what the manager is doing; a search has ended in `Phase.ended`.
* **`Team.step solvers t event`** — what an event does.
* **`Team.start`**, **`Team.solution?`** — the team at the start of a search, and what it has found
  at the end. -/

namespace BranchBound

/-- A node that a worker is on. -/
structure Assignment (α : Type) where
  /-- The node as it was handed out. -/
  node : Node α
  /-- How many nodes were dispatched before it. -/
  turn : Nat
  deriving Repr

/-- A worker with its queues, as seen from the manager. -/
structure Seat (α : Type) where
  /-- The worker; `none` once it is gone. -/
  worker : Option (Worker α)
  /-- The node dispatched to it and not yet reported. -/
  out : Option (Assignment α) := none
  /-- The orders it has not read, oldest first. -/
  orders : List (Order α) := []
  /-- Its replies that the manager has not read, oldest first. -/
  replies : List (Reply α) := []
  deriving Repr

/-- What the manager is doing. -/
inductive Phase (α : Type)
  /-- It is about to look at the search. -/
  | deciding
  /-- It waits for a reply. -/
  | waiting
  /-- The search is over, and it waits for late results. -/
  | draining (status : Status)
  /-- It is done. -/
  | ended (result : Except (Error α) Status) (termination : Termination)

/-- A distributed search. -/
structure Team (σ α : Type) where
  /-- The state of the search. -/
  search : Search α
  /-- The workers. -/
  seats : List (Seat α)
  /-- The state of the solvers. -/
  memory : σ
  /-- The nodes dispatched so far and their workers, in order. -/
  dispatched : List (Nat × Nat)
  /-- What the manager is doing. -/
  phase : Phase α

/-- What can happen in a team. -/
inductive Event
  /-- A worker handles its oldest order. -/
  | work (worker : Nat)
  /-- The manager looks at the search and hands out nodes. -/
  | decide
  /-- The clock wakes the manager. -/
  | tick
  /-- A reply of a worker wakes the manager, or the news that the worker is gone. -/
  | receive (worker : Nat)
  /-- The time for late results is over. -/
  | deadline
  deriving DecidableEq, Repr

namespace Team

variable {σ α : Type}

/-- The nodes that are out, by ascending worker. -/
def outNodes (t : Team σ α) : List (Node α) :=
  t.seats.filterMap fun seat => seat.out.map (·.node)

/-- Changes one seat. -/
def modifySeat (t : Team σ α) (i : Nat) (f : Seat α → Seat α) : Team σ α :=
  { t with seats := t.seats.modify i f }

/-- Puts an order into the queue of a worker; `none` if the worker is gone. -/
def send? (t : Team σ α) (i : Nat) (order : Order α) : Option (Team σ α) :=
  match t.seats[i]? with
  | some seat =>
      if seat.worker.isSome then
        some (t.modifySeat i fun seat => { seat with orders := seat.orders ++ [order] })
      else none
  | none => none

/-- Tells every worker that is not gone to stop. -/
def dismiss (t : Team σ α) (tag : Tag) : Team σ α :=
  { t with seats := t.seats.map fun seat =>
      if seat.worker.isSome then { seat with orders := seat.orders ++ [.stop tag] } else seat }

/-- Notes that a worker is on a node. -/
def assign (t : Team σ α) (i : Nat) (node : Node α) : Team σ α :=
  { t.modifySeat i fun seat => { seat with out := some ⟨node, t.dispatched.length⟩ } with
    dispatched := t.dispatched ++ [(node.id, i)] }

/-- Notes that a worker is on no node. -/
def release (t : Team σ α) (i : Nat) : Team σ α :=
  t.modifySeat i fun seat => { seat with out := none }

variable [Scalar α]

/-- The lowest score of the nodes that are out, as they were handed out. -/
def outLowest (t : Team σ α) : Option α :=
  match t.outNodes with
  | [] => none
  | node :: rest => some (rest.foldl (fun lowest n => Scalar.least lowest n.score) node.score)

/-- Hands a node to every idle worker among the given ones, as long as nodes are open. -/
def dispatchTo : List Nat → Team σ α → Except (Error α) Unit × Team σ α
  | [], t => (.ok (), t)
  | i :: rest, t =>
      if t.seats[i]?.any (·.out.isSome) then dispatchTo rest t
      else if t.search.brancher.frontier.isEmpty then (.ok (), t)
      else
        match t.search.next with
        | (.error e, search) => (.error e, { t with search })
        | (.ok node, search) =>
            let t := { t with search }
            match t.send? i (.process node) with
            | none => (.error (.channelClosed (.workerGone i)), t)
            | some t => dispatchTo rest (t.assign i node)

/-- Hands a node to every idle worker, as long as nodes are open. -/
def dispatch (t : Team σ α) : Except (Error α) Unit × Team σ α :=
  dispatchTo (List.range t.seats.length) t

/-- Tells the given workers of a point, up to the first one that is gone. -/
def announceTo (c : Candidate α) : List Nat → Team σ α → Except (Error α) Unit × Team σ α
  | [], t => (.ok (), t)
  | i :: rest, t =>
      match t.send? i (.improve c) with
      | none => (.error (.channelClosed (.workerGone i)), t)
      | some t => announceTo c rest t

/-- Tells every worker of the incumbent. -/
def announce (t : Team σ α) : Except (Error α) Unit × Team σ α :=
  match t.search.incumbent.point with
  | some point =>
      announceTo ⟨t.search.incumbent.value, point⟩ (List.range t.seats.length) t
  | none => (.ok (), t)

/-- Takes in a reply. A report must be about the node the worker is on, which it is no longer on
from then, whatever becomes of the report. A better point is announced to all workers. -/
def takeIn (t : Team σ α) (i : Nat) (reply : Reply α) : Except (Error α) Unit × Team σ α :=
  match reply with
  | .report r =>
      let expected := (t.seats[i]?.bind (·.out)).map (·.node.id)
      let t := t.release i
      if expected ≠ some r.node.id then
        (.error (.protocol (.wrongReport i r.node.id expected)), t)
      else
        match t.search.apply r with
        | (.error e, search) => (.error e, { t with search })
        | (.ok _, search) =>
            let better := search.incumbent.value < t.search.incumbent.value
            let t := { t with search }
            if better then t.announce else (.ok (), t)
  | .failed text => (.error (.workerFailed i text), t)

/-- Puts the node a worker is on back into the tree, as it was handed out. If that fails the node is
left where it is. -/
def requeue (t : Team σ α) (i : Nat) : Team σ α :=
  match t.seats[i]?.bind (·.out) with
  | none => t
  | some assignment =>
      let t := t.release i
      match t.search.brancher.cancel assignment.node.id with
      | (.error _, _) => t
      | (.ok (), brancher) =>
          { t with search := { t.search with brancher := (brancher.insertNode assignment.node).2 } }

/-- Ends the search with an error; it is noted whether nodes are out. -/
def abort (t : Team σ α) (e : Error α) : Team σ α :=
  let termination := if t.outNodes.isEmpty then Termination.complete else .workersActive
  { t.dismiss .exception with phase := .ended (.error e) termination }

/-- Ends the wait for late results if nothing is out any more. -/
def finishDrain (t : Team σ α) (status : Status) : Team σ α :=
  if t.outNodes.isEmpty then
    { t.dismiss .everythingFine with phase := .ended (.ok status) .complete }
  else { t with phase := .draining status }

/-- The manager looks at the search: it is over, or idle workers are given nodes. -/
def decide (solvers : Nat → Solvers σ α) (t : Team σ α) : Team σ α :=
  let t := { t with search := t.search.atTime ((solvers 0).clock t.memory) }
  match t.search.check t.outLowest with
  | some status => t.finishDrain status
  | none =>
      match t.dispatch with
      | (.error e, t) => t.abort e
      | (.ok (), t) =>
          { t with phase := if t.outNodes.isEmpty then .deciding else .waiting }

/-- A worker handles its oldest order. -/
def work (solvers : Nat → Solvers σ α) (i : Nat) (t : Team σ α) : Team σ α :=
  match t.seats[i]? with
  | none => t
  | some seat =>
      match seat.worker, seat.orders with
      | some w, order :: rest =>
          let (reaction, w, memory) := w.handle (solvers i) order t.memory
          let seat := match reaction with
            | .answer reply =>
                { seat with worker := some w, orders := rest, replies := seat.replies ++ [reply] }
            | .note => { seat with worker := some w, orders := rest }
            | .stopped _ | .crashed => { seat with worker := none, orders := [] }
          { t.modifySeat i fun _ => seat with memory }
      | _, _ => t

/-- What wakes a manager that waits for a worker: its oldest reply, or the news that it is gone. -/
inductive News (α : Type)
  /-- A reply. -/
  | reply (reply : Reply α)
  /-- The worker is gone and has left no reply. -/
  | gone

/-- The news of a worker that is on a node, if there is any, and the team once they are read. -/
def news? (t : Team σ α) (i : Nat) : Option (News α × Team σ α) :=
  match t.seats[i]? with
  | none => none
  | some seat =>
      if seat.out.isNone then none
      else
        match seat.replies with
        | reply :: rest => some (.reply reply, t.modifySeat i fun s => { s with replies := rest })
        | [] => if seat.worker.isNone then some (.gone, t) else none

/-- News of a worker reach a manager that is searching: an error ends the search. -/
def hear (t : Team σ α) (i : Nat) : News α → Team σ α
  | .reply reply =>
      match t.takeIn i reply with
      | (.error e, t) => t.abort e
      | (.ok (), t) => { t with phase := .deciding }
  | .gone => t.abort (.channelClosed (.workerGone i))

/-- News of a worker reach a manager that waits for late results: an error of a report is passed
over, and the node of a worker that failed or is gone goes back into the tree. -/
def hearLate (t : Team σ α) (i : Nat) : News α → Team σ α
  | .reply (.report r) => (t.takeIn i (.report r)).2
  | .reply (.failed _) | .gone => t.requeue i

/-- What an event does. -/
def step (solvers : Nat → Solvers σ α) (t : Team σ α) (event : Event) : Team σ α :=
  match event, t.phase with
  | .work i, _ => t.work solvers i
  | .decide, .deciding => t.decide solvers
  | .tick, .waiting => { t with phase := .deciding }
  | .receive i, .waiting =>
      match t.news? i with
      | some (news, t) => t.hear i news
      | none => t
  | .receive i, .draining status =>
      match t.news? i with
      | some (news, t) => (t.hearLate i news).finishDrain status
      | none => t
  | .deadline, .draining status =>
      let t := (List.range t.seats.length).foldl requeue t
      { t.dismiss .everythingFine with phase := .ended (.ok status) .workersActive }
  | _, _ => t

/-- A team at the start of a search: there must be workers, and settings and variables are valid. -/
def start (vars : List (Variable α)) (settings : Settings α) (memory : σ) :
    Except (Error α) (Team σ α) :=
  if settings.workers = 0 then .error (.invalidSettings .noWorkers)
  else do
    let search ← Search.new vars settings
    let seats := (List.range settings.workers).map fun i => { worker := some ⟨i, search.cutoff⟩ }
    return { search, seats, memory, dispatched := [], phase := .deciding }

/-- The outcome of a search that has ended. -/
def solution? (t : Team σ α) : Option (Solution α) :=
  match t.phase with
  | .ended (.ok status) termination => some (t.search.solution status termination none)
  | .ended (.error e) termination =>
      some (t.search.solution .failed termination (some e.message))
  | _ => none

end Team

end BranchBound
