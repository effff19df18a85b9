import BranchBound.Report

/-! # Workers

A worker processes the nodes it is given and answers each of them with a report or a failure. It
keeps a cutoff of its own, which it tightens by the points it finds itself and by those it is told
of. It serves one order after the other until it is told to stop. -/

namespace BranchBound

/-- What a manager sends to a worker. -/
inductive Order (α : Type)
  /-- Process this node. -/
  | process (node : Node α)
  /-- A better point is known. -/
  | improve (candidate : Candidate α)
  /-- Stop. -/
  | stop (tag : Tag)
  deriving Repr

/-- What a worker sends to its manager. -/
inductive Reply (α : Type)
  /-- What came out of the node given last. -/
  | report (report : Report α)
  /-- The node given last could not be processed. -/
  | failed (text : String)
  deriving Repr

/-- A worker. -/
structure Worker (α : Type) where
  /-- Which worker it is. -/
  index : Nat
  /-- What it processes nodes against. -/
  cutoff : Cutoff α
  deriving Repr

/-- What a worker does on an order. -/
inductive Reaction (α : Type)
  /-- It answers. -/
  | answer (reply : Reply α)
  /-- It takes note. -/
  | note
  /-- It stops. -/
  | stopped (tag : Tag)
  /-- It is taken down by its solvers. -/
  | crashed
  deriving Repr

namespace Worker

variable {σ α : Type} [Scalar α]

/-- Adopts an objective value if it is better. -/
def tighten (w : Worker α) (value : α) : Worker α :=
  { w with cutoff := (w.cutoff.tighten value).2 }

/-- Adopts the point a report brings. -/
def adopt (w : Worker α) (r : Report α) : Worker α :=
  match r.candidate with
  | some c => w.tighten c.value
  | none => w

/-- Handles an order. -/
def handle (solvers : Solvers σ α) (w : Worker α) (order : Order α) (memory : σ) :
    Reaction α × Worker α × σ :=
  match order with
  | .process node =>
      match Id.run ((processNode solvers node w.cutoff).run.run memory) with
      | (.ok r, memory) => (.answer (.report r), w.adopt r, memory)
      | (.error (.error e), memory) => (.answer (.failed e.message), w, memory)
      | (.error .crash, memory) => (.crashed, w, memory)
  | .improve c => (.note, w.tighten c.value, memory)
  | .stop tag => (.stopped tag, w, memory)

/-- What is left when a worker no longer serves. -/
structure Service (σ α : Type) where
  /-- What it has answered, in order. -/
  replies : List (Reply α)
  /-- The orders it has not read. -/
  unread : List (Order α)
  /-- The worker itself. -/
  worker : Worker α
  /-- The state of its solvers. -/
  memory : σ

/-- Serves orders until one tells it to stop, none is left, it is taken down by its solvers, or
there is no one to take its answer any more. -/
def run (solvers : Solvers σ α) (connected : Bool) :
    List (Order α) → Worker α → σ → Service σ α
  | [], w, memory => ⟨[], [], w, memory⟩
  | order :: rest, w, memory =>
      match w.handle solvers order memory with
      | (.answer reply, w, memory) =>
          if connected then
            let service := run solvers connected rest w memory
            { service with replies := reply :: service.replies }
          else ⟨[], rest, w, memory⟩
      | (.note, w, memory) => run solvers connected rest w memory
      | (.stopped _, w, memory) | (.crashed, w, memory) => ⟨[], rest, w, memory⟩

end Worker

end BranchBound
