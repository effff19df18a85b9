import BranchBound.Search.Progress

/-! # Searching in one place

The serial search goes round after round until the state of the search says that it is over or
something goes wrong. An error does not take away what was found before it; a crash does. -/

namespace BranchBound.Serial

variable {σ α : Type} [Scalar α]

/-- Goes round until the search is over. It ends because every round that does not end it brings it
closer to its limit on nodes. -/
def search (solvers : Solvers σ α) (run : Run σ α) : Except (Failure α) Status × Run σ α :=
  match _h : (round solvers).exec run with
  | (.error failure, after) => (.error failure, after)
  | (.ok (some status), after) => (.ok status, after)
  | (.ok none, after) => search solvers after
termination_by run.search.settings.maxNodes - run.search.stats.processed
decreasing_by exact round_lt solvers ‹_›

/-- Solves a problem. Variables and settings that are not valid are an error; an error of a solver
ends the search, which then answers what it has found so far. -/
def solve (solvers : Solvers σ α) (vars : List (Variable α)) (settings : Settings α)
    (memory : σ) : Except (Failure α) (Solution α) × σ :=
  match Search.new vars settings with
  | .error e => (.error (.error e), memory)
  | .ok s =>
      match search solvers ⟨s, memory⟩ with
      | (.ok status, run) => (.ok (run.search.solution status .complete none), run.memory)
      | (.error (.error e), run) =>
          (.ok (run.search.solution .failed .complete (some e.message)), run.memory)
      | (.error .crash, run) => (.error .crash, run.memory)

end BranchBound.Serial
