import BranchBound.Proofs.Brancher.Ledger
import BranchBound.Proofs.Search.Failing
import BranchBound.Proofs.Search.StrongBranching

/-! # No node is waited for between two rounds

A round of the serial search hands out a node, and the children of a node that is branched
strongly; each report of the round ends the wait for a node. A report that ends no wait is an error,
so a round that succeeds ends as many waits as it began, whatever names the solvers give to nodes.

* **`Search.waiting_apply_lt`**, **`Serial.waiting_conclude_lt`** — a report that is taken in, and
  what follows the processing of a node, end a wait.
* **`Serial.handed_out_exactly`** — the names of nodes and the waits for them, for anyone who
  follows the protocol of the brancher, and between two rounds of the serial search. -/

namespace BranchBound

variable {σ α : Type} [Scalar α]

/-! ## Ends of waits -/

namespace Waiting

variable {w : Waiting α} {id : Nat}

omit [Scalar α] in
/-- Forgetting a node that is waited for ends a wait. -/
theorem length_erase_lt (h : id ∈ w.ids) : (w.erase id).length < w.length := by
  obtain ⟨e, he, rfl⟩ := List.mem_map.mp h
  exact List.length_filter_lt_length_iff_exists.mpr ⟨e, he, by simp⟩

omit [Scalar α] in
/-- Remembering a node begins one wait at most. -/
theorem length_insert_le (w : Waiting α) (id : Nat) (entry : HandedOut α) :
    (w.insert id entry).length ≤ w.length + 1 :=
  Nat.succ_le_succ (List.length_filter_le _ _)

end Waiting

namespace Brancher

variable {b c : Brancher α} {id : Nat} {n parent : Node α} {point : List α} {nodes : List (Node α)}

/-- Confirming a node ends a wait. -/
theorem length_waiting_confirm (h : b.confirm id n = (.ok (), c)) :
    c.waiting.length < b.waiting.length := by
  rw [waiting_confirm h]
  refine Waiting.length_erase_lt ?_
  by_contra hid
  have hnone := Waiting.lookup_eq_none_iff.mpr hid
  cases confirm_exit h with
  | unsplit hlookup | learned hlookup => cases hnone.symm.trans hlookup

/-- Handing out the next node begins one wait at most. -/
theorem length_waiting_next (b : Brancher α) : b.next.2.waiting.length ≤ b.waiting.length + 1 := by
  unfold next
  split
  · exact Nat.le_succ _
  · exact Waiting.length_insert_le _ _ _

/-- The children in every dimension of a node begin as many waits as they are at most. -/
theorem length_waiting_allChildren (h : b.allChildren parent point = (.ok nodes, c)) :
    c.waiting.length ≤ b.waiting.length + nodes.length := by
  refine allChildren_induct (motive := fun found d =>
    d.waiting.length ≤ b.waiting.length + found.length) h (Nat.le_refl _) ?_
  intro _ found d i v down up e _ _ hsplit hfound
  have hdown := d.waiting.length_insert_le down.id ⟨down.score, down.history⟩
  have hup := (d.waiting.insert down.id ⟨down.score, down.history⟩).length_insert_le up.id
    ⟨up.score, up.history⟩
  rw [handOut_split hsplit, List.length_append]
  dsimp only [List.length_cons, List.length_nil]
  omega

end Brancher

namespace Search

variable {s t : Search α} {r : Report α} {stage : Stage}

/-- Recording a report ends a wait. -/
theorem waiting_record_lt (h : s.record r = (.ok (), t)) :
    t.brancher.waiting.length < s.brancher.waiting.length := by
  have hconfirm : (s.account r).brancher.confirm r.node.id r.node = (.ok (), t.brancher) := by
    obtain ⟨hanswer, rfl⟩ := Prod.mk.inj h
    exact Prod.ext hanswer rfl
  have hlt := Brancher.length_waiting_confirm hconfirm
  rw [(s.account_frame r).1] at hlt
  exact hlt

/-- Taking in a report ends a wait. -/
theorem waiting_apply_lt (h : s.apply r = (.ok stage, t)) :
    t.brancher.waiting.length < s.brancher.waiting.length := by
  obtain ⟨hrecord, hsettle⟩ := apply_ok h
  have hwaiting := ((s.record r).2.settle_frame r).1
  rw [hsettle] at hwaiting
  rw [hwaiting]
  exact waiting_record_lt (Prod.ext hrecord rfl)

end Search

/-! ## Rounds -/

namespace Serial

variable {solvers : Solvers σ α} {run after : Run σ α} {r : Report α} {stage : Stage}

/-- Evaluating nodes ends as many waits as there are nodes at least. -/
theorem waiting_evaluate_le {nodes : List (Node α)} {reports : List (Report α)}
    (h : (evaluate solvers nodes).exec run = (.ok reports, after)) :
    after.search.brancher.waiting.length + nodes.length ≤ run.search.brancher.waiting.length := by
  induction nodes generalizing run reports with
  | nil =>
    cases h
    exact Nat.le_refl _
  | cons node rest ih =>
    obtain ⟨r, memory, others, -, hrecord, hrest, -⟩ := evaluate_cons_ok h
    have hlt : (run.search.record r).2.brancher.waiting.length
        < run.search.brancher.waiting.length := Search.waiting_record_lt (Prod.ext hrecord rfl)
    have hle := ih hrest
    rw [List.length_cons]
    dsimp only at hle
    omega

/-- Keeping a child does not matter for the waits. -/
theorem waiting_keep (h : (keep r : Work σ α Unit).exec run = (.ok (), after)) :
    after.search.brancher.waiting = run.search.brancher.waiting := by
  rcases keep_ok h with ⟨-, taken, hinsert⟩ | ⟨-, hcount⟩
  · rw [Search.eq_of_insertEvaluated_ok hinsert]
  · rw [hcount, (run.search.countFathomed_frame r).1]

/-- Keeping the best pair of children does not matter for the waits. -/
theorem waiting_keepBest {parentScore : α} {reports : List (Report α)}
    (h : (keepBest parentScore reports).exec run = (.ok stage, after)) :
    after.search.brancher.waiting = run.search.brancher.waiting := by
  rcases keepBest_cases h with
    ⟨-, -, hafter⟩ | ⟨p, first, second, -, -, hfirst, hsecond, hafter⟩
  · rw [hafter]
    rfl
  · rw [hafter]
    exact (waiting_keep hsecond).trans (waiting_keep hfirst)

/-- What follows the processing of a node ends a wait. -/
theorem waiting_conclude_lt {depth : Nat}
    (h : (conclude solvers depth r).exec run = (.ok stage, after)) :
    after.search.brancher.waiting.length < run.search.brancher.waiting.length := by
  rcases conclude_ok h with happly | ⟨-, -, h⟩
  · exact Search.waiting_apply_lt happly
  · -- the children end their waits in turn, and the node itself has ended its wait before
    obtain ⟨nodes, b, reports, evaluated, hrecord, hall, hevaluate, hkeep⟩ := strongBranch_ok h
    rw [waiting_keepBest hkeep]
    have hended : evaluated.search.brancher.waiting.length + nodes.length ≤ b.waiting.length :=
      waiting_evaluate_le hevaluate
    have hbegun := Brancher.length_waiting_allChildren hall
    refine Nat.lt_of_le_of_lt ?_ (Search.waiting_record_lt (Prod.ext hrecord rfl))
    exact Nat.le_of_add_le_add_right (hended.trans hbegun)

/-- No node is waited for between two rounds. -/
theorem waiting_rounds (hrounds : Rounds solvers run after)
    (h : run.search.brancher.waiting = []) : after.search.brancher.waiting = [] := by
  induction hrounds with
  | refl => exact h
  | @tail mid last _ hround ih =>
    have hrounded := exec_round solvers mid
    rw [hround] at hrounded
    cases hrounded with
    | @next n t r memory stage last hnext hprocess hconclude =>
      -- the node that is handed out in a round is the only one, and concluding takes it off the
      -- list
      have hlt : last.search.brancher.waiting.length < t.brancher.waiting.length :=
        waiting_conclude_lt hconclude
      have hle := (now solvers mid).brancher.length_waiting_next
      have ht : t.brancher = (now solvers mid).brancher.next.2 := by
        rw [← (Prod.mk.inj hnext).2]
        rfl
      have hempty : (now solvers mid).brancher.waiting.length = 0 := by
        rw [List.length_eq_zero_iff]
        exact ih
      rw [← ht, hempty] at hle
      exact List.length_eq_zero_iff.mp (by omega)

/-- For anyone who follows the protocol of a brancher, the names of the nodes and the waits for them
are exact as long as there are ids. Between two rounds of the serial search no node is waited for,
with or without strong branching and whatever the solvers answer. -/
theorem handed_out_exactly [Scalar.Ordered α] :
    (∀ (vars : List (Variable α)) (b : Brancher α) (s : Audited α), Brancher.new vars = .ok b →
        Audited.Run ⟨b, {}⟩ s → s.ledger.used < wordRange → s.Exact)
      ∧ ∀ (solvers : Solvers σ α) (vars : List (Variable α)) (settings : Settings α)
          (start : Search α) (memory : σ) (run : Run σ α), Search.new vars settings = .ok start →
        Rounds solvers ⟨start, memory⟩ run → run.search.brancher.waiting = [] :=
  ⟨fun _ _ _ hnew hrun hids => ((Audited.kept_new hnew).run hrun hids).exact,
    fun _ _ _ _ _ _ hstart hrounds => waiting_rounds hrounds (Search.new_frame hstart).2.1⟩

/-- The root is handed out and confirmed, and its children go out; one of them is cancelled and
queued, and the other one is still out. -/
def sampleRequests : List (Brancher.Request (Extended ℚ)) :=
  let root := Node.root Async.sampleVars
  [.insertRoot root, .next, .confirm 0 root, .allChildren root [], .cancel 2, .confirm 7 root,
    .insertNode { root with id := 2, score := -1 }, .setSelection .depthFirst]

/-- The settings of a search that branches the root strongly. -/
def sampleStrong : Settings (Extended ℚ) := { Settings.standard with strongDepth := 1 }

/-- The requests follow the protocol. -/
theorem exists_sampleRequests : ∃ b ∈ (Brancher.new Async.sampleVars).toOption,
    ∃ s ∈ Audited.performAll ⟨b, {}⟩ sampleRequests,
      s.ledger.out = [1] ∧ s.ledger.used < wordRange := by
  decide +kernel

/-- The first round of the sample search may branch the root strongly. -/
theorem exists_strongRound : ∃ start ∈ (Search.new Async.sampleVars sampleStrong).toOption,
    ∃ status ∈ ((round Async.sampleSolvers).exec ⟨start, ()⟩).1.toOption, status = none
      ∧ ((round Async.sampleSolvers).exec ⟨start, ()⟩).2.search.stats.processed = 3 := by
  decide +kernel

/-- While one child is out its sibling is unknown, and no node is waited for after a round of strong
branching. -/
theorem handed_out_exactly_sampleRequests :
    (∃ s : Audited (Extended ℚ), s.ledger.out = [1] ∧ s.Exact
        ∧ (s.brancher.cancel 2).1 = .error (.unknownNode 2))
      ∧ ∃ start run, Search.new Async.sampleVars sampleStrong = .ok start
        ∧ Rounds Async.sampleSolvers ⟨start, ()⟩ run ∧ run.search.stats.processed = 3
        ∧ run.search.brancher.waiting = [] := by
  obtain ⟨b, hnew, s, hs, hout, hids⟩ := exists_eq_ok exists_sampleRequests
  have hexact := (handed_out_exactly (σ := Unit)).1 Async.sampleVars b s hnew
    (Audited.run_of_performAll hs) hids
  have hunknown := hexact.cancel 2
  rw [hout] at hunknown
  obtain ⟨start, hstart, hround⟩ := exists_eq_ok exists_strongRound
  obtain ⟨status, hanswer, rfl, hprocessed⟩ := exists_eq_ok hround
  have hrounds : Rounds Async.sampleSolvers ⟨start, ()⟩
      ((round Async.sampleSolvers).exec ⟨start, ()⟩).2 := .single (Prod.ext hanswer rfl)
  exact ⟨⟨s, hout, hexact, hunknown⟩, start, _, hstart, hrounds, hprocessed,
    handed_out_exactly.2 _ _ _ start () _ hstart hrounds⟩

end Serial

end BranchBound
