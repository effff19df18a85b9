import BranchBound.Proofs.Team.Allowance
import BranchBound.Proofs.Team.Cutoffs
import BranchBound.Proofs.Team.HandOut
import Mathlib.Data.Prod.Lex

/-! # No one is waited for in vain

A team never gets stuck, whatever its solvers do. A worker that is on a node has news for the
manager once it has read its orders: it answers or is gone. Every node that is handed out and every
reply that is taken in uses up some of the allowance, and what uses up none of it leaves the queues
as they are or shortens one. So only so much can happen before nothing is left to do but what ends
the search.

* **`Team.toGo`** — how far the end is away: what is left of the allowance, then the orders to read.
* **`Team.Live`** — the invariant: the books are in order, and no one is waited for in vain.
* **`Team.Live.turn`** — an event ends the search, brings the end closer, or changes no seat. -/

namespace BranchBound

variable {σ α : Type}

/-! ## Workers that are waited for -/

namespace Seat

variable {seat : Seat α}

/-- A worker that is on a node and has not answered is gone, or has the order to process a node
still to read. -/
def Attended (seat : Seat α) : Prop :=
  seat.out.isSome = true → seat.replies = [] → seat.worker.isSome = true → seat.unread ≠ []

/-- A worker that is on no node is not waited for. -/
theorem attended_of_idle (h : seat.out = none) : seat.Attended := by
  intro hout
  rw [h] at hout
  cases hout

/-- A worker that is given a node has the order to process it to read. -/
theorem attended_give (seat : Seat α) (node : Node α) (turn : Nat) :
    (seat.give node turn).Attended := by
  intro _ _ _
  rw [show (seat.give node turn).unread = seat.unread ++ [node] from
    seat.unread_push (.process node)]
  exact List.append_ne_nil_of_right_ne_nil _ (List.cons_ne_nil _ _)

/-- More orders do no harm. -/
theorem Attended.push (h : seat.Attended) (order : Order α) : (seat.push order).Attended := by
  intro hout hreplies hworker
  rw [unread_push]
  exact List.append_ne_nil_of_left_ne_nil (h hout hreplies hworker) _

/-- A worker that has handled an order to process a node has answered or is gone. -/
theorem Attended.served [Scalar α] {solvers : Solvers σ α} {w v : Worker α} {order : Order α}
    {rest : List (Order α)} {reaction : Reaction α} {memory after : σ} (h : seat.Attended)
    (horders : seat.orders = order :: rest)
    (hhandle : w.handle solvers order memory = (reaction, v, after))
    (hthere : seat.worker = some w) : (seat.served rest v reaction).Attended := by
  rcases Worker.handle_cases hhandle with
    ⟨node, r, -, rfl, -⟩ | ⟨node, text, -, rfl, -⟩ | ⟨c, rfl, rfl, rfl⟩ | ⟨rfl | ⟨tag, rfl⟩, -⟩
  · intro _ hreplies
    exact absurd hreplies (List.append_ne_nil_of_right_ne_nil _ (List.cons_ne_nil _ _))
  · intro _ hreplies
    exact absurd hreplies (List.append_ne_nil_of_right_ne_nil _ (List.cons_ne_nil _ _))
  · -- an order to take note of a point asks to process no node
    intro hout hreplies _
    have hunread : seat.unread = (seat.served rest (w.tighten c.value) .note).unread := by
      rw [unread, horders]
      rfl
    rw [← hunread]
    exact h hout hreplies (by rw [hthere]; rfl)
  · intro _ _ hgone
    cases hgone
  · intro _ _ hgone
    cases hgone

end Seat

namespace Team

variable {t u v : Team σ α} {i : Nat} {seat : Seat α} {settings : Settings α}

/-- There is news of a worker if it is on a node and has answered or is gone. -/
theorem isSome_news? :
    (t.news? i).isSome = true ↔ ∃ seat, t.seats[i]? = some seat ∧ seat.out.isSome = true
      ∧ (seat.replies ≠ [] ∨ seat.worker = none) := by
  unfold news?
  cases hseat : t.seats[i]? with
  | none => simp
  | some seat =>
    cases hout : seat.out with
    | none => simp [hout]
    | some a =>
      cases hreplies : seat.replies with
      | cons reply rest => simp [hout, hreplies]
      | nil => cases hworker : seat.worker <;> simp [hout, hreplies, hworker]

/-! ## How far the end is away -/

/-- How many nodes were processed and dispatched. -/
def spent (t : Team σ α) : Nat := t.search.stats.processed + t.dispatched.length

/-- How many orders the workers have not read. -/
def pending (t : Team σ α) : Nat := (t.seats.map (·.orders.length)).sum

/-- How far the end of the search is away: what is left of the allowance, and then how many orders
are left to read. -/
def toGo (settings : Settings α) (t : Team σ α) : ℕ ×ₗ ℕ :=
  toLex (2 * settings.allowance - t.spent, t.pending)

/-- Seats and counts say how far the end is away. -/
theorem toGo_congr (hseats : u.seats = t.seats) (hspent : u.spent = t.spent) :
    u.toGo settings = t.toGo settings := by
  rw [toGo, toGo, pending, pending, hseats, hspent]

/-- Books that are in order stay within the allowance. -/
theorem Thrifty.spent_le (h : t.Thrifty settings) : t.spent ≤ 2 * settings.allowance := by
  have hprocessed : t.search.stats.processed ≤ t.dispatched.length :=
    (Nat.le_add_right _ _).trans h.charged_le
  have hdispatched := h.dispatched_le
  unfold spent
  omega

/-- What uses up some of the allowance brings the end closer. -/
theorem toGo_lt_of_spent (h : u.Thrifty settings) (hspent : t.spent < u.spent) :
    u.toGo settings < t.toGo settings := by
  have hle := h.spent_le
  exact Prod.Lex.toLex_lt_toLex.mpr (.inl (by dsimp only; omega))

/-- So does a worker that reads an order. -/
theorem toGo_lt_of_pending (hspent : u.spent = t.spent) (hpending : u.pending < t.pending) :
    u.toGo settings < t.toGo settings :=
  Prod.Lex.toLex_lt_toLex.mpr (.inr ⟨by rw [hspent], hpending⟩)

/-- Fewer orders in one queue are fewer orders. -/
theorem pending_modifySeat_lt {f : Seat α → Seat α} (hseat : t.seats[i]? = some seat)
    (hlt : (f seat).orders.length < seat.orders.length) :
    (t.modifySeat i f).pending < t.pending := by
  obtain ⟨rest, hold, hnew⟩ := exists_perm_modify f hseat
  have hafter := (hnew.map (·.orders.length)).sum_eq
  have hbefore := (hold.map (·.orders.length)).sum_eq
  rw [List.map_cons, List.sum_cons] at hafter hbefore
  show ((t.seats.modify i f).map (·.orders.length)).sum < (t.seats.map (·.orders.length)).sum
  omega

/-! ## What the parts of a step use up -/

variable [Scalar α] {solvers : Nat → Solvers σ α}

/-- A worker that has an order to read reads it. -/
theorem toGo_work_lt (hseat : t.seats[i]? = some seat) (hworker : seat.worker.isSome = true)
    (horders : seat.orders ≠ []) : (t.work solvers i).toGo settings < t.toGo settings := by
  obtain ⟨w, hw⟩ := Option.isSome_iff_exists.mp hworker
  obtain ⟨order, rest, hcons⟩ := List.exists_cons_of_ne_nil horders
  rcases hhandle : w.handle (solvers i) order t.memory with ⟨reaction, v, memory⟩
  rw [work_eq hseat hw hcons hhandle]
  refine toGo_lt_of_pending rfl ?_
  refine pending_modifySeat_lt (f := fun _ => seat.served rest v reaction) hseat ?_
  rw [hcons]
  exact Nat.lt_succ_of_le (seat.length_orders_served rest v reaction)

/-- If workers are given nodes without an error, some node is dispatched; otherwise there is none to
give, or no worker to give it to. -/
theorem dispatchTo_ok {is : List Nat} (h : dispatchTo is t = (.ok (), u)) :
    t.dispatched.length < u.dispatched.length
      ∨ u = t ∧ (t.search.brancher.frontier.isEmpty = true
        ∨ ∀ i ∈ is, ∃ seat, t.seats[i]? = some seat ∧ seat.out.isSome = true) := by
  induction is generalizing t with
  | nil =>
    cases h
    exact .inr ⟨rfl, .inr fun _ hi => absurd hi List.not_mem_nil⟩
  | cons i rest ih =>
    have hcases := handing i rest t
    generalize dispatchTo (i :: rest) t = result at h hcases
    cases hcases with
    | @busy seat hseat hout =>
      rcases ih h with hmore | ⟨heq, hempty | hall⟩
      · exact .inl hmore
      · exact .inr ⟨heq, .inl hempty⟩
      · exact .inr ⟨heq, .inr (List.forall_mem_cons.mpr ⟨⟨seat, hseat, hout⟩, hall⟩)⟩
    | exhausted hempty =>
      cases h
      exact .inr ⟨rfl, .inl hempty⟩
    | failed | gone => cases h
    -- one node is dispatched here, and the rest of the walk takes none back
    | @given _ node search =>
      left
      have hone : (({ t with search } : Team σ α).give i node).dispatched.length
          = t.dispatched.length + 1 := List.length_append
      rcases ih h with hmore | ⟨rfl, -⟩
      · omega
      · omega

/-- When the manager has looked at a search that goes on, more nodes were dispatched, or the seats
are as they were and the manager waits for a node. -/
theorem decide_goesOn (hstaffed : 0 < t.seats.length) (hgoes : (t.decide solvers).Searching) :
    t.spent < (t.decide solvers).spent
      ∨ (t.decide solvers).seats = t.seats ∧ (t.decide solvers).spent = t.spent
        ∧ (t.decide solvers).phase = .waiting := by
  rcases decide_cases solvers t with ⟨status, -, heq⟩ | ⟨hcheck, ⟨e, u, -, heq⟩ | ⟨u, hu, heq⟩⟩
  · rw [heq] at hgoes
    exact absurd hgoes (not_searching_finishDrain _ _)
  · rw [heq] at hgoes
    cases hgoes
  · rw [heq]
    have hprocessed := (charged_dispatchTo (List.range t.seats.length) (t.atTime solvers)).2.2
    rw [show dispatchTo (List.range t.seats.length) (t.atTime solvers) = (.ok (), u) from hu]
      at hprocessed
    rcases dispatchTo_ok hu with hmore | ⟨rfl, hnone⟩
    · exact .inl (Nat.add_lt_add_of_le_of_lt hprocessed.ge hmore)
    · refine .inr ⟨rfl, rfl, ?_⟩
      have hout : (t.atTime solvers).outNodes.isEmpty = false := by
        rcases hnone with hempty | hall
        · -- were no node out either, the tree would be exhausted
          by_contra hidle
          rw [Bool.not_eq_false, List.isEmpty_iff] at hidle
          rw [outLowest_eq_none hidle] at hcheck
          exact absurd hempty (ne_true_of_eq_false (Search.isEmpty_eq_false hcheck))
        · obtain ⟨seat, hseat, hout⟩ := hall 0 (List.mem_range.mpr hstaffed)
          exact isEmpty_outNodes.mpr ⟨0, by rw [out?, hseat]; exact hout⟩
      show (if (t.atTime solvers).outNodes.isEmpty then Phase.deciding else .waiting) = .waiting
      rw [hout]
      rfl

/-- News after which a search goes on are a reply that is taken in. -/
theorem hear_goesOn {news : News α} (hgoes : (t.hear i news).Searching) :
    ∃ reply u, t.takeIn i reply = (.ok (), u) ∧ t.hear i news = { u with phase := .deciding } := by
  have hhearing := hearing t i news
  generalize t.hear i news = after at hhearing hgoes ⊢
  cases hhearing with
  | gone | refused => cases hgoes
  | @taken reply u htake => exact ⟨reply, u, htake, rfl⟩

/-- A reply that is taken in is one more node that is processed, and the worker is waited for no
more. -/
theorem takeIn_goesOn {reply : Reply α} (htake : t.takeIn i reply = (.ok (), u))
    (h : t.Each fun j seat => i ≠ j → seat.Attended) :
    u.search.stats.processed = t.search.stats.processed + 1
      ∧ u.Each fun _ seat => seat.Attended := by
  obtain ⟨_, _, r, _, _, -, -, -, -, -, hannounced⟩ := takeIn_ok htake
  have hprocessed := t.search.processed_apply_eq r
  have haccepted : (t.accept i r).Each fun _ seat => seat.Attended :=
    (Each.modify (f := fun seat => { seat with out := none }) h (fun _ _ hij hseat => hseat hij)
      fun _ _ _ => Seat.attended_of_idle rfl).of_eq rfl
  rcases hannounced with ⟨-, hannounce⟩ | ⟨-, rfl⟩
  · obtain ⟨htold, hsearch, -⟩ := announce_frame (fun _ _ _ hseat => hseat.push _) haccepted
    rw [hannounce] at hsearch htold
    exact ⟨by rw [hsearch]; exact hprocessed, htold⟩
  · exact ⟨hprocessed, haccepted⟩

/-! ## The invariant -/

/-- The books are in order, and no one is waited for in vain. -/
structure Live (settings : Settings α) (t : Team σ α) : Prop where
  /-- The books are in order. -/
  books : t.Thrifty settings
  /-- There are workers. -/
  staffed : 0 < t.seats.length
  /-- As long as the search goes on, workers that are waited for are gone, have answered or have
  something to do. -/
  attended : t.Searching → t.Each fun _ seat => seat.Attended
  /-- A manager that waits does so for a node that is out. -/
  waits : t.phase = .waiting → t.outNodes ≠ []

/-- No one is waited for at the start. -/
theorem live_start {vars : List (Variable α)} {memory : σ}
    (h : Team.start vars settings memory = .ok t) : t.Live settings := by
  have hidle := each_start h
  have hbooks := thrifty_start h
  obtain ⟨hworkers, search, -, heq⟩ := start_ok h
  refine ⟨hbooks, hbooks.workers.symm ▸ hworkers, fun _ i seat hseat => ?_, ?_⟩
  · rw [hidle i seat hseat]
    exact Seat.attended_of_idle rfl
  · rw [heq]
    exact nofun

omit [Scalar α] in
/-- To read the news of a worker concerns its seat alone. -/
theorem attended_news {news : News α} (hnews : t.news? i = some (news, u))
    (h : t.Each fun _ seat => seat.Attended) : u.Each fun j seat => i ≠ j → seat.Attended := by
  obtain ⟨_, -, -, ⟨_, rest, -, -, rfl⟩ | ⟨-, -, rfl⟩⟩ := news?_eq_some hnews
  · exact h.modify (fun _ _ _ hseat _ => hseat) fun _ _ _ hself => absurd rfl hself
  · exact fun j seat hseat _ => h j seat hseat

/-- The manager waits for nodes that are out only. -/
theorem outNodes_of_decide (hwaits : (t.decide solvers).phase = .waiting) :
    (t.decide solvers).outNodes ≠ [] := by
  rcases decide_cases solvers t with ⟨status, -, heq⟩ | ⟨-, ⟨e, u, -, heq⟩ | ⟨u, -, heq⟩⟩
  · rw [heq] at hwaits
    exact absurd (searching_iff.mpr (.inr hwaits)) (not_searching_finishDrain _ _)
  · rw [heq] at hwaits
    cases hwaits
  · rw [heq] at hwaits ⊢
    intro hnone
    rw [show u.outNodes = [] from hnone] at hwaits
    cases hwaits

/-- A worker that handles an order is waited for as before, or not any more. -/
theorem attended_work (solvers : Nat → Solvers σ α) (i : Nat)
    (h : t.Each fun _ seat => seat.Attended) :
    (t.work solvers i).Each fun _ seat => seat.Attended :=
  each_work solvers i h fun _ hw horders hhandle hserved => hserved.served horders hhandle hw

/-- No event makes the manager wait in vain. -/
theorem Live.step (h : t.Live settings) (event : Event) :
    (t.step solvers event).Live settings := by
  have hbooks : (t.step solvers event).Thrifty settings := h.books.step event
  have hstaffed : 0 < (t.step solvers event).seats.length :=
    hbooks.workers.symm ▸ h.books.workers ▸ h.staffed
  have hattended : (t.step solvers event).Searching → t.Each fun _ seat => seat.Attended :=
    fun hsearching => h.attended (searching_of_step hsearching)
  have heffect := effect_step solvers t event
  generalize t.step solvers event = after at heffect hbooks hstaffed hattended ⊢
  refine ⟨hbooks, hstaffed, fun hsearching => ?_, fun hwaits => ?_⟩
  · cases heffect with
    | nothing | tick => exact hattended hsearching
    | work i => exact attended_work solvers i (hattended hsearching)
    | decide =>
      exact (decide_frame solvers (fun _ seat node turn _ _ => seat.attended_give node turn)
        (fun _ _ _ hseat => hseat.push _) (hattended hsearching)).1
    | hear _ hnews =>
      obtain ⟨reply, u, htake, heq⟩ := hear_goesOn hsearching
      rw [heq]
      exact (takeIn_goesOn htake (attended_news hnews (hattended hsearching))).2
    | hearLate => exact absurd hsearching (not_searching_finishDrain _ _)
    | deadline => cases hsearching
  · -- only looking at the search makes a manager wait
    have hsearching := searching_iff.mpr (.inr hwaits)
    cases heffect with
    | nothing => exact h.waits hwaits
    | work i =>
      obtain ⟨-, hphase, hout, -⟩ := work_frame solvers t i
      exact hout ▸ h.waits (hphase ▸ hwaits)
    | decide => exact outNodes_of_decide hwaits
    | hear =>
      obtain ⟨_, _, -, heq⟩ := hear_goesOn hsearching
      rw [heq] at hwaits
      cases hwaits
    | hearLate => exact absurd hsearching (not_searching_finishDrain _ _)
    | tick | deadline => cases hwaits

/-- The manager never waits in vain in a run. -/
theorem Live.run (h : t.Live settings) (events : List Event) :
    (t.run solvers events).Live settings :=
  run_of_step (fun _ event h => h.step event) h events

/-! ## What an event brings -/

/-- An event that neither ends the search nor brings the end closer changes no seat. -/
structure Still (t : Team σ α) (event : Event) (u : Team σ α) : Prop where
  /-- No seat changes. -/
  seats : u.seats = t.seats
  /-- No node is dispatched or processed. -/
  spent : u.spent = t.spent
  /-- A worker has no order to read. -/
  work : ∀ i seat, event = .work i → t.seats[i]? = some seat → seat.worker.isSome = true →
    seat.orders = []
  /-- The manager waits once it has looked at the search. -/
  decide : event = .decide → u.phase = .waiting
  /-- A manager that waits has no news to read. -/
  receive : ∀ i, event = .receive i → t.phase = .waiting → (t.news? i).isSome = false

/-- What an event brings to a search that goes on. -/
inductive Turn (settings : Settings α) (t : Team σ α) (event : Event) (u : Team σ α) : Prop
  /-- The search is over. -/
  | ended (h : ¬ u.Searching)
  /-- The end is closer. -/
  | closer (h : u.toGo settings < t.toGo settings)
  /-- No seat changes. -/
  | still (h : t.Still event u)

/-- A worker reads an order if it has one. -/
theorem turn_work (settings : Settings α) (solvers : Nat → Solvers σ α) (t : Team σ α) (i : Nat) :
    t.Turn settings (.work i) (t.work solvers i) := by
  by_cases hbusy : ∃ seat, t.seats[i]? = some seat ∧ seat.worker.isSome = true ∧ seat.orders ≠ []
  · obtain ⟨seat, hseat, hworker, horders⟩ := hbusy
    exact .closer (toGo_work_lt hseat hworker horders)
  · have heq : t.work solvers i = t := by
      rcases work_cases solvers i t
        with heq | ⟨seat, w, order, rest, _, _, _, hseat, hw, horders, -, -⟩
      · exact heq
      · exact absurd ⟨seat, hseat, by rw [hw]; rfl, by rw [horders]; exact nofun⟩ hbusy
    rw [heq]
    refine .still ⟨rfl, rfl, fun j seat hj hseat hworker => ?_, nofun, nofun⟩
    cases hj
    by_contra horders
    exact hbusy ⟨seat, hseat, hworker, horders⟩

/-- The manager dispatches nodes if there are some and workers for them. -/
theorem Live.turn_decide (h : t.Live settings) (hphase : t.phase = .deciding) :
    t.Turn settings .decide (t.step solvers .decide) := by
  have hbooks : (t.step solvers .decide).Thrifty settings := h.books.step .decide
  rw [step_deciding solvers hphase] at hbooks ⊢
  by_cases hgoes : (t.decide solvers).Searching
  · rcases decide_goesOn h.staffed hgoes with hspent | ⟨hseats, hspent, hwaits⟩
    · exact .closer (toGo_lt_of_spent hbooks hspent)
    · exact .still ⟨hseats, hspent, nofun, fun _ => hwaits, nofun⟩
  · exact .ended hgoes

/-- A manager that waits takes in a reply if there is one. -/
theorem Live.turn_receive (h : t.Live settings) (hphase : t.phase = .waiting) (i : Nat) :
    t.Turn settings (.receive i) (t.step solvers (.receive i)) := by
  have hbooks : (t.step solvers (.receive i)).Thrifty settings := h.books.step (.receive i)
  rw [step_receive, hphase] at hbooks ⊢
  cases hnews : t.news? i with
  | none =>
    refine .still ⟨rfl, rfl, nofun, nofun, fun j hj _ => ?_⟩
    cases hj
    rw [hnews]
    rfl
  | some read =>
    obtain ⟨news, u⟩ := read
    rw [hnews] at hbooks
    dsimp only at hbooks ⊢
    -- a reply that does not end the search is a report, which counts as processed
    by_cases hgoes : (u.hear i news).Searching
    · refine .closer (toGo_lt_of_spent hbooks ?_)
      obtain ⟨hread, -⟩ := spends_news hnews
      obtain ⟨hbusy, hout, -⟩ := news?_out hnews
      have hdispatched := (spends_hear (t := u) (hout ▸ hbusy) news).1.dispatched
      obtain ⟨reply, v, htake, heq⟩ := hear_goesOn hgoes
      have hattended := h.attended (searching_iff.mpr (.inr hphase))
      have hprocessed := (takeIn_goesOn htake (attended_news hnews hattended)).1
      rw [search_news hnews] at hprocessed
      show _ < (u.hear i news).search.stats.processed + (u.hear i news).dispatched.length
      rw [hdispatched, hread.dispatched, heq]
      show t.search.stats.processed + t.dispatched.length < v.search.stats.processed + _
      omega
    · exact .ended hgoes

/-- An event ends the search, brings the end closer, or changes no seat. -/
theorem Live.turn (h : t.Live settings) (solvers : Nat → Solvers σ α) (hsearching : t.Searching)
    (event : Event) :
    t.Turn settings event (t.step solvers event) := by
  rcases searching_iff.mp hsearching with hphase | hphase
  · -- a manager that is about to look at the search does nothing else
    cases event with
    | work i => exact turn_work settings solvers t i
    | decide => exact h.turn_decide hphase
    | tick | deadline =>
      rw [step_deciding solvers hphase]
      exact .still ⟨rfl, rfl, nofun, nofun, nofun⟩
    | receive i =>
      rw [step_deciding solvers hphase]
      refine .still ⟨rfl, rfl, nofun, nofun, fun _ _ hwaits => ?_⟩
      cases hphase.symm.trans hwaits
  · cases event with
    | work i => exact turn_work settings solvers t i
    | receive i => exact h.turn_receive hphase i
    | decide =>
      rw [step_waiting solvers hphase]
      exact .still ⟨rfl, rfl, nofun, fun _ => hphase, nofun⟩
    | tick | deadline =>
      rw [step_waiting solvers hphase]
      exact .still ⟨rfl, rfl, nofun, nofun, nofun⟩

end Team

end BranchBound
