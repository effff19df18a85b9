import BranchBound.Proofs.Search.Failing
import BranchBound.Proofs.Team.Draining

/-! # Outstanding work

When a search ends, the manager says whether nodes are still out. What it says can be told from
the run alone, from how many nodes a worker was given and how often the manager has heard from it.
As long as the search has not ended these two numbers are equal if the worker is idle, and otherwise
the first is greater by one. So after a search that was not aborted workers are active just in case
one of them was not heard from; whether its node was taken in or put back does not matter.

A search that is aborted is an exception. The failure of a worker ends it before the worker is noted
to be idle, so workers are said to be active even if each of them has answered.

* **`Team.heardFrom`** — what a manager hears from a worker in a run.
* **`Team.Tallies`** — the invariant.
* **`Team.workersActive_iff`**, **`Team.workersActive_iff_of_error`** — when workers are said to be
  active.
* **`Team.complete_lateFailure`**, **`Team.workersActive_soleFailure`** — they are not although a
  node was put back, and they are although there is one worker and it has answered. -/

namespace BranchBound

variable {σ α : Type}

/-- Whether the manager reads what workers send. -/
def Phase.isListening : Phase α → Bool
  | .waiting | .draining _ => true
  | .deciding | .ended .. => false

/-- No node can be handed out only if none is open. -/
theorem Search.next_error [Scalar α] {s t : Search α} {e : Error α} (h : s.next = (.error e, t)) :
    e = .emptyTree := by
  have herror : s.brancher.next.1 = .error e := congrArg Prod.fst h
  rcases s.brancher.next_cases with ⟨-, hnext⟩ | ⟨n, f, -, hnext⟩ <;> rw [hnext] at herror
  · exact (Except.error.inj herror).symm
  · cases herror

namespace Team

variable {t u : Team σ α} {i : Nat} {heard : Nat → List (News α)} {news : News α} {e : Error α}

/-- Whether some news are a reply. -/
def News.isReply : News α → Bool
  | .reply _ => true
  | .gone => false

/-- What the manager hears from a worker at an event, if anything. -/
def hears? (t : Team σ α) (event : Event) (i : Nat) : Option (News α) :=
  if event = .receive i ∧ t.phase.isListening = true then (t.news? i).map (·.1) else none

/-- How many nodes were dispatched to a worker. -/
def dispatchedTo (t : Team σ α) (i : Nat) : Nat := t.dispatched.countP (·.2 = i)

/-- The node that a worker is on. -/
def out? (t : Team σ α) (i : Nat) : Option (Assignment α) := t.seats[i]?.bind (·.out)

/-! ## Who is on a node -/

/-- Nodes are out just in case a worker is on one. -/
theorem isEmpty_outNodes : t.outNodes.isEmpty = false ↔ ∃ i, (t.out? i).isSome = true := by
  rw [List.isEmpty_eq_false_iff_exists_mem]
  constructor
  · rintro ⟨n, hn⟩
    obtain ⟨i, seat, a, hseat, hout, -⟩ := mem_outNodes.mp hn
    exact ⟨i, by rw [out?, hseat, Option.bind_some, hout]; rfl⟩
  · rintro ⟨i, hi⟩
    obtain ⟨a, ha⟩ := Option.isSome_iff_exists.mp hi
    obtain ⟨seat, hseat, hout⟩ := Option.bind_eq_some_iff.mp ha
    exact ⟨a.node, mem_outNodes.mpr ⟨i, seat, a, hseat, hout, rfl⟩⟩

/-- What workers are on when one seat is changed. -/
theorem out?_modifySeat (t : Team σ α) (i : Nat) (f : Seat α → Seat α) (j : Nat) :
    (t.modifySeat i f).out? j
      = t.seats[j]?.bind fun seat => if i = j then (f seat).out else seat.out := by
  show (t.seats.modify i f)[j]?.bind _ = _
  rw [List.getElem?_modify]
  cases t.seats[j]? with
  | none => rfl
  | some seat =>
    show (if i = j then f seat else seat).out = if i = j then (f seat).out else seat.out
    split <;> rfl

/-- A change that leaves the nodes of workers alone. -/
theorem out?_modifySeat_same {f : Seat α → Seat α}
    (h : ∀ seat, t.seats[i]? = some seat → (f seat).out = seat.out) :
    (t.modifySeat i f).out? = t.out? := by
  funext j
  rw [out?_modifySeat, out?]
  cases hseat : t.seats[j]? with
  | none => rfl
  | some seat =>
    by_cases hij : i = j
    · subst hij
      simp only [Option.bind_some, if_true, h seat hseat]
    · simp only [Option.bind_some, if_neg hij]

/-- A worker that is released is on no node. -/
theorem out?_release (t : Team σ α) (i j : Nat) :
    (t.release i).out? j = if i = j then none else t.out? j := by
  refine (out?_modifySeat t i _ j).trans ?_
  split
  · cases t.seats[j]? <;> rfl
  · rfl

/-- A worker is given a node. -/
theorem out?_give {seat : Seat α} (h : t.seats[i]? = some seat) (n : Node α) (j : Nat) :
    (t.give i n).out? j = if i = j then some ⟨n, t.dispatched.length⟩ else t.out? j := by
  rw [out?, seats_give]
  refine (out?_modifySeat t i _ j).trans ?_
  split
  · next hij =>
    rw [← hij, h]
    rfl
  · rfl

/-- Reading the news of a worker that is on a node changes nothing about that. -/
theorem news?_out (h : t.news? i = some (news, u)) :
    (t.out? i).isSome = true ∧ u.out? = t.out? ∧ u.dispatched = t.dispatched := by
  obtain ⟨seat, hseat, hout, hcases⟩ := news?_eq_some h
  have hbusy : (t.out? i).isSome = true := by
    rw [out?, hseat]
    exact hout
  rcases hcases with ⟨reply, rest, -, -, rfl⟩ | ⟨-, -, rfl⟩
  · exact ⟨hbusy, out?_modifySeat_same fun _ _ => rfl, rfl⟩
  · exact ⟨hbusy, rfl, rfl⟩

/-- Telling workers of a point is no business of the nodes they are on. It fails only if one of them
is gone. -/
theorem announceTo_out (c : Candidate α) (is : List Nat) (t : Team σ α) :
    (announceTo c is t).2.out? = t.out? ∧ (announceTo c is t).2.dispatched = t.dispatched
      ∧ ∀ e, (announceTo c is t).1 = .error e → ∃ fault, e = .channelClosed fault := by
  induction is generalizing t with
  | nil => exact ⟨rfl, rfl, nofun⟩
  | cons i rest ih =>
    unfold announceTo
    cases hsend : t.send? i (.improve c) with
    | none => exact ⟨rfl, rfl, fun _ he => ⟨_, (Except.error.inj he).symm⟩⟩
    | some v =>
      obtain ⟨seat, -, -, rfl⟩ := send?_eq_some hsend
      obtain ⟨hout, hdispatched, herror⟩ := ih (t.modifySeat i (·.push (.improve c)))
      exact ⟨hout.trans (out?_modifySeat_same fun _ _ => rfl), hdispatched, herror⟩

/-- Telling the workers of the incumbent is no business of the nodes they are on. -/
theorem announce_out (t : Team σ α) :
    t.announce.2.out? = t.out? ∧ t.announce.2.dispatched = t.dispatched
      ∧ ∀ e, t.announce.1 = .error e → ∃ fault, e = .channelClosed fault := by
  unfold announce
  split
  · exact announceTo_out _ _ t
  · exact ⟨rfl, rfl, nofun⟩

/-! ## Counts -/

/-- A worker was dispatched one node more than it was heard from if it is on a node, and as many
otherwise. -/
def Counts (heard : Nat → List (News α)) (t : Team σ α) : Prop :=
  ∀ i, t.dispatchedTo i = (heard i).length + if (t.out? i).isSome then 1 else 0

/-- The counts depend on what was dispatched and on who is on a node. -/
theorem Counts.of_eq (h : t.Counts heard) (hout : u.out? = t.out?)
    (hdispatched : u.dispatched = t.dispatched) : u.Counts heard := by
  intro i
  rw [dispatchedTo, hdispatched, hout]
  exact h i

/-- A worker is on a node just in case it was dispatched more nodes than it was heard from. -/
theorem Counts.lt_iff (h : t.Counts heard) (i : Nat) :
    (heard i).length < t.dispatchedTo i ↔ (t.out? i).isSome = true := by
  rw [h i]
  split <;> simp_all

/-- A worker that was on a node is heard from and released. -/
theorem Counts.release (h : t.Counts heard) (hbusy : (t.out? i).isSome = true)
    (hout : u.out? = (t.release i).out?) (hdispatched : u.dispatched = t.dispatched)
    (news : News α) : u.Counts fun j => heard j ++ (if i = j then some news else none).toList := by
  intro j
  have hj := h j
  rw [dispatchedTo] at hj
  rw [dispatchedTo, hdispatched, hout, out?_release, hj]
  by_cases hij : i = j
  · subst hij
    simp [hbusy]
  · simp [hij]

/-- An idle worker is given a node. -/
theorem Counts.give {seat : Seat α} (h : t.Counts heard) (hseat : t.seats[i]? = some seat)
    (hidle : seat.out = none) (n : Node α) : (t.give i n).Counts heard := by
  intro j
  have hj := h j
  have hdispatched : (t.give i n).dispatchedTo j = t.dispatchedTo j + if i = j then 1 else 0 := by
    show (t.dispatched ++ [(n.id, i)]).countP _ = _
    rw [List.countP_append, List.countP_singleton]
    simp [dispatchedTo]
  have hout : t.out? i = none := by
    rw [out?, hseat]
    exact hidle
  rw [hdispatched, hj, out?_give hseat]
  by_cases hij : i = j
  · subst hij
    simp [hout]
  · simp [hij]

/-- No worker was found to be gone. -/
def AllReplies (heard : Nat → List (News α)) : Prop :=
  ∀ i, ∀ news ∈ heard i, news.isReply = true

/-- A worker is heard from that is not gone. -/
theorem AllReplies.read (h : AllReplies heard) (i : Nat) (reply : Reply α) :
    AllReplies fun j => heard j ++ (if i = j then some (News.reply reply) else none).toList := by
  intro j news hmem
  rcases List.mem_append.mp hmem with hold | hnew
  · exact h j news hold
  · split at hnew
    · cases List.mem_singleton.mp hnew
      rfl
    · cases hnew

/-! ## The invariant -/

/-- What is known of a team from what its manager has heard. -/
inductive Tallies (heard : Nat → List (News α)) (t : Team σ α) : Prop
  /-- The search goes on, and no worker was found to be gone. -/
  | searching (h : t.Searching) (hcounts : t.Counts heard)
      (hreplies : AllReplies heard)
  /-- The manager waits for late results. -/
  | draining {status : Status} (h : t.phase = .draining status) (hcounts : t.Counts heard)
      (hbusy : ∃ i, (t.out? i).isSome = true)
  /-- The search has ended. -/
  | ended {status : Status} {termination : Termination}
      (h : t.phase = .ended (.ok status) termination)
      (hactive : termination = .workersActive ↔ ∃ i, (heard i).length < t.dispatchedTo i)
  /-- The search was aborted. -/
  | failed {e : Error α} {termination : Termination} (h : t.phase = .ended (.error e) termination)
      (hactive : termination = .workersActive
        ↔ (∃ i, (heard i).countP News.isReply < t.dispatchedTo i)
          ∨ ∃ i text, e = .workerFailed i text)

/-- A search that goes on has heard replies. -/
theorem Tallies.of_searching (h : t.Tallies heard) (hsearching : t.Searching) :
    t.Counts heard ∧ AllReplies heard := by
  rw [searching_iff] at hsearching
  cases h with
  | searching _ hcounts hreplies => exact ⟨hcounts, hreplies⟩
  | draining h | ended h | failed h => simp [h] at hsearching

/-- A manager waits for late results as long as a node is out. -/
theorem Tallies.of_draining {status : Status} (h : t.Tallies heard)
    (hphase : t.phase = .draining status) :
    t.Counts heard ∧ ∃ i, (t.out? i).isSome = true := by
  cases h with
  | searching h => simp [searching_iff, hphase] at h
  | draining _ hcounts hbusy => exact ⟨hcounts, hbusy⟩
  | ended h | failed h => cases hphase.symm.trans h

/-- The tally depends on what was dispatched, on who is on a node and on the phase. -/
theorem Tallies.of_eq (h : t.Tallies heard) (hphase : u.phase = t.phase) (hout : u.out? = t.out?)
    (hdispatched : u.dispatched = t.dispatched) : u.Tallies heard := by
  have hsame : ∀ i, u.dispatchedTo i = t.dispatchedTo i := fun i => by
    rw [dispatchedTo, hdispatched, dispatchedTo]
  cases h with
  | searching h hcounts hreplies =>
    refine .searching ?_ (hcounts.of_eq hout hdispatched) hreplies
    rw [Searching, hphase]
    exact h
  | draining h hcounts hbusy =>
    exact .draining (hphase.trans h) (hcounts.of_eq hout hdispatched) (hout ▸ hbusy)
  | ended h hactive =>
    refine .ended (hphase.trans h) ?_
    simpa only [hsame] using hactive
  | failed h hactive =>
    refine .failed (hphase.trans h) ?_
    simpa only [hsame] using hactive

/-- The search ends if no node is out, and otherwise the manager waits for late results. -/
theorem Counts.finishDrain (h : t.Counts heard) (status : Status) :
    (t.finishDrain status).Tallies heard := by
  rcases finishDrain_cases t status with ⟨hempty, heq⟩ | ⟨hsome, heq⟩
  · rw [heq]
    refine .ended rfl (iff_of_false nofun ?_)
    rintro ⟨i, hlt⟩
    have hsome := isEmpty_outNodes.mpr ⟨i, (h.lt_iff i).mp hlt⟩
    rw [hempty] at hsome
    cases hsome
  · rw [heq]
    exact .draining rfl (h.of_eq rfl rfl) (isEmpty_outNodes.mp hsome)

/-- What is said of the workers when a search is aborted. -/
theorem phase_abort (t : Team σ α) (e : Error α) :
    ∃ termination, (t.abort e).phase = .ended (.error e) termination
      ∧ (termination = .workersActive ↔ ∃ i, (t.out? i).isSome = true) := by
  refine ⟨_, rfl, ?_⟩
  rw [← isEmpty_outNodes]
  split
  · next hempty => simp [hempty]
  · next hsome => simp [hsome]

/-- A search is aborted, but not because a worker has failed. -/
theorem Counts.abort (h : t.Counts heard) (hreplies : AllReplies heard)
    (he : ∀ i text, e ≠ .workerFailed i text) : (t.abort e).Tallies heard := by
  obtain ⟨termination, hphase, hactive⟩ := phase_abort t e
  refine .failed hphase (hactive.trans ?_)
  -- everything that was heard is a reply, so that replies are as many as news
  rw [or_iff_left fun ⟨i, text, heq⟩ => he i text heq]
  refine exists_congr fun i => ?_
  rw [List.countP_eq_length.mpr (hreplies i)]
  exact (h.lt_iff i).symm

/-- A search is aborted while a worker is on a node. -/
theorem Tallies.abort (hbusy : (t.out? i).isSome = true)
    (h : (∃ i, (heard i).countP News.isReply < t.dispatchedTo i)
      ∨ ∃ i text, e = .workerFailed i text) : (t.abort e).Tallies heard := by
  obtain ⟨termination, hphase, hactive⟩ := phase_abort t e
  exact .failed hphase (iff_of_true (hactive.mpr ⟨i, hbusy⟩) h)

/-! ## What the manager does -/

variable [Scalar α]

/-- Nodes are handed out. If that fails, it is not because a worker has failed. -/
theorem Counts.dispatchTo (is : List Nat) (h : t.Counts heard) :
    (dispatchTo is t).2.Counts heard
      ∧ ∀ e, (Team.dispatchTo is t).1 = .error e → ∀ i text, e ≠ .workerFailed i text := by
  induction is generalizing t with
  | nil =>
    refine ⟨h, ?_⟩
    rintro _ ⟨⟩
  | cons i rest ih =>
    have hcases := handing i rest t
    generalize Team.dispatchTo (i :: rest) t = result at hcases ⊢
    cases hcases with
    | busy => exact ih h
    | exhausted =>
      refine ⟨h, ?_⟩
      rintro _ ⟨⟩
    -- the search may have failed, and a worker may be gone, but none was heard to fail
    | failed hnext =>
      refine ⟨h, ?_⟩
      rintro _ ⟨⟩ j text rfl
      cases Search.next_error hnext
    | gone =>
      refine ⟨h, ?_⟩
      rintro _ ⟨⟩ j text ⟨⟩
    | @given _ node search _ _ hseat hout =>
      exact ih (t := ({ t with search } : Team σ α).give i node) (Counts.give h hseat hout node)

/-- A worker whose report was read is on no node any more, whatever becomes of the report. An error
is not that the worker has failed. -/
theorem takeIn_report_out (t : Team σ α) (i : Nat) (r : Report α) :
    (t.takeIn i (.report r)).2.out? = (t.release i).out?
      ∧ (t.takeIn i (.report r)).2.dispatched = t.dispatched
      ∧ ∀ e, (t.takeIn i (.report r)).1 = .error e → ∀ j text, e ≠ .workerFailed j text := by
  have htaking := taking t i (.report r)
  generalize t.takeIn i (.report r) = result at htaking ⊢
  cases htaking with
  | mistaken =>
    refine ⟨rfl, rfl, ?_⟩
    rintro _ ⟨⟩ j text ⟨⟩
  | refused hid happly =>
    refine ⟨rfl, rfl, ?_⟩
    rintro _ ⟨⟩ j text rfl
    rcases Search.apply_error happly with ⟨-, ⟨hunknown, -⟩ | ⟨⟨_, hfault⟩, -⟩⟩
    · cases hunknown
    · cases hfault
  | better =>
    obtain ⟨hout, hdispatched, herror⟩ := announce_out (t.accept i r)
    refine ⟨hout, hdispatched, fun e he j text heq => ?_⟩
    obtain ⟨fault, hfault⟩ := herror e he
    cases heq.symm.trans hfault
  | accepted => exact ⟨rfl, rfl, nofun⟩

/-- A worker whose node was put back is on no node any more. -/
theorem requeue_out (t : Team σ α) (i : Nat) :
    (t.requeue i).out? = (t.release i).out? ∧ (t.requeue i).dispatched = t.dispatched := by
  have hrequeuing := requeuing t i
  generalize t.requeue i = after at hrequeuing ⊢
  cases hrequeuing with
  | idle hidle =>
    refine ⟨funext fun j => ?_, rfl⟩
    rw [out?_release]
    split
    · next hij => exact hij ▸ hidle
    · rfl
  | refused | putBack => exact ⟨rfl, rfl⟩

/-- Late news of a worker release it. -/
theorem hearLate_out (t : Team σ α) (i : Nat) (news : News α) :
    (t.hearLate i news).out? = (t.release i).out?
      ∧ (t.hearLate i news).dispatched = t.dispatched := by
  rcases hearLate_cases t i news with heq | ⟨r, -, heq⟩
  · rw [heq]
    exact requeue_out t i
  · rw [heq]
    obtain ⟨hreleased, hdispatched, -⟩ := takeIn_report_out t i r
    exact ⟨hreleased, hdispatched⟩

/-- Putting nodes back dispatches none. -/
theorem dispatched_foldl_requeue (is : List Nat) (t : Team σ α) :
    (is.foldl requeue t).dispatched = t.dispatched := by
  induction is generalizing t with
  | nil => rfl
  | cons i rest ih => exact (ih (t.requeue i)).trans (requeue_out t i).2

/-- Handling an order is no business of the manager. -/
theorem work_out (solvers : Nat → Solvers σ α) (t : Team σ α) (i : Nat) :
    (t.work solvers i).out? = t.out? ∧ (t.work solvers i).dispatched = t.dispatched := by
  rcases work_cases solvers i t
    with heq | ⟨seat, w, order, rest, reaction, v, memory, hseat, -, -, -, heq⟩
  · rw [heq]
    exact ⟨rfl, rfl⟩
  · rw [heq]
    refine ⟨?_, rfl⟩
    refine out?_modifySeat_same (f := fun _ => seat.served rest v reaction) fun old hold => ?_
    rw [hseat] at hold
    cases hold
    exact seat.out_served rest v reaction

variable {solvers : Nat → Solvers σ α}

/-- The manager looks at a search that goes on. -/
theorem Counts.decide (h : t.Counts heard) (hreplies : AllReplies heard) :
    (t.decide solvers).Tallies heard := by
  have hnow : (t.atTime solvers).Counts heard := h.of_eq rfl rfl
  obtain ⟨hdispatched, herror⟩ := hnow.dispatchTo (List.range t.seats.length)
  rcases decide_cases solvers t with ⟨status, -, heq⟩ | ⟨-, ⟨e, u, hu, heq⟩ | ⟨u, hu, heq⟩⟩
  · rw [heq]
    exact hnow.finishDrain status
  · rw [heq]
    rw [show Team.dispatchTo (List.range t.seats.length) (t.atTime solvers) = (.error e, u) from hu]
      at hdispatched herror
    exact hdispatched.abort hreplies (herror e rfl)
  · rw [heq]
    rw [show Team.dispatchTo (List.range t.seats.length) (t.atTime solvers) = (.ok (), u) from hu]
      at hdispatched
    -- whether some node is out or none, the search goes on
    refine .searching ?_ (hdispatched.of_eq rfl rfl) hreplies
    rw [searching_iff]
    dsimp only
    split
    · exact .inl rfl
    · exact .inr rfl

/-- News reach a manager whose search goes on. -/
theorem Counts.hear (h : t.Counts heard) (hreplies : AllReplies heard)
    (hnews : t.news? i = some (news, u)) :
    (u.hear i news).Tallies fun j => heard j ++ (if i = j then some news else none).toList := by
  obtain ⟨hbusy, hout, hdispatched⟩ := news?_out hnews
  have hread : u.Counts heard := h.of_eq hout hdispatched
  rw [← hout] at hbusy
  have hhearing := hearing u i news
  generalize u.hear i news = after at hhearing ⊢
  cases hhearing with
  | gone =>
    -- the worker has left no reply, and its node stays out
    refine .abort hbusy (.inl ⟨i, ?_⟩)
    have hlt := (hread.lt_iff i).mpr hbusy
    have hle : (heard i).countP News.isReply ≤ (heard i).length := List.countP_le_length
    simpa [News.isReply] using hle.trans_lt hlt
  | @refused reply e v htake =>
    cases reply with
    | failed text =>
      -- the worker has replied, but it is not released
      cases htake
      exact .abort hbusy (.inr ⟨i, text, rfl⟩)
    | report r =>
      -- the worker is released before anything can go wrong with its report
      obtain ⟨hreleased, hsame, herror⟩ := takeIn_report_out u i r
      have hcounts := hread.release hbusy hreleased hsame (.reply (.report r))
      rw [htake] at hcounts herror
      exact hcounts.abort (hreplies.read i (.report r)) (herror e rfl)
  | @taken reply v htake =>
    obtain ⟨_, _, r, _, _, rfl, -⟩ := takeIn_ok htake
    obtain ⟨hreleased, hsame, -⟩ := takeIn_report_out u i r
    have hcounts := hread.release hbusy hreleased hsame (.reply (.report r))
    rw [htake] at hcounts
    exact .searching rfl (hcounts.of_eq rfl rfl) (hreplies.read i (.report r))

/-- News reach a manager that waits for late results. -/
theorem Counts.hearLate (h : t.Counts heard) (hnews : t.news? i = some (news, u))
    (status : Status) :
    ((u.hearLate i news).finishDrain status).Tallies
      fun j => heard j ++ (if i = j then some news else none).toList := by
  obtain ⟨hbusy, hout, hdispatched⟩ := news?_out hnews
  obtain ⟨hreleased, hsame⟩ := hearLate_out u i news
  have hread : u.Counts heard := h.of_eq hout hdispatched
  rw [← hout] at hbusy
  exact (hread.release hbusy hreleased hsame news).finishDrain status

/-! ## What is heard -/

/-- What happens when the manager could hear from a worker. -/
theorem step_receive (solvers : Nat → Solvers σ α) (t : Team σ α) (i : Nat) :
    t.step solvers (.receive i) = match t.phase, t.news? i with
      | .waiting, some (news, u) => u.hear i news
      | .draining status, some (news, u) => (u.hearLate i news).finishDrain status
      | _, _ => t := by
  unfold step
  cases t.phase with
  | deciding | ended => rfl
  | waiting | draining =>
    dsimp only
    cases t.news? i <;> rfl

/-- The manager of a search that goes on, or that waits for late results, hears from a worker.
Otherwise nothing happens. -/
theorem receive_cases (solvers : Nat → Solvers σ α) (t : Team σ α) (i : Nat) :
    t.step solvers (.receive i) = t ∧ (∀ j, t.hears? (.receive i) j = none)
      ∨ ∃ news u, t.news? i = some (news, u)
        ∧ (∀ j, t.hears? (.receive i) j = if i = j then some news else none)
        ∧ (t.phase = .waiting ∧ t.step solvers (.receive i) = u.hear i news
          ∨ ∃ status, t.phase = .draining status
            ∧ t.step solvers (.receive i) = (u.hearLate i news).finishDrain status) := by
  -- both phases that listen read the same news
  have hheard : ∀ j, t.hears? (.receive i) j
      = if i = j ∧ t.phase.isListening = true then (t.news? i).map (·.1) else none := by
    intro j
    unfold hears?
    by_cases hij : i = j
    · simp [hij]
    · simp [hij]
  rw [step_receive]
  simp only [hheard]
  cases hnews : t.news? i with
  | none => exact .inl ⟨by cases t.phase <;> rfl, fun j => ite_self _⟩
  | some p =>
    obtain ⟨news, u⟩ := p
    cases hphase : t.phase with
    | deciding | ended => exact .inl ⟨rfl, fun j => if_neg fun hand => Bool.false_ne_true hand.2⟩
    | waiting => exact .inr ⟨news, u, rfl, fun j => by simp [Phase.isListening], .inl ⟨rfl, rfl⟩⟩
    | draining status =>
      exact .inr ⟨news, u, rfl, fun j => by simp [Phase.isListening], .inr ⟨status, rfl, rfl⟩⟩

/-! ## Events and runs -/

/-- The tally after an event. -/
theorem Tallies.step (h : t.Tallies heard) (event : Event) :
    (t.step solvers event).Tallies fun i => heard i ++ (t.hears? event i).toList := by
  by_cases hevent : ∃ i, event = .receive i
  · obtain ⟨i, rfl⟩ := hevent
    rcases receive_cases solvers t i with ⟨heq, hnone⟩ | ⟨news, u, hnews, hheard, hcases⟩
    · simpa only [heq, hnone, Option.toList_none, List.append_nil] using h
    · simp only [hheard]
      rcases hcases with ⟨hphase, heq⟩ | ⟨status, hphase, heq⟩
      · obtain ⟨hcounts, hreplies⟩ := h.of_searching (searching_iff.mpr (.inr hphase))
        exact heq ▸ hcounts.hear hreplies hnews
      · exact heq ▸ (h.of_draining hphase).1.hearLate hnews status
  · -- nothing is read at any other event
    have hnone : ∀ i, t.hears? event i = none :=
      fun i => if_neg fun hand => hevent ⟨i, hand.1⟩
    simp only [hnone, Option.toList_none, List.append_nil]
    have heffect := effect_step solvers t event
    generalize t.step solvers event = after at heffect ⊢
    cases heffect with
    | nothing => exact h
    | work i =>
      obtain ⟨hout, hdispatched⟩ := work_out solvers t i
      exact h.of_eq (work_frame solvers t i).2.1 hout hdispatched
    | decide hphase =>
      obtain ⟨hcounts, hreplies⟩ := h.of_searching (searching_iff.mpr (.inl hphase))
      exact hcounts.decide hreplies
    | tick hphase =>
      obtain ⟨hcounts, hreplies⟩ := h.of_searching (searching_iff.mpr (.inr hphase))
      exact .searching rfl (hcounts.of_eq rfl rfl) hreplies
    | @hear i | @hearLate i => exact absurd ⟨i, rfl⟩ hevent
    | deadline hphase =>
      -- the manager would not wait any more if it had heard from all workers
      obtain ⟨hcounts, i, hbusy⟩ := h.of_draining hphase
      refine .ended rfl (iff_of_true rfl ⟨i, ?_⟩)
      have hdispatched := dispatched_foldl_requeue (List.range t.seats.length) t
      show _ < List.countP _ (List.foldl requeue t (List.range t.seats.length)).dispatched
      rw [hdispatched]
      exact (hcounts.lt_iff i).mpr hbusy

/-- What the manager hears from a worker in a run, oldest first. -/
def heardFrom (solvers : Nat → Solvers σ α) (i : Nat) : Team σ α → List Event → List (News α)
  | _, [] => []
  | t, event :: rest => (t.hears? event i).toList ++ heardFrom solvers i (t.step solvers event) rest

/-- The tally after a run. -/
theorem Tallies.run (h : t.Tallies heard) (events : List Event) :
    (t.run solvers events).Tallies fun i => heard i ++ heardFrom solvers i t events := by
  induction events generalizing t heard with
  | nil => simpa only [heardFrom, List.append_nil, run_nil] using h
  | cons event rest ih =>
    have hstep : (t.step solvers event).Tallies _ := h.step event
    have hrest := ih hstep
    simpa only [heardFrom, List.append_assoc, run_cons] using hrest

/-- Nothing was dispatched at the start, and nothing was heard. -/
theorem tallies_start {vars : List (Variable α)} {settings : Settings α} {memory : σ}
    (h : Team.start vars settings memory = .ok t) : t.Tallies fun _ => [] := by
  have hidle := each_start h
  obtain ⟨-, search, -, heq⟩ := start_ok h
  have hout : ∀ i, t.out? i = none := by
    intro i
    unfold out?
    cases hseat : t.seats[i]? with
    | none => rfl
    | some seat =>
      rw [hidle i seat hseat]
      rfl
  refine .searching (by rw [heq]; rfl) (fun i => ?_) fun _ _ hmem => absurd hmem List.not_mem_nil
  rw [hout, dispatchedTo, heq]
  rfl

/-! ## What is said at the end -/

section End

variable {vars : List (Variable α)} {settings : Settings α} {memory : σ} {start : Team σ α}
  {events : List Event} {termination : Termination}

/-- At the end of a search that was not aborted, workers are said to be active just in case a worker
was not heard from after a node was dispatched to it: it sent no report and no failure, and was not
found to be gone. -/
theorem workersActive_iff {status : Status} (hstart : Team.start vars settings memory = .ok start)
    (hended : (start.run solvers events).phase = .ended (.ok status) termination) :
    termination = .workersActive
      ↔ ∃ i, (heardFrom solvers i start events).length
        < (start.run solvers events).dispatchedTo i := by
  have htallies : (start.run solvers events).Tallies _ := (tallies_start hstart).run events
  cases htallies with
  | searching h => simp [searching_iff, hended] at h
  | draining h | failed h => cases hended.symm.trans h
  | ended h hactive =>
    cases hended.symm.trans h
    exact hactive

/-- At the end of a search that was aborted, workers are said to be active just in case a worker
sent no reply after a node was dispatched to it, or the failure of a worker ended the search. -/
theorem workersActive_iff_of_error (hstart : Team.start vars settings memory = .ok start)
    (hended : (start.run solvers events).phase = .ended (.error e) termination) :
    termination = .workersActive
      ↔ (∃ i, (heardFrom solvers i start events).countP News.isReply
          < (start.run solvers events).dispatchedTo i)
        ∨ ∃ i text, e = .workerFailed i text := by
  have htallies : (start.run solvers events).Tallies _ := (tallies_start hstart).run events
  cases htallies with
  | searching h => simp [searching_iff, hended] at h
  | draining h | ended h => cases hended.symm.trans h
  | failed h hactive =>
    cases hended.symm.trans h
    exact hactive

end End

/-- Solvers that bound the root by minus one and every other node by one, always find the point one,
and fail to bound the node with the id two. -/
def unequalSolvers : Solvers Unit (Extended ℚ) where
  lower n _ :=
    if n.id = 2 then throw (.error (.solverFailed (.described "no bound")))
    else pure (.ofBound (if n.id = 0 then -1 else 1) [])
  upper _ _ incumbent := pure (.ofPoint 1 [1] incumbent)

/-- The number of news cannot be replaced by that of the nodes taken in: a worker fails when the
search is over, its node is put back and is open at the end, and yet no worker is said to be
active. -/
theorem complete_lateFailure :
    ∃ start ∈ (Team.start Async.sampleVars
        { Settings.standard with workers := 2, maxNodes := 2 } ()).toOption,
      let t := start.run (fun _ => unequalSolvers) (mistakenEvents.take 8)
      let u := start.run (fun _ => unequalSolvers) mistakenEvents
      t.outNodes.map (·.id) = [2] ∧ u.search.brancher.frontier.nodes.map (·.id) = [2]
        ∧ ∃ solution ∈ u.solution?, solution.status = .nodeLimit ∧ solution.termination = .complete
          ∧ solution.lowerBound = -1 := by
  decide +kernel

/-- The failure of a worker cannot be left out: the only worker answers the only node with a
failure, and yet a worker is said to be active. -/
theorem workersActive_soleFailure :
    ∃ start ∈ (Team.start Async.sampleVars { Settings.standard with workers := 1 } ()).toOption,
      let events : List Event := [.decide, .work 0, .receive 0]
      let u := start.run (fun _ => Serial.brokenSolvers) events
      u.dispatched = [(0, 0)]
        ∧ (heardFrom (fun _ => Serial.brokenSolvers) 0 start events).countP News.isReply = 1
        ∧ ∃ solution ∈ u.solution?, solution.status = .failed
          ∧ solution.termination = .workersActive := by
  decide +kernel

end Team

end BranchBound
