import BranchBound.Proofs.Team.Outstanding

/-! # How many nodes a team is given

A team ends its search once as many nodes are processed as its settings allow. Other nodes may be
out by then, and they are processed nevertheless; but the manager hands out nodes only after it has
looked at the search, so that all but one worker can be on a node at most when the last node that is
allowed comes in.

* **`Settings.allowance`** — how many nodes a team is given at most.
* **`Team.charged`** — how many nodes are processed or out.
* **`Team.Spends`** — what every part of a step does but handing out nodes: none is dispatched.
* **`Team.charged_dispatchTo`** — nodes that are handed out are dispatched and charged.
* **`Team.Thrifty`** — the invariant: as long as the search goes on, the nodes that were dispatched
  are processed or out. -/

namespace BranchBound

variable {σ α : Type}

/-- How many nodes a team is given at most: the nodes that are allowed, and one more for every
worker but one. -/
def Settings.allowance (s : Settings α) : Nat :=
  if s.maxNodes = 0 then 0 else s.maxNodes + s.workers - 1

namespace Team

variable {t u v : Team σ α} {i : Nat}

/-- How many nodes are processed or out. -/
def charged (t : Team σ α) : Nat := t.search.stats.processed + t.outNodes.length

/-- No more nodes are out than there are workers. -/
theorem length_outNodes_le (t : Team σ α) : t.outNodes.length ≤ t.seats.length := by
  rw [outNodes_eq]
  exact List.length_filterMap_le _ _

/-! ## What dispatches no node -/

/-- From one state of a team to another no node was dispatched, and no node more is charged. -/
structure Spends (t u : Team σ α) : Prop where
  /-- No node was dispatched. -/
  dispatched : u.dispatched = t.dispatched
  /-- There are as many workers. -/
  workers : u.seats.length = t.seats.length
  /-- No node more is charged. -/
  charged_le : u.charged ≤ t.charged

/-- Nothing is dispatched from a state to itself. -/
theorem Spends.refl (t : Team σ α) : t.Spends t := ⟨rfl, rfl, Nat.le_refl _⟩

/-- One thing is done after the other. -/
theorem Spends.trans (h : t.Spends u) (k : u.Spends v) : t.Spends v :=
  ⟨k.dispatched.trans h.dispatched, k.workers.trans h.workers, k.charged_le.trans h.charged_le⟩

/-- The same nodes are charged if the same nodes are processed and out. -/
theorem charged_congr (hout : u.outNodes = t.outNodes)
    (hstats : u.search.stats = t.search.stats) : u.charged = t.charged := by
  rw [charged, charged, hstats, hout]

/-- What the manager is doing does not matter. -/
theorem Spends.inPhase (h : t.Spends u) (phase : Phase α) : t.Spends { u with phase } :=
  ⟨h.dispatched, h.workers, h.charged_le⟩

/-- Telling the workers to stop dispatches no node. -/
theorem spends_dismiss (t : Team σ α) (tag : Tag) : t.Spends (t.dismiss tag) where
  dispatched := rfl
  workers := List.length_map _
  charged_le := (charged_congr (outNodes_dismiss t tag) rfl).le

/-- Whether the wait for late results is over or not, no node is dispatched. -/
theorem spends_finishDrain (t : Team σ α) (status : Status) : t.Spends (t.finishDrain status) := by
  rcases finishDrain_cases t status with ⟨-, heq⟩ | ⟨-, heq⟩
  · rw [heq]
    exact (spends_dismiss t .everythingFine).inPhase _
  · rw [heq]
    exact (Spends.refl t).inPhase _

/-- Reading the news of a worker dispatches no node. -/
theorem spends_news {news : News α} (h : t.news? i = some (news, u)) :
    t.Spends u ∧ u.charged = t.charged := by
  obtain ⟨seat, -, -, ⟨reply, rest, -, -, rfl⟩ | ⟨-, -, rfl⟩⟩ := news?_eq_some h
  · have hsame : (t.modifySeat i fun s => { s with replies := rest }).outNodes = t.outNodes :=
      outNodes_modifySeat fun _ _ => rfl
    have hcharged := charged_congr hsame rfl
    exact ⟨⟨rfl, length_modifySeat, hcharged.le⟩, hcharged⟩
  · exact ⟨.refl _, rfl⟩

/-- A worker that was on a node is charged for none any more. -/
theorem charged_release (h : (t.out? i).isSome = true) : (t.release i).charged + 1 = t.charged := by
  obtain ⟨a, ha⟩ := Option.isSome_iff_exists.mp h
  obtain ⟨seat, hseat, hout⟩ := Option.bind_eq_some_iff.mp ha
  have hlength := (perm_outNodes_release hseat hout).length_eq
  rw [List.length_cons] at hlength
  show t.search.stats.processed + (t.release i).outNodes.length + 1 = _
  rw [charged, hlength]
  omega

/-- No worker is charged for more when one is released. -/
theorem spends_release (t : Team σ α) (i : Nat) : t.Spends (t.release i) := by
  refine ⟨rfl, length_modifySeat, ?_⟩
  cases hout : t.out? i with
  | some a =>
    have h := charged_release (t := t) (i := i) (by rw [hout]; rfl)
    omega
  | none =>
    -- a worker that is on no node cannot be released from one
    have hsame : (t.release i).outNodes = t.outNodes := by
      refine outNodes_modifySeat fun seat hseat => ?_
      rw [out?, hseat] at hout
      exact hout.symm
    exact (charged_congr hsame rfl).le

variable [Scalar α]

/-- Handling an order dispatches no node. -/
theorem spends_work (solvers : Nat → Solvers σ α) (t : Team σ α) (i : Nat) :
    t.Spends (t.work solvers i) ∧ (t.work solvers i).charged = t.charged := by
  obtain ⟨hsearch, -, hout, hlength⟩ := work_frame solvers t i
  have hcharged : (t.work solvers i).charged = t.charged := charged_congr hout (by rw [hsearch])
  exact ⟨⟨(work_out solvers t i).2, hlength, hcharged.le⟩, hcharged⟩

omit [Scalar α] in
/-- Telling workers of a point dispatches no node. -/
theorem spends_announce (t : Team σ α) :
    t.Spends t.announce.2 ∧ t.announce.2.charged = t.charged := by
  obtain ⟨hsearch, hout, hlength⟩ := announce_same t
  have hcharged := charged_congr hout (congrArg Search.stats hsearch)
  exact ⟨⟨(announce_out t).2.1, hlength, hcharged.le⟩, hcharged⟩

/-- Taking in a reply of a worker that is on a node dispatches no node. If the report is taken in
the node is processed from then on instead of out. -/
theorem spends_takeIn (h : (t.out? i).isSome = true) (reply : Reply α) :
    t.Spends (t.takeIn i reply).2
      ∧ ((t.takeIn i reply).1 = .ok () → (t.takeIn i reply).2.charged = t.charged) := by
  have hreleased := charged_release h
  -- a node that was charged as out is charged as processed instead: one less, one more
  have happlied : ∀ r, (t.accept i r).charged = t.charged := by
    intro r
    have hprocessed := t.search.processed_apply_eq r
    show (t.search.apply r).2.stats.processed + (t.release i).outNodes.length = _
    rw [hprocessed, ← hreleased]
    show _ = t.search.stats.processed + (t.release i).outNodes.length + 1
    omega
  have hspends : ∀ r, t.Spends (t.accept i r) := fun r =>
    ⟨rfl, length_modifySeat, (happlied r).le⟩
  have htaking := taking t i reply
  generalize t.takeIn i reply = result at htaking ⊢
  cases htaking with
  | failed => exact ⟨.refl t, nofun⟩
  | mistaken => exact ⟨spends_release t i, nofun⟩
  | @refused r => exact ⟨hspends r, nofun⟩
  | @better r =>
    obtain ⟨hannounced, hsame⟩ := spends_announce (t.accept i r)
    exact ⟨(hspends r).trans hannounced, fun _ => hsame.trans (happlied r)⟩
  | @accepted r => exact ⟨hspends r, fun _ => happlied r⟩

/-- Putting a node back dispatches none. -/
theorem spends_requeue (t : Team σ α) (i : Nat) : t.Spends (t.requeue i) := by
  have hreleased := spends_release t i
  have hrequeuing := requeuing t i
  generalize t.requeue i = after at hrequeuing ⊢
  cases hrequeuing with
  | idle => exact .refl t
  | refused | putBack => exact ⟨hreleased.dispatched, hreleased.workers, hreleased.charged_le⟩

/-- Putting nodes back dispatches none. -/
theorem spends_foldl_requeue (is : List Nat) (t : Team σ α) : t.Spends (is.foldl requeue t) := by
  induction is generalizing t with
  | nil => exact .refl t
  | cons i rest ih => exact (spends_requeue t i).trans (ih _)

/-- News that reach a searching manager dispatch no node. If the search goes on, the node is
processed instead of out. -/
theorem spends_hear (h : (t.out? i).isSome = true) (news : News α) :
    t.Spends (t.hear i news)
      ∧ ((t.hear i news).Searching → (t.hear i news).charged = t.charged) := by
  have hhearing := hearing t i news
  generalize t.hear i news = after at hhearing ⊢
  cases hhearing with
  | gone => exact ⟨(spends_dismiss t .exception).inPhase _, nofun⟩
  | @refused reply _ v htake =>
    obtain ⟨hspends, -⟩ := spends_takeIn h reply
    rw [htake] at hspends
    exact ⟨(hspends.trans (spends_dismiss v .exception)).inPhase _, nofun⟩
  | @taken reply v htake =>
    obtain ⟨hspends, hcharged⟩ := spends_takeIn h reply
    rw [htake] at hspends hcharged
    exact ⟨hspends.inPhase _, fun _ => hcharged rfl⟩

/-- Late news dispatch no node. -/
theorem spends_hearLate (h : (t.out? i).isSome = true) (news : News α) :
    t.Spends (t.hearLate i news) := by
  rcases hearLate_cases t i news with heq | ⟨r, -, heq⟩
  · rw [heq]
    exact spends_requeue t i
  · rw [heq]
    exact (spends_takeIn h (.report r)).1

/-! ## Handing out nodes -/

/-- Nodes that are handed out are dispatched and charged, and no other. -/
theorem charged_dispatchTo (is : List Nat) (t : Team σ α) :
    let u := (dispatchTo is t).2
    u.dispatched.length + t.charged = t.dispatched.length + u.charged
      ∧ u.seats.length = t.seats.length
      ∧ u.search.stats.processed = t.search.stats.processed := by
  induction is generalizing t with
  | nil => exact ⟨rfl, rfl, rfl⟩
  | cons i rest ih =>
    have hcounted : t.search.next.2.stats = t.search.stats := rfl
    have hcases := handing i rest t
    generalize dispatchTo (i :: rest) t = result at hcases ⊢
    cases hcases with
    | busy => exact ih t
    | exhausted => exact ⟨rfl, rfl, rfl⟩
    | @failed _ search hnext | @gone _ search hnext =>
      rw [hnext] at hcounted
      exact ⟨by rw [charged_congr (t := t) (u := { t with search }) rfl hcounted], rfl,
        congrArg Stats.processed hcounted⟩
    | @given seat node search _ hnext hseat hout =>
      rw [hnext] at hcounted
      -- the worker is on a node more, which is dispatched
      have hgiven := (perm_outNodes_give (t := { t with search }) hseat hout node).length_eq
      rw [List.length_cons] at hgiven
      have hcharged : (({ t with search } : Team σ α).give i node).charged = t.charged + 1 := by
        show search.stats.processed + _ = t.search.stats.processed + t.outNodes.length + 1
        rw [hgiven, hcounted]
        rfl
      have hdispatched : (({ t with search } : Team σ α).give i node).dispatched.length
          = t.dispatched.length + 1 := List.length_append
      obtain ⟨hbalance, hworkers, hprocessed⟩ := ih (({ t with search } : Team σ α).give i node)
      refine ⟨?_, ?_, hprocessed.trans (congrArg Stats.processed hcounted)⟩
      · rw [hcharged, hdispatched] at hbalance
        omega
      · refine hworkers.trans ?_
        rw [seats_give]
        exact length_modifySeat

/-! ## The invariant -/

/-- The books of a team of some workers. -/
structure Thrifty (settings : Settings α) (t : Team σ α) : Prop where
  /-- The settings of the search. -/
  settings_eq : t.search.settings = settings
  /-- The number of workers. -/
  workers : t.seats.length = settings.workers
  /-- The nodes that are processed or out were dispatched. -/
  charged_le : t.charged ≤ t.dispatched.length
  /-- As long as the search goes on, there are no others. -/
  charged_eq : t.Searching → t.charged = t.dispatched.length
  /-- As many nodes were dispatched as may be. -/
  dispatched_le : t.dispatched.length ≤ settings.allowance

variable {settings : Settings α} {solvers : Nat → Solvers σ α}

omit [Scalar α] in
/-- The books stay in order if nothing is dispatched. -/
theorem Thrifty.spends (h : t.Thrifty settings) (k : t.Spends u)
    (hsettings : u.search.settings = t.search.settings)
    (hcharged : u.Searching → u.charged = t.charged ∧ t.Searching) : u.Thrifty settings where
  settings_eq := hsettings.trans h.settings_eq
  workers := k.workers.trans h.workers
  charged_le := k.dispatched ▸ k.charged_le.trans h.charged_le
  charged_eq hsearching := by
    obtain ⟨hsame, hbefore⟩ := hcharged hsearching
    rw [hsame, k.dispatched]
    exact h.charged_eq hbefore
  dispatched_le := k.dispatched ▸ h.dispatched_le

/-- The manager looks at a search. If it goes on, a node fewer is processed at least than is
allowed, and with the nodes that are out then no more than the allowance is dispatched. -/
theorem Thrifty.decide (h : t.Thrifty settings) (hsearching : t.Searching) :
    (t.decide solvers).Thrifty settings := by
  have hsettings : (t.decide solvers).search.settings = t.search.settings := (later_decide t).2
  have hbooks : t.charged = t.dispatched.length := h.charged_eq hsearching
  obtain ⟨hbalance, hworkers, hprocessed⟩ :=
    charged_dispatchTo (List.range t.seats.length) (t.atTime solvers)
  have hnow : (t.atTime solvers).charged = t.charged := rfl
  rcases decide_cases solvers t with ⟨status, -, heq⟩ | ⟨hcheck, hcases⟩
  · rw [heq] at hsettings ⊢
    have hspends := spends_finishDrain (t.atTime solvers) status
    exact h.spends ⟨hspends.dispatched, hspends.workers, hspends.charged_le⟩ hsettings
      fun hgoes => absurd hgoes (not_searching_finishDrain _ _)
  · -- the team after nodes were handed out, whether that failed or not
    have hdispatched : ∀ u, (t.atTime solvers).dispatch.2 = u →
        u.charged = u.dispatched.length ∧ u.seats.length = t.seats.length
          ∧ u.dispatched.length ≤ settings.allowance := by
      rintro u rfl
      have hbalance : (t.atTime solvers).dispatch.2.dispatched.length + (t.atTime solvers).charged
        = t.dispatched.length + (t.atTime solvers).dispatch.2.charged := hbalance
      have hworkers : (t.atTime solvers).dispatch.2.seats.length = t.seats.length := hworkers
      have hprocessed : (t.atTime solvers).dispatch.2.search.stats.processed
        = t.search.stats.processed := hprocessed
      have hlt : t.search.stats.processed < t.search.settings.maxNodes :=
        Search.processed_lt_of_check (s := (t.atTime solvers).search) hcheck
      have hout := length_outNodes_le (t.atTime solvers).dispatch.2
      have hcharged : (t.atTime solvers).dispatch.2.charged
        = (t.atTime solvers).dispatch.2.dispatched.length := by omega
      refine ⟨hcharged, hworkers, ?_⟩
      rw [h.settings_eq] at hlt
      rw [hworkers, h.workers] at hout
      rw [← hcharged, charged, hprocessed, Settings.allowance]
      split <;> omega
    rcases hcases with ⟨e, u, hu, heq⟩ | ⟨u, hu, heq⟩
    · obtain ⟨hcharged, hlength, hle⟩ := hdispatched u (by rw [hu])
      have hspends : u.Spends (u.abort e) := (spends_dismiss u .exception).inPhase _
      rw [heq] at hsettings ⊢
      exact ⟨hsettings.trans h.settings_eq, (hspends.workers.trans hlength).trans h.workers,
        hspends.charged_le.trans hcharged.le, nofun, hle⟩
    · obtain ⟨hcharged, hlength, hle⟩ := hdispatched u (by rw [hu])
      rw [heq] at hsettings ⊢
      exact ⟨hsettings.trans h.settings_eq, hlength.trans h.workers, hcharged.le,
        fun _ => hcharged, hle⟩

/-- The books stay in order at every event. -/
theorem Thrifty.step (h : t.Thrifty settings) (event : Event) :
    (t.step solvers event).Thrifty settings := by
  have hsettings := (later_step solvers t event).2
  have hbefore : (t.step solvers event).Searching → t.Searching := searching_of_step
  have heffect := effect_step solvers t event
  generalize t.step solvers event = after at heffect hsettings hbefore ⊢
  -- each event spends in its own way; all of them keep the books by one lemma
  cases heffect with
  | nothing => exact h
  | work i =>
    obtain ⟨hspends, hcharged⟩ := spends_work solvers t i
    exact h.spends hspends hsettings fun hgoes => ⟨hcharged, hbefore hgoes⟩
  | decide hphase => exact h.decide (searching_iff.mpr (.inl hphase))
  | tick => exact h.spends ((Spends.refl t).inPhase _) hsettings fun hgoes => ⟨rfl, hbefore hgoes⟩
  | @hear i news u hphase hnews =>
    obtain ⟨hread, hsame⟩ := spends_news hnews
    obtain ⟨hbusy, hout, -⟩ := news?_out hnews
    obtain ⟨hspends, hcharged⟩ := spends_hear (t := u) (hout ▸ hbusy) news
    exact h.spends (hread.trans hspends) hsettings
      fun hgoes => ⟨(hcharged hgoes).trans hsame, hbefore hgoes⟩
  | @hearLate i news u status hphase hnews =>
    obtain ⟨hbusy, hout, -⟩ := news?_out hnews
    have hspends := spends_hearLate (t := u) (hout ▸ hbusy) news
    exact h.spends (((spends_news hnews).1.trans hspends).trans (spends_finishDrain _ status))
      hsettings fun hgoes => absurd hgoes (not_searching_finishDrain _ _)
  | deadline =>
    have hspends := (spends_foldl_requeue (List.range t.seats.length) t).trans
      (spends_dismiss _ .everythingFine)
    exact h.spends (hspends.inPhase _) hsettings nofun

/-- The books of a run are in order. -/
theorem Thrifty.run (h : t.Thrifty settings) (events : List Event) :
    (t.run solvers events).Thrifty settings :=
  run_of_step (fun _ event h => h.step event) h events

/-- Nothing was dispatched at the start. -/
theorem thrifty_start {vars : List (Variable α)} {memory : σ}
    (h : Team.start vars settings memory = .ok t) : t.Thrifty settings := by
  -- with every worker idle and no node processed nothing is charged
  have hidle := each_start h
  obtain ⟨-, search, hnew, heq⟩ := start_ok h
  have hout : t.outNodes = [] := outNodes_eq_nil.mpr fun i seat hseat => by rw [hidle i seat hseat]
  have hcharged : t.charged = 0 := by
    obtain ⟨_, -, rfl⟩ := Search.new_eq hnew
    rw [charged, hout, heq]
    rfl
  have hdispatched : t.dispatched = [] := by rw [heq]
  refine ⟨?_, ?_, ?_, fun _ => ?_, ?_⟩
  · rw [heq]
    exact (Search.new_frame hnew).2.2
  · rw [heq, List.length_map, List.length_range]
  · rw [hcharged]
    exact Nat.zero_le _
  · rw [hcharged, hdispatched]
    rfl
  · rw [hdispatched]
    exact Nat.zero_le _

end Team

end BranchBound
