import BranchBound.Proofs.Search.StrongBranching
import BranchBound.Proofs.Team.HandOut

/-! # Workers answer for their nodes

A worker reports on the nodes that it was asked to process. As long as a search goes on, one message
at most is under way between a worker and the manager, and none if the worker is on no node; so the
report that the manager reads came out of processing the node that it believes the worker to be on.
This does not depend on the solvers: a worker that fails or is gone leaves no report at all.

* **`Seat.Faithful`**, **`Seat.Prompt`** — what is under way is about the node, and is one message.
* **`Team.Faithful`** — the invariant, which no event breaks (`Faithful.step`, `Faithful.run`).
* **`Team.Faithful.processed`** — where the reports come from that the manager reads. -/

namespace BranchBound

variable {σ α : Type} [Scalar α]

namespace Seat

/-- What is under way between the manager and a worker that is on a node is about this node: the
orders to process one, and the reports. -/
structure Faithful (solvers : Solvers σ α) (seat : Seat α) : Prop where
  /-- The orders ask to process the node. -/
  ordered : ∀ a ∈ seat.out, ∀ n ∈ seat.unread, n = a.node
  /-- The reports come out of processing it. -/
  answered : ∀ a ∈ seat.out, ∀ r, Reply.report r ∈ seat.replies →
    Serial.Processed solvers a.node r

/-- Moreover it is one message at most, and none if the worker is on no node. -/
structure Prompt (solvers : Solvers σ α) (seat : Seat α) : Prop extends Faithful solvers seat where
  /-- Orders to process a node and replies are counted together. -/
  one : seat.unread.length + seat.replies.length ≤ if seat.out.isSome then 1 else 0

variable {solvers : Solvers σ α} {seat : Seat α} {order : Order α}

/-- An order that does not ask to process a node changes nothing. -/
theorem Faithful.push (h : seat.Faithful solvers) (horder : order.node? = none) :
    (seat.push order).Faithful solvers := by
  have hunread : (seat.push order).unread = seat.unread := by
    rw [unread_push, horder]
    exact List.append_nil _
  exact ⟨fun a ha n hn => h.ordered a ha n (hunread ▸ hn), h.answered⟩

/-- It is not counted either. -/
theorem Prompt.push (h : seat.Prompt solvers) (horder : order.node? = none) :
    (seat.push order).Prompt solvers where
  toFaithful := h.toFaithful.push horder
  one := by
    rw [unread_push, horder, Option.toList_none, List.append_nil]
    exact h.one

/-- A worker that is on no node has to answer for none. -/
theorem faithful_of_idle (hout : seat.out = none) : seat.Faithful solvers := by
  constructor <;> rintro a ha <;> rw [hout] at ha <;> cases ha

/-- Replies are read. -/
theorem Faithful.read (h : seat.Faithful solvers) {replies : List (Reply α)}
    (hsuffix : replies <:+ seat.replies) : Faithful solvers { seat with replies } :=
  ⟨h.ordered, fun a ha r hr => h.answered a ha r (hsuffix.subset hr)⟩

/-- Nothing is under way to or from a worker that is on no node. -/
theorem Prompt.idle (h : seat.Prompt solvers) (hout : seat.out = none) :
    seat.unread = [] ∧ seat.replies = [] := by
  have hone := h.one
  rw [hout] at hone
  exact ⟨List.length_eq_zero_iff.mp (by simpa using (Nat.le_add_right _ _).trans hone),
    List.length_eq_zero_iff.mp (by simpa using (Nat.le_add_left _ _).trans hone)⟩

/-- Such a worker is given a node. -/
theorem Prompt.give (h : seat.Prompt solvers) (hout : seat.out = none) (node : Node α)
    (turn : Nat) : (seat.give node turn).Prompt solvers := by
  obtain ⟨hunread, hreplies⟩ := h.idle hout
  have hgiven : (seat.give node turn).unread = [node] := by
    rw [show (seat.give node turn).unread = seat.unread ++ [node] from
      seat.unread_push (.process node), hunread]
    rfl
  have hnone : (seat.give node turn).replies = [] := hreplies
  refine ⟨⟨?_, ?_⟩, by rw [hgiven, hnone]; exact Nat.le_refl 1⟩
  · rintro _ ⟨⟩ n hn
    rw [hgiven] at hn
    exact List.mem_singleton.mp hn
  · intro a _ r hr
    rw [hnone] at hr
    exact absurd hr List.not_mem_nil

/-- Once the manager has read a reply, nothing is under way. -/
theorem Prompt.heard (h : seat.Prompt solvers) {reply : Reply α} {rest : List (Reply α)}
    (hreplies : seat.replies = reply :: rest) :
    Prompt solvers { seat with replies := rest, out := none } := by
  have hone := h.one
  rw [hreplies, List.length_cons] at hone
  refine ⟨faithful_of_idle rfl, ?_⟩
  show seat.unread.length + rest.length ≤ 0
  split at hone <;> omega

/-- A worker that handles an order sends a reply at most. A report that it sends comes out of
processing a node, the order for which is not unread any more. -/
theorem exists_sent {w v : Worker α} {rest : List (Order α)} {reaction : Reaction α}
    {memory after : σ} (horders : seat.orders = order :: rest)
    (hhandle : w.handle solvers order memory = (reaction, v, after)) :
    ∃ sent, (seat.served rest v reaction).replies = seat.replies ++ sent
      ∧ (∀ n ∈ (seat.served rest v reaction).unread, n ∈ seat.unread)
      ∧ (seat.served rest v reaction).unread.length + sent.length ≤ seat.unread.length
      ∧ ∀ r, Reply.report r ∈ sent → ∃ n ∈ seat.unread, Serial.Processed solvers n r := by
  have hunread : seat.unread = order.node?.toList ++ rest.filterMap Order.node? := by
    rw [unread, horders]
    cases order <;> rfl
  rw [hunread]
  unfold Worker.handle at hhandle
  -- only a node that is processed without a crash is answered
  split at hhandle
  · next n =>
    have hsubset : ∀ k ∈ rest.filterMap Order.node?, k ∈ n :: rest.filterMap Order.node? :=
      fun k hk => List.mem_cons_of_mem n hk
    split at hhandle
    · next r left hprocess =>
      cases hhandle
      refine ⟨[.report r], rfl, hsubset, Nat.le_refl _, fun q hq => ?_⟩
      cases List.mem_singleton.mp hq
      exact ⟨n, List.mem_cons_self, w.cutoff, memory, after, hprocess⟩
    · cases hhandle
      refine ⟨[.failed _], rfl, hsubset, Nat.le_refl _, fun q hq => ?_⟩
      cases List.mem_singleton.mp hq
    · cases hhandle
      exact ⟨[], (List.append_nil _).symm, fun _ hk => absurd hk List.not_mem_nil, Nat.zero_le _,
        fun _ hq => absurd hq List.not_mem_nil⟩
  · cases hhandle
    exact ⟨[], (List.append_nil _).symm, fun _ hk => hk, Nat.le_refl _,
      fun _ hq => absurd hq List.not_mem_nil⟩
  · cases hhandle
    exact ⟨[], (List.append_nil _).symm, fun _ hk => absurd hk List.not_mem_nil, Nat.zero_le _,
      fun _ hq => absurd hq List.not_mem_nil⟩

section Served

variable {w v : Worker α} {rest : List (Order α)} {reaction : Reaction α} {memory after : σ}

/-- A worker that handles an order answers for the node that it is on. -/
theorem Faithful.served (h : seat.Faithful solvers) (horders : seat.orders = order :: rest)
    (hhandle : w.handle solvers order memory = (reaction, v, after)) :
    (seat.served rest v reaction).Faithful solvers := by
  obtain ⟨sent, hreplies, hunread, -, hsent⟩ := exists_sent horders hhandle
  constructor
  · intro a ha n hn
    rw [out_served] at ha
    exact h.ordered a ha n (hunread n hn)
  · intro a ha r hr
    rw [out_served] at ha
    rw [hreplies] at hr
    rcases List.mem_append.mp hr with hr | hr
    · exact h.answered a ha r hr
    · obtain ⟨n, hn, hprocessed⟩ := hsent r hr
      exact h.ordered a ha n hn ▸ hprocessed

/-- So it does if what is under way is one message, which is the reply now. -/
theorem Prompt.served (h : seat.Prompt solvers) (horders : seat.orders = order :: rest)
    (hhandle : w.handle solvers order memory = (reaction, v, after)) :
    (seat.served rest v reaction).Prompt solvers where
  toFaithful := h.toFaithful.served horders hhandle
  one := by
    obtain ⟨sent, hreplies, -, hlength, -⟩ := exists_sent horders hhandle
    have hone := h.one
    rw [out_served, hreplies, List.length_append]
    omega

end Served

end Seat

namespace Team

variable {solvers : Nat → Solvers σ α} {t u : Team σ α} {i : Nat}

/-! ## The invariant -/

/-- Workers answer for their nodes, and as long as the search goes on they are prompt. -/
structure Faithful (solvers : Nat → Solvers σ α) (t : Team σ α) : Prop where
  /-- They answer for their nodes. -/
  faithful : t.Each fun i seat => seat.Faithful (solvers i)
  /-- They are prompt as long as the search goes on. -/
  prompt : t.Searching → t.Each fun i seat => seat.Prompt (solvers i)

/-- Workers that are prompt answer for their nodes. -/
theorem Faithful.of_prompt (h : t.Each fun i seat => seat.Prompt (solvers i)) :
    t.Faithful solvers :=
  ⟨fun i seat hseat => (h i seat hseat).toFaithful, fun _ => h⟩

/-- Workers are prompt once the manager has taken in the reply of one of them. -/
theorem prompt_hear {news : News α} (h : t.Each fun i seat => seat.Prompt (solvers i))
    (hnews : t.news? i = some (news, u)) :
    (u.hear i news).Each fun i seat => seat.Prompt (solvers i) := by
  obtain ⟨seat, hseat, -, ⟨reply, rest, rfl, hreplies, rfl⟩ | ⟨rfl, -, rfl⟩⟩ := news?_eq_some hnews
  · generalize hu : (t.modifySeat i fun s => { s with replies := rest }) = u
    have hread : u.Each fun i seat => seat.Prompt (solvers i) := by
      rw [← hu]
      refine h.modify_same fun old hold hprompt => ?_
      cases hseat.symm.trans hold
      refine ⟨hprompt.toFaithful.read (hreplies ▸ List.suffix_cons reply rest), ?_⟩
      refine (Nat.add_le_add_left ?_ _).trans hprompt.one
      rw [hreplies]
      exact Nat.le_succ _
    -- the reply was the one message under way, so the worker may be given a node next
    have hreleased : (u.release i).Each fun i seat => seat.Prompt (solvers i) := by
      have hseats : (u.release i).seats
          = (t.modifySeat i fun s => { s with replies := rest, out := none }).seats := by
        rw [← hu]
        exact List.modify_modify_eq _ _ i t.seats
      refine (h.modify_same fun old hold hprompt => ?_).of_eq hseats
      cases hseat.symm.trans hold
      exact hprompt.heard hreplies
    refine each_hear (fun _ _ _ hprompt => hprompt.push rfl) hread fun answer _ => ?_
    cases answer with
    | failed text => exact hread
    | report r => exact each_takeIn (fun _ _ _ hprompt => hprompt.push rfl) hreleased r
  · exact each_hear (fun _ _ _ hprompt => hprompt.push rfl) h fun _ heq => nomatch heq

/-- Workers answer for their nodes when a late reply was taken in or a node was put back. -/
theorem faithful_hearLate {news : News α} (h : t.Each fun i seat => seat.Faithful (solvers i))
    (hnews : t.news? i = some (news, u)) :
    (u.hearLate i news).Each fun i seat => seat.Faithful (solvers i) := by
  have hread : u.Each fun i seat => seat.Faithful (solvers i) := by
    obtain ⟨seat, hseat, -, ⟨reply, rest, -, hreplies, rfl⟩ | ⟨-, -, rfl⟩⟩ := news?_eq_some hnews
    · refine h.modify_same fun old hold hfaithful => ?_
      cases hseat.symm.trans hold
      exact hfaithful.read (hreplies ▸ List.suffix_cons reply rest)
    · exact h
  rcases hearLate_cases u i news with heq | ⟨r, -, heq⟩
  · rw [heq]
    exact (requeue_frame (fun _ _ _ => Seat.faithful_of_idle rfl) i hread).1
  · rw [heq]
    refine each_takeIn (fun _ _ _ hfaithful => hfaithful.push rfl) ?_ r
    exact hread.modify_same fun _ _ _ => Seat.faithful_of_idle rfl

/-- No event breaks it. -/
theorem Faithful.step (h : t.Faithful solvers) (event : Event) :
    (t.step solvers event).Faithful solvers := by
  have heffect := effect_step solvers t event
  generalize t.step solvers event = after at heffect ⊢
  cases heffect with
  | nothing => exact h
  -- the worker's own step is the only one that puts replies in a mailbox
  | work i =>
    refine ⟨each_work solvers i h.faithful fun _ _ horders hhandle hseat =>
      hseat.served horders hhandle, fun hsearching => ?_⟩
    rw [Searching, (work_frame solvers t i).2.1] at hsearching
    exact each_work solvers i (h.prompt hsearching) fun _ _ horders hhandle hseat =>
      hseat.served horders hhandle
  | decide hphase =>
    refine .of_prompt (decide_frame solvers (fun _ _ node turn hout hseat =>
      hseat.give hout node turn) (fun _ _ _ hseat => hseat.push rfl) ?_).1
    exact h.prompt (searching_iff.mpr (.inl hphase))
  | tick hphase => exact .of_prompt (h.prompt (searching_iff.mpr (.inr hphase)))
  | hear hphase hnews =>
    exact .of_prompt (prompt_hear (h.prompt (searching_iff.mpr (.inr hphase))) hnews)
  | @hearLate i news u status _ hnews =>
    refine ⟨(finishDrain_frame (fun _ _ _ hseat => hseat.push rfl) status
      (faithful_hearLate h.faithful hnews)).1, fun hsearching => ?_⟩
    exact absurd hsearching (not_searching_finishDrain _ _)
  | deadline =>
    have hrequeued := (foldl_requeue_frame (fun _ _ _ => Seat.faithful_of_idle rfl)
      (List.range t.seats.length) h.faithful).1
    constructor
    · exact (each_dismiss (fun _ _ _ hseat => hseat.push rfl) .everythingFine hrequeued).of_eq rfl
    · intro hsearching
      cases hsearching

/-- A report that the manager reads comes out of processing the node that the worker is on. -/
theorem Faithful.processed (h : t.Faithful solvers) {seat : Seat α} {a : Assignment α}
    {r : Report α} (hnews : t.news? i = some (.reply (.report r), u))
    (hseat : t.seats[i]? = some seat) (hout : seat.out = some a) :
    Serial.Processed (solvers i) a.node r := by
  obtain ⟨read, hread, -, ⟨reply, rest, hreply, hreplies, -⟩ | ⟨hgone, -⟩⟩ := news?_eq_some hnews
  · cases hseat.symm.trans hread
    cases hreply
    exact (h.faithful i seat hseat).answered a hout r (hreplies ▸ List.mem_cons_self)
  · cases hgone

/-- Nothing is under way at the start. -/
theorem faithful_start {vars : List (Variable α)} {settings : Settings α} {memory : σ}
    (h : Team.start vars settings memory = .ok t) : t.Faithful solvers := by
  refine .of_prompt fun i seat hseat => ?_
  rw [each_start h i seat hseat]
  exact ⟨Seat.faithful_of_idle rfl, Nat.le_refl 0⟩

/-- No run breaks it. -/
theorem Faithful.run (h : t.Faithful solvers) (events : List Event) :
    (t.run solvers events).Faithful solvers :=
  run_of_step (fun _ event h => h.step event) h events

end Team

end BranchBound
