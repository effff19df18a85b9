import BranchBound.Proofs.Node.Answering
import BranchBound.Proofs.Search.Tracking
import BranchBound.Proofs.Team.Runs

/-! # Nodes are handed out exclusively

As long as a search is not over, every worker is on one node at most, and what is under way between
it and the manager is one message about that node: the order to process it, or the reply. The search
waits for exactly the nodes that are out, which are not open.

* **`Seat.Course`** — where a worker stands with its node: it has none, has not read the order, or
  has answered.
* **`Team.Orderly`** — the invariant: every worker serves its node, and the search keeps track of
  the nodes that are out.
* **`Team.Exclusive`**, **`Team.run_exclusive`** — what follows: no reply is out of turn, and a
  manager whose search is not over has a node out. -/

namespace BranchBound

variable {σ α : Type} [Scalar α]

/-! ## Workers and their nodes -/

omit [Scalar α] in
/-- The node that an order asks to process. -/
def Order.node? : Order α → Option (Node α)
  | .process node => some node
  | .improve _ | .stop _ => none

/-- The nodes that a worker is asked to process by orders it has not read. -/
def Seat.unread (seat : Seat α) : List (Node α) := seat.orders.filterMap Order.node?

/-- The replies that there are to a node: a report on it, or, if not all bounds are defined, the
failure that its bound is not. -/
inductive Reply.Answers (solvers : Solvers σ α) (node : Node α) : Reply α → Prop
  /-- A report. -/
  | report {r : Report α} (hid : r.node.id = node.id) : Answers solvers node (.report r)
  /-- An undefined bound. -/
  | undefined (h : ¬ solvers.Defined) :
      Answers solvers node
        (.failed (Error.message (.solverFailed (.undefinedBound node.id) : Error α)))

/-- Reliable solvers answer every node. -/
theorem Worker.handle_process {solvers : Solvers σ α} (h : solvers.Reliable) (w : Worker α)
    (node : Node α) (memory : σ) :
    ∃ reply v after, w.handle solvers (.process node) memory = (.answer reply, v, after)
      ∧ reply.Answers solvers node := by
  unfold handle
  rcases processNode_ensures h node w.cutoff memory
    with ⟨r, after, hreturns, hid⟩ | ⟨failure, after, hfails, rfl, hdefined⟩
  · refine ⟨.report r, w.adopt r, after, ?_, .report hid⟩
    have hcall : Id.run ((processNode solvers node w.cutoff).run.run memory) = (.ok r, after) :=
      hreturns
    simp only [hcall]
  · refine ⟨_, w, after, ?_, .undefined hdefined⟩
    have hcall : Id.run ((processNode solvers node w.cutoff).run.run memory)
        = (.error (.error (.solverFailed (.undefinedBound node.id))), after) := hfails
    simp only [hcall]

namespace Seat

/-- Where a worker stands with its node. -/
inductive Course (solvers : Solvers σ α) (seat : Seat α) : Prop
  /-- It is on none. -/
  | idle (hout : seat.out = none) (hunread : seat.unread = []) (hreplies : seat.replies = [])
  /-- It has not read the order to process it. -/
  | assigned {a : Assignment α} (hout : seat.out = some a) (hunread : seat.unread = [a.node])
      (hreplies : seat.replies = [])
  /-- It has answered. -/
  | answered {a : Assignment α} {reply : Reply α} (hout : seat.out = some a)
      (hunread : seat.unread = []) (hreplies : seat.replies = [reply])
      (hreply : reply.Answers solvers a.node)

/-- The worker is there, is not told to stop, and serves its node. -/
structure Serving (solvers : Solvers σ α) (seat : Seat α) : Prop where
  /-- The worker is there. -/
  present : seat.worker.isSome = true
  /-- It is not told to stop. -/
  goesOn : ∀ tag, Order.stop tag ∉ seat.orders
  /-- It serves its node. -/
  course : seat.Course solvers

variable {solvers : Solvers σ α} {seat : Seat α}

omit [Scalar α] in
@[simp] theorem unread_push (seat : Seat α) (order : Order α) :
    (seat.push order).unread = seat.unread ++ order.node?.toList := by
  simp only [unread, orders_push, List.filterMap_append, List.filterMap_cons, List.filterMap_nil]
  cases order <;> rfl

/-- Being told of a better point changes nothing. -/
theorem Serving.push_improve (h : seat.Serving solvers) (c : Candidate α) :
    (seat.push (.improve c)).Serving solvers where
  present := h.present
  goesOn tag hmem := by
    rcases List.mem_append.mp hmem with hold | hnew
    · exact h.goesOn tag hold
    · cases List.mem_singleton.mp hnew
  course := by
    have hunread : (seat.push (.improve c)).unread = seat.unread := by
      rw [unread_push]
      exact List.append_nil _
    cases h.course with
    | idle hout hnone hreplies => exact .idle hout (hunread.trans hnone) hreplies
    | assigned hout hone hreplies => exact .assigned hout (hunread.trans hone) hreplies
    | answered hout hnone hreplies hreply =>
      exact .answered hout (hunread.trans hnone) hreplies hreply

/-- An idle worker is given a node. -/
theorem Serving.give (h : seat.Serving solvers) (hout : seat.out = none) (node : Node α)
    (turn : Nat) : (seat.give node turn).Serving solvers where
  present := h.present
  goesOn tag hmem := by
    rcases List.mem_append.mp hmem with hold | hnew
    · exact h.goesOn tag hold
    · cases List.mem_singleton.mp hnew
  course := by
    cases h.course with
    | idle _ hnone hreplies =>
      have hunread : (seat.give node turn).unread = seat.unread ++ [node] :=
        seat.unread_push (.process node)
      rw [hnone] at hunread
      exact .assigned rfl hunread hreplies
    | assigned hsome => cases hout.symm.trans hsome
    | answered hsome => cases hout.symm.trans hsome

/-- A worker that has handled an order serves its node as before. -/
theorem Serving.served (h : seat.Serving solvers) (hs : solvers.Reliable) {w v : Worker α}
    {order : Order α} {rest : List (Order α)} {reaction : Reaction α} {memory after : σ}
    (horders : seat.orders = order :: rest)
    (hhandle : w.handle solvers order memory = (reaction, v, after)) :
    (seat.served rest v reaction).Serving solvers := by
  have hrest : ∀ tag, Order.stop tag ∉ rest := fun tag hmem =>
    h.goesOn tag (horders ▸ List.mem_cons_of_mem _ hmem)
  have hunread : seat.unread = order.node?.toList ++ rest.filterMap Order.node? := by
    rw [unread, horders]
    cases order <;> rfl
  cases order with
  | stop tag => exact absurd (horders ▸ List.mem_cons_self) (h.goesOn tag)
  | improve c =>
    cases hhandle
    refine ⟨rfl, hrest, ?_⟩
    cases h.course with
    | idle hout hnone hreplies => exact .idle hout (hunread.symm.trans hnone) hreplies
    | assigned hout hone hreplies => exact .assigned hout (hunread.symm.trans hone) hreplies
    | answered hout hnone hreplies hreply =>
      exact .answered hout (hunread.symm.trans hnone) hreplies hreply
  | process node =>
    -- the order is the one to process the node that the worker is on, and there is no other
    cases h.course with
    | idle hout hnone => cases hunread.symm.trans hnone
    | answered hout hnone => cases hunread.symm.trans hnone
    | @assigned a hout hone hreplies =>
      obtain ⟨reply, u, left, hanswer, hreply⟩ := w.handle_process hs node memory
      rw [hanswer] at hhandle
      cases hhandle
      obtain ⟨hnode, hlast⟩ := List.cons_eq_cons.mp (hunread.symm.trans hone)
      refine ⟨rfl, hrest, .answered hout hlast ?_ (hnode ▸ hreply)⟩
      show seat.replies ++ [reply] = [reply]
      rw [hreplies]
      rfl

end Seat

/-! ## The invariant -/

namespace Team

variable {solvers : Nat → Solvers σ α} {t u v : Team σ α} {i : Nat}

/-- Every worker serves its node, and the search keeps track of the nodes that are out. -/
structure Orderly (solvers : Nat → Solvers σ α) (t : Team σ α) : Prop where
  /-- There are workers. -/
  staffed : 0 < t.seats.length
  /-- Every worker serves its node. -/
  serving : t.Each fun i seat => seat.Serving (solvers i)
  /-- The search keeps track of the nodes that are out. -/
  tracks : t.search.Tracks t.outNodes

/-- The manager has read the reply of a worker that is on a node. -/
structure Heard (solvers : Nat → Solvers σ α) (t : Team σ α) (i : Nat) (a : Assignment α)
    (reply : Reply α) : Prop where
  /-- There are workers. -/
  staffed : 0 < t.seats.length
  /-- The worker is on the node. -/
  out : ∃ seat, t.seats[i]? = some seat ∧ seat.out = some a
  /-- The reply is to this node. -/
  reply : reply.Answers (solvers i) a.node
  /-- Every worker serves its node, as soon as this one is on its node no more. -/
  serving : ∀ r, (t.accept i r).Each fun i seat => seat.Serving (solvers i)
  /-- The search keeps track of the node and of those that the other workers are on. -/
  tracks : t.search.Tracks (a.node :: (t.release i).outNodes)

namespace Orderly

/-- What does not concern seats and search does not matter. -/
theorem of_eq (h : t.Orderly solvers) (hseats : u.seats = t.seats) (hsearch : u.search = t.search) :
    u.Orderly solvers := by
  refine ⟨hseats ▸ h.staffed, h.serving.of_eq hseats, ?_⟩
  rw [hsearch, outNodes_eq, hseats]
  exact h.tracks

/-- The clock does not matter. -/
theorem atTime (h : t.Orderly solvers) : (t.atTime solvers).Orderly solvers :=
  ⟨h.staffed, h.serving, h.tracks.atTime _⟩

/-- A worker handles an order. -/
theorem work (h : t.Orderly solvers) (hs : ∀ i, (solvers i).Reliable) (i : Nat) :
    (t.work solvers i).Orderly solvers := by
  obtain ⟨hsearch, -, hout, hlength⟩ := work_frame solvers t i
  refine ⟨hlength ▸ h.staffed, ?_, ?_⟩
  · exact each_work solvers i h.serving fun _ _ horders hhandle hserving =>
      hserving.served (hs i) horders hhandle
  · rw [hsearch, hout]
    exact h.tracks

/-- A better point is announced; every worker is there to be told. -/
theorem announce (h : t.Each fun i seat => seat.Serving (solvers i)) :
    ∃ u, t.announce = (.ok (), u) ∧ (u.Each fun i seat => seat.Serving (solvers i))
      ∧ u.search = t.search ∧ u.outNodes = t.outNodes ∧ u.seats.length = t.seats.length := by
  have hok : t.announce.1 = .ok () := by
    unfold Team.announce
    split
    · refine announceTo_ok _ fun i hi => ?_
      obtain ⟨seat, hseat⟩ := exists_seat (List.mem_range.mp hi)
      exact ⟨seat, hseat, (h i seat hseat).present⟩
    · rfl
  obtain ⟨hserving, hsearch, -, hout, hlength, -⟩ :=
    announce_frame (fun _ _ c hserving => hserving.push_improve c) h
  exact ⟨_, Prod.ext hok rfl, hserving, hsearch, hout, hlength⟩

variable [Scalar.Ordered α]

/-- An open node goes out to an idle worker. -/
theorem give (h : t.Orderly solvers) {seat : Seat α} (hseat : t.seats[i]? = some seat)
    (hout : seat.out = none) (hopen : t.search.brancher.frontier.isEmpty = false) :
    ∃ node search, t.search.next = (.ok node, search)
      ∧ ({ t with search } : Team σ α).send? i (.process node)
        = some (({ t with search } : Team σ α).modifySeat i (·.push (.process node)))
      ∧ (({ t with search } : Team σ α).give i node).Orderly solvers
      ∧ (({ t with search } : Team σ α).give i node).outNodes.Perm (node :: t.outNodes) := by
  obtain ⟨node, search, hnext, htracks⟩ := h.tracks.next hopen
  have hserving := h.serving i seat hseat
  have hperm := perm_outNodes_give (t := { t with search }) hseat hout node
  refine ⟨node, search, hnext, send?_of_worker hseat hserving.present, ⟨?_, ?_, ?_⟩, hperm⟩
  · rw [seats_give, length_modifySeat]
    exact h.staffed
  · have hserving : ({ t with search } : Team σ α).Each fun i seat => seat.Serving (solvers i) :=
      h.serving
    refine (hserving.modify_same fun old hold hserved => ?_).of_eq (seats_give _ i node)
    rw [hseat] at hold
    cases hold
    exact hserved.give hout node _
  · exact htracks.perm hperm.symm

/-- Nodes are handed out: no worker is gone, and no node comes back. -/
theorem dispatchTo (is : List Nat) (h : t.Orderly solvers) (his : ∀ i ∈ is, i < t.seats.length) :
    ∃ u, Team.dispatchTo is t = (.ok (), u) ∧ u.Orderly solvers ∧ (∀ n ∈ t.outNodes, n ∈ u.outNodes)
      ∧ (is ≠ [] → t.outNodes = [] → t.search.brancher.frontier.isEmpty = false →
        u.outNodes ≠ []) := by
  induction is generalizing t with
  | nil => exact ⟨t, rfl, h, fun _ hn => hn, fun hne => absurd rfl hne⟩
  | cons i rest ih =>
    obtain ⟨seat, hseat⟩ := exists_seat (his i List.mem_cons_self)
    have hrest : ∀ j ∈ rest, j < t.seats.length := fun j hj => his j (List.mem_cons_of_mem _ hj)
    unfold Team.dispatchTo
    cases hout : seat.out with
    | some a =>
      obtain ⟨u, hu, horderly, hkept, -⟩ := ih h hrest
      refine ⟨u, ?_, horderly, hkept, fun _ hnone => ?_⟩
      · rw [hseat, if_pos (by simp [hout])]
        exact hu
      · have hmem := mem_outNodes.mpr ⟨i, seat, a, hseat, hout, rfl⟩
        rw [hnone] at hmem
        cases hmem
    | none =>
      rw [hseat, if_neg (by simp [hout])]
      cases hopen : t.search.brancher.frontier.isEmpty with
      | true => exact ⟨t, rfl, h, fun _ hn => hn, fun _ _ hfalse => Bool.noConfusion hfalse⟩
      | false =>
        obtain ⟨node, search, hnext, hsend, horderly, hperm⟩ := h.give hseat hout hopen
        have hlength : (({ t with search } : Team σ α).give i node).seats.length
            = t.seats.length := by
          rw [seats_give]
          exact length_modifySeat
        obtain ⟨u, hu, hlater, hkept, -⟩ := ih horderly (by rw [hlength]; exact hrest)
        -- what is out stays out while the other workers are given nodes
        have hmem : ∀ n, n = node ∨ n ∈ t.outNodes → n ∈ u.outNodes := by
          intro n hn
          exact hkept n (hperm.symm.subset (List.mem_cons.mpr hn))
        refine ⟨u, ?_, hlater, fun n hn => hmem n (.inr hn), fun _ _ _ hnone => ?_⟩
        · simp only [Bool.false_eq_true, if_false, hnext, hsend]
          exact hu
        · have hnode := hmem node (.inl rfl)
          rw [hnone] at hnode
          cases hnode

/-- Whenever a search is not over, a node is out once the manager has handed out nodes. -/
theorem dispatch (h : t.Orderly solvers) (hcheck : t.search.check t.outLowest = none) :
    ∃ u, t.dispatch = (.ok (), u) ∧ u.Orderly solvers ∧ u.outNodes ≠ [] := by
  obtain ⟨u, hu, horderly, hkept, hsome⟩ :=
    h.dispatchTo (List.range t.seats.length) fun i hi => List.mem_range.mp hi
  refine ⟨u, hu, horderly, ?_⟩
  cases hout : t.outNodes with
  | cons n rest =>
    have hn := hkept n (hout ▸ List.mem_cons_self)
    exact List.ne_nil_of_mem hn
  | nil =>
    refine hsome (by simpa using h.staffed.ne') hout ?_
    -- were no node open either, the tree would be exhausted
    rw [outLowest_eq_none hout] at hcheck
    exact Search.isEmpty_eq_false hcheck

omit [Scalar.Ordered α] in
/-- The news of a worker are its answer; there is nothing else under way between it and the
manager. -/
theorem heard (h : t.Orderly solvers) {news : News α} (hnews : t.news? i = some (news, u)) :
    ∃ a reply, news = .reply reply ∧ u.Heard solvers i a reply := by
  obtain ⟨seat, hseat, hout, hcases⟩ := news?_eq_some hnews
  have hserving := h.serving i seat hseat
  rcases hcases with ⟨reply, rest, rfl, hreplies, rfl⟩ | ⟨-, hgone, -⟩
  · cases hserving.course with
    | idle hidle =>
      rw [hidle] at hout
      cases hout
    | assigned _ _ hnone => cases hnone.symm.trans hreplies
    -- the seat has one reply, so reading it leaves the seat as if it were fresh but for its node
    | @answered a _ hsome hunread hone hreply =>
      cases hone.symm.trans hreplies
      generalize hu : (t.modifySeat i fun s => { s with replies := [] }) = u
      have hread : u.seats[i]? = some { seat with replies := [] } := by
        rw [← hu]
        exact getElem?_modifySeat_self hseat
      refine ⟨a, reply, rfl, ?_, ⟨_, hread, hsome⟩, hreply, fun r => ?_, ?_⟩
      · rw [← hu, length_modifySeat]
        exact h.staffed
      · have hseats : (u.accept i r).seats
            = (t.modifySeat i fun s => { s with replies := [], out := none }).seats := by
          rw [← hu]
          exact List.modify_modify_eq _ _ i t.seats
        refine (h.serving.modify_same fun old hold hserved => ?_).of_eq hseats
        rw [hseat] at hold
        cases hold
        exact ⟨hserved.present, hserved.goesOn, .idle rfl hunread rfl⟩
      · have hsame : u.outNodes = t.outNodes := by
          rw [← hu]
          exact outNodes_modifySeat fun _ _ => rfl
        have hperm := perm_outNodes_release hread hsome
        rw [hsame] at hperm
        rw [← hu] at hperm ⊢
        exact h.tracks.perm hperm
  · have hpresent := hserving.present
    rw [hgone] at hpresent
    cases hpresent

end Orderly

/-- A report that is taken in leaves the worker idle. -/
theorem Heard.orderly [Scalar.Ordered α] {a : Assignment α} {reply : Reply α}
    (h : u.Heard solvers i a reply) (htake : u.takeIn i reply = (.ok (), v))
    (hids : 2 * v.search.stats.processed + 1 < wordRange) : v.Orderly solvers := by
  obtain ⟨seat, hseat, hout⟩ := h.out
  obtain ⟨held, b, r, stage, search, rfl, hheld, hb, hid, happly, hannounced⟩ := takeIn_ok htake
  cases hseat.symm.trans hheld
  cases hout.symm.trans hb
  have haccept : (u.accept i r).search = search := by rw [Team.accept, happly]
  have hstaffed : 0 < (u.accept i r).seats.length := by
    rw [show (u.accept i r).seats.length = u.seats.length from length_modifySeat]
    exact h.staffed
  -- whether a better point is announced or not, what is left is an accepted report
  have hv : v.search = search ∧ v.outNodes = (u.release i).outNodes
      ∧ (v.Each fun i seat => seat.Serving (solvers i)) ∧ 0 < v.seats.length := by
    rcases hannounced with ⟨-, hannounce⟩ | ⟨-, rfl⟩
    · obtain ⟨w, hw, hafter, hsame, hnodes, hlength⟩ := Orderly.announce (h.serving r)
      rw [hannounce] at hw
      cases hw
      exact ⟨hsame.trans haccept, hnodes, hafter, hlength ▸ hstaffed⟩
    · exact ⟨haccept, rfl, h.serving r, hstaffed⟩
  obtain ⟨hlast, hnodes, hafter, hstaffed⟩ := hv
  rw [hlast] at hids
  refine ⟨hstaffed, hafter, ?_⟩
  rw [hlast, hnodes]
  exact h.tracks.apply hid happly hids

/-- A reply is refused only if it is a failure or if the box of its node is not valid any more. -/
theorem Heard.refused [Scalar.Ordered α] {a : Assignment α} {reply : Reply α} {e : Error α}
    (h : u.Heard solvers i a reply) (htake : u.takeIn i reply = (.error e, v)) :
    (∃ text, e = .workerFailed i text) ∨ ∃ fault, e = .invalidProblem fault := by
  obtain ⟨seat, hseat, hout⟩ := h.out
  rcases takeIn_error htake
    with ⟨text, rfl, rfl⟩ | ⟨r, rfl, hwrong | ⟨search, happly⟩ | ⟨w, hannounce⟩⟩
  · exact .inl ⟨text, rfl⟩
  · cases h.reply with
    | report hid =>
      rw [hseat] at hwrong
      exact absurd (by simp [hout, hid]) hwrong
  · cases h.reply with
    | report hid => exact .inr (h.tracks.apply_error hid happly).2
  · obtain ⟨_, hok, -⟩ := Orderly.announce (h.serving r)
    rw [hannounce] at hok
    cases hok

namespace Orderly

variable [Scalar.Ordered α]

/-- The manager looks at the search. If the search is not over, a node is out then. -/
theorem decide (h : t.Orderly solvers) (hsearching : (t.decide solvers).Searching) :
    (t.decide solvers).Orderly solvers ∧ (t.decide solvers).outNodes ≠ [] := by
  rcases decide_cases solvers t with ⟨status, -, heq⟩ | ⟨hcheck, hdispatched⟩
  · rw [heq] at hsearching
    exact absurd hsearching (not_searching_finishDrain _ _)
  · obtain ⟨u, hu, horderly, hsome⟩ := h.atTime.dispatch hcheck
    rcases hdispatched with ⟨e, v, hv, -⟩ | ⟨v, hv, heq⟩
    · cases hu.symm.trans hv
    · cases hu.symm.trans hv
      rw [heq]
      exact ⟨horderly.of_eq rfl rfl, hsome⟩

/-- A reply or other news reach the manager. If the search is not over, the manager looks at it. -/
theorem hear (h : t.Orderly solvers) {news : News α} (hnews : t.news? i = some (news, u))
    (hsearching : (u.hear i news).Searching)
    (hids : 2 * (u.hear i news).search.stats.processed + 1 < wordRange) :
    (u.hear i news).Orderly solvers ∧ (u.hear i news).phase = .deciding := by
  obtain ⟨a, reply, rfl, hheard⟩ := h.heard hnews
  have hhearing := hearing u i (.reply reply)
  generalize u.hear i (.reply reply) = after at hhearing hsearching hids ⊢
  cases hhearing with
  | refused => cases hsearching
  | taken htake => exact ⟨(hheard.orderly htake hids).of_eq rfl rfl, rfl⟩

/-- No event breaks the order as long as the search goes on, and a manager that waits does so for a
node that is out. -/
theorem step (h : t.Orderly solvers) (hwaits : t.phase = .waiting → t.outNodes ≠ [])
    (hs : ∀ i, (solvers i).Reliable) (event : Event)
    (hsearching : (t.step solvers event).Searching)
    (hids : 2 * (t.step solvers event).search.stats.processed + 1 < wordRange) :
    (t.step solvers event).Orderly solvers
      ∧ ((t.step solvers event).phase = .waiting → (t.step solvers event).outNodes ≠ []) := by
  have heffect := effect_step solvers t event
  generalize t.step solvers event = after at heffect hsearching hids ⊢
  -- the nodes that are out change when the manager looks or takes in a reply; late news come when
  -- the search is over
  cases heffect with
  | nothing => exact ⟨h, hwaits⟩
  | work i =>
    obtain ⟨-, hphase, hout, -⟩ := work_frame solvers t i
    refine ⟨h.work hs i, ?_⟩
    rw [hphase, hout]
    exact hwaits
  | decide hphase =>
    obtain ⟨horderly, hsome⟩ := h.decide hsearching
    exact ⟨horderly, fun _ => hsome⟩
  | tick hphase => exact ⟨h.of_eq rfl rfl, fun hphase => nomatch hphase⟩
  | hear hphase hnews =>
    obtain ⟨horderly, hdeciding⟩ := h.hear hnews hsearching hids
    refine ⟨horderly, fun hwaiting => ?_⟩
    rw [hdeciding] at hwaiting
    cases hwaiting
  | hearLate hphase hnews => exact absurd hsearching (not_searching_finishDrain _ _)
  | deadline hphase => cases hsearching

/-- The team is in order at the start. -/
theorem start {vars : List (Variable α)} {settings : Settings α} {memory : σ}
    (h : Team.start vars settings memory = .ok t) :
    t.Orderly solvers ∧ t.phase = .deciding := by
  have hidle := each_start h
  obtain ⟨hworkers, search, hnew, rfl⟩ := start_ok h
  refine ⟨⟨?_, fun i seat hseat => ?_, ?_⟩, rfl⟩
  · rw [List.length_map, List.length_range]
    exact hworkers
  · rw [hidle i seat hseat]
    exact ⟨rfl, fun _ hmem => absurd hmem List.not_mem_nil, .idle rfl rfl rfl⟩
  · rw [outNodes_eq_nil.mpr fun i seat hseat => by rw [hidle i seat hseat]]
    exact .new hnew

/-- A team in order stays so as long as its search is not over. -/
theorem run (h : t.Orderly solvers) (hwaits : t.phase = .waiting → t.outNodes ≠ [])
    (hs : ∀ i, (solvers i).Reliable) {events : List Event}
    (hsearching : (t.run solvers events).Searching)
    (hids : 2 * (t.run solvers events).search.stats.processed + 1 < wordRange) :
    (t.run solvers events).Orderly solvers
      ∧ ((t.run solvers events).phase = .waiting → (t.run solvers events).outNodes ≠ []) := by
  induction events generalizing t with
  | nil => exact ⟨h, hwaits⟩
  | cons event rest ih =>
    rw [run_cons] at hsearching hids ⊢
    -- the count of processed nodes never falls, so the ids last for this event as well
    have hlater := (later_run solvers (t.step solvers event) rest).1
    obtain ⟨hnext, hnextWaits⟩ :=
      h.step hwaits hs event (searching_of_run hsearching) (by omega)
    exact ih hnext hnextWaits hsearching hids

end Orderly

/-! ## Exclusive hand-out -/

/-- Nodes are handed out exclusively, and the manager of a search that is not over has a node
out. -/
structure Exclusive (solvers : Nat → Solvers σ α) (t : Team σ α) : Prop where
  /-- What is under way between a worker and the manager, an order to process a node that was not
  read or a reply that was not, is one message if the worker is on a node, and none otherwise. -/
  one : t.Each fun _ seat =>
    seat.unread.length + seat.replies.length = if seat.out.isSome then 1 else 0
  /-- The order is about the node that the worker is on. -/
  ordered : t.Each fun _ seat => ∀ n ∈ seat.unread, ∃ a, seat.out = some a ∧ a.node = n
  /-- So is the reply. -/
  answered : t.Each fun i seat => ∀ reply ∈ seat.replies,
    ∃ a, seat.out = some a ∧ reply.Answers (solvers i) a.node
  /-- No two nodes that are out share an id. -/
  distinct : (t.outNodes.map Node.id).Nodup
  /-- The search waits for the nodes that are out and for no other. -/
  waiting : t.search.brancher.waiting.ids.Perm (t.outNodes.map Node.id)
  /-- No node that is out shares its id with an open one. -/
  disjoint : ∀ n ∈ t.outNodes, ∀ m ∈ t.search.brancher.frontier.nodes, m.id ≠ n.id
  /-- No worker that is on a node is gone, and no reply is about a node that the worker is not on or
  that the search does not wait for. -/
  accepts : ∀ i news u, t.news? i = some (news, u) → ∃ reply, news = .reply reply
    ∧ ∀ e v, u.takeIn i reply = (.error e, v) →
      (∀ fault, e ≠ .protocol fault) ∧ (∀ id, e ≠ .unknownNode id)
        ∧ ∀ fault, e ≠ .channelClosed fault
  /-- If the manager finds that the search is not over, a node is out once it has handed out
  nodes. -/
  handsOut : t.phase = .deciding →
    (t.atTime solvers).search.check (t.atTime solvers).outLowest = none →
      ∃ u, (t.atTime solvers).dispatch = (.ok (), u) ∧ u.outNodes ≠ []
  /-- A manager that waits does so for a node that is out. -/
  waitsForSome : t.phase = .waiting → t.outNodes ≠ []

/-- Nodes are handed out exclusively by a team in order. -/
theorem Orderly.exclusive [Scalar.Ordered α] (h : t.Orderly solvers)
    (hwaits : t.phase = .waiting → t.outNodes ≠ []) : t.Exclusive solvers where
  one i seat hseat := by
    cases (h.serving i seat hseat).course with
    | idle hout hunread hreplies => simp [hout, hunread, hreplies]
    | assigned hout hunread hreplies => simp [hout, hunread, hreplies]
    | answered hout hunread hreplies => simp [hout, hunread, hreplies]
  ordered i seat hseat n hn := by
    cases (h.serving i seat hseat).course with
    | idle _ hunread => simp [hunread] at hn
    | assigned hout hunread =>
      rw [hunread, List.mem_singleton] at hn
      exact ⟨_, hout, hn.symm⟩
    | answered _ hunread => simp [hunread] at hn
  answered i seat hseat reply hmem := by
    cases (h.serving i seat hseat).course with
    | idle _ _ hreplies => simp [hreplies] at hmem
    | assigned _ _ hreplies => simp [hreplies] at hmem
    | answered hout _ hreplies hreply =>
      rw [hreplies, List.mem_singleton] at hmem
      exact ⟨_, hout, hmem ▸ hreply⟩
  distinct := h.tracks.nodup_ids
  waiting := h.tracks.waiting
  disjoint n hn m hm := h.tracks.ne_of_open hn hm
  accepts i news u hnews := by
    obtain ⟨a, reply, rfl, hheard⟩ := h.heard hnews
    refine ⟨reply, rfl, fun e v hv => ?_⟩
    rcases hheard.refused hv with ⟨text, rfl⟩ | ⟨fault, rfl⟩
    · exact ⟨nofun, nofun, nofun⟩
    · exact ⟨nofun, nofun, nofun⟩
  handsOut _ hcheck := by
    obtain ⟨u, hu, -, hsome⟩ := h.atTime.dispatch hcheck
    exact ⟨u, hu, hsome⟩
  waitsForSome := hwaits

/-- As long as the search of a team is not over, nodes are handed out exclusively, whatever the
order in which workers handle their messages, the manager reads the replies, and the clock wakes it.
The ids of the nodes must not run out, as they do not before half as many nodes are processed as
there are words. -/
theorem run_exclusive [Scalar.Ordered α] {vars : List (Variable α)} {settings : Settings α}
    {memory : σ} {start : Team σ α} {events : List Event} (hs : ∀ i, (solvers i).Reliable)
    (hstart : Team.start vars settings memory = .ok start)
    (hsearching : (start.run solvers events).Searching)
    (hids : 2 * (start.run solvers events).search.stats.processed + 1 < wordRange) :
    (start.run solvers events).Exclusive solvers := by
  obtain ⟨horderly, hphase⟩ := Orderly.start hstart
  have hwaits : start.phase = .waiting → start.outNodes ≠ [] := by
    rw [hphase]
    exact nofun
  obtain ⟨hlast, hlastWaits⟩ := horderly.run hwaits hs hsearching hids
  exact hlast.exclusive hlastWaits

/-- Settings with two workers. -/
def sampleSettings : Settings (Extended ℚ) := { Settings.standard with workers := 2 }

/-- The root is processed and split, and its children go out. One worker has answered, the other has
not even read that there is a better point. -/
def sampleEvents : List Event :=
  [.decide, .work 0, .receive 0, .decide, .tick, .work 0, .work 0]

/-- The events lead to such a team. -/
theorem exists_sampleEvents :
    ∃ start ∈ (Team.start Async.sampleVars sampleSettings ()).toOption,
      let t := start.run (fun _ => Async.sampleSolvers) sampleEvents
      t.Searching ∧ 2 * t.search.stats.processed + 1 < wordRange ∧ t.outNodes.length = 2
        ∧ (t.seats.map fun seat => (seat.unread.length, seat.replies.length))
          = [(0, 1), (1, 0)] := by
  decide +kernel

/-- Two nodes are out exclusively, one answered and one not yet read. -/
theorem run_exclusive_sampleEvents :
    ∃ start, Team.start Async.sampleVars sampleSettings () = .ok start
      ∧ (start.run (fun _ => Async.sampleSolvers) sampleEvents).outNodes.length = 2
      ∧ (start.run (fun _ => Async.sampleSolvers) sampleEvents).Exclusive
        fun _ => Async.sampleSolvers := by
  obtain ⟨start, hstart, hsearching, hids, hout, -⟩ := exists_eq_ok exists_sampleEvents
  exact ⟨start, hstart, hout,
    run_exclusive (fun _ => Async.reliable_sampleSolvers) hstart hsearching hids⟩

end Team

end BranchBound
