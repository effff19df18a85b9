import BranchBound.Proofs.Node.Conforming
import BranchBound.Proofs.Team.Cutoffs
import BranchBound.Proofs.Team.HandOut

/-! # What a worker answers

A worker that serves its orders answers the nodes among them one by one, up to the first order that
tells it to stop, and says nothing else. It processes each node against the best value that it knows
then: that of the cutoff it started with, those that it was told of before the node, and those that
it has found itself. Values that are undefined are never better than others, and none is better than
they are.

* **`Order.untilStop`**, **`Order.nodes`** — the orders that are served, and the nodes among them.
* **`Worker.answerTo`** — the answer to a node under a cutoff.
* **`Worker.known`**, **`Worker.IsBest`** — the values that a worker knows, and the best of them.
* **`Worker.run_serves`** — which replies there are to a list of orders. -/

namespace BranchBound

/-! ## Orders -/

namespace Order

variable {α : Type}

/-- The orders before the first that tells to stop. -/
def untilStop (orders : List (Order α)) : List (Order α) :=
  orders.takeWhile fun
    | .stop _ => false
    | .process _ | .improve _ => true

/-- The nodes that orders ask to process. -/
def nodes (orders : List (Order α)) : List (Node α) := orders.filterMap node?

/-- The value that an order tells of. -/
def value? : Order α → Option α
  | .improve c => some c.value
  | .process _ | .stop _ => none

end Order

variable {σ α : Type} [Scalar α]

omit [Scalar α] in
/-- The value that a reply brings. -/
def Reply.value? (reply : Reply α) : Option α := reply.candidate?.map (·.value)

open BranchBound.Order

namespace Worker

variable {solvers : Solvers σ α} {w : Worker α} {initial v x : α} {values : List α}
  {orders rest : List (Order α)} {memory : σ}

/-! ## The best value -/

/-- The values that a worker was told of by some orders and found with some replies. -/
def known (before : List (Order α)) (replies : List (Reply α)) : List α :=
  before.filterMap value? ++ replies.filterMap Reply.value?

/-- The best of an initial value and others: the lowest, or the initial value if that is undefined
and thus compared with nothing. -/
def IsBest (initial : α) (values : List α) (v : α) : Prop :=
  if Scalar.isNaN initial then v = initial
  else Scalar.IsLowest {x | x = initial ∨ x ∈ values} v

/-- Of an initial value alone it is the best. -/
theorem isBest_nil [Scalar.Ordered α] (initial : α) : IsBest initial [] initial := by
  unfold IsBest
  split
  · rfl
  · next hdef =>
    rw [Bool.not_eq_true] at hdef
    refine ⟨hdef, ?_, .inl (.inl rfl)⟩
    rintro x (rfl | hx) -
    · exact Scalar.Ordered.le_refl hdef
    · cases hx

/-- Which value is best depends on which there are, and not on their order. -/
theorem IsBest.congr {others : List α} (h : IsBest initial values v)
    (hmem : ∀ x, x ∈ values ↔ x ∈ others) : IsBest initial others v := by
  unfold IsBest at *
  simpa only [hmem] using h

/-- What is best from a tightened cutoff on is best from the cutoff on with the value that tightened
it. -/
theorem IsBest.of_tighten [Scalar.Ordered α] {c : Cutoff α}
    (h : IsBest (c.tighten x).2.incumbent values v) : IsBest c.incumbent (x :: values) v := by
  unfold IsBest at *
  -- either `x` takes the place of the cutoff, or it was no better and adds nothing
  rcases c.tighten_cases x with ⟨hlt, heq⟩ | ⟨hge, heq⟩
  · have hx : Scalar.isNaN x = false :=
      Scalar.Ordered.isNaN_left_of_le (Scalar.le_of_lt hlt)
    have hc : Scalar.isNaN c.incumbent = false :=
      Scalar.Ordered.isNaN_right_of_le (Scalar.le_of_lt hlt)
    rw [heq, hx, if_neg Bool.false_ne_true] at h
    rw [hc, if_neg Bool.false_ne_true]
    have hvx : v ≤ x := h.le x (.inl rfl) hx
    refine ⟨h.defined, ?_, ?_⟩
    · rintro y (rfl | hy) hdef
      · exact Scalar.Ordered.le_trans hvx (Scalar.le_of_lt hlt)
      · rcases List.mem_cons.mp hy with rfl | hy
        · exact hvx
        · exact h.le y (.inr hy) hdef
    · rcases h.attained with (rfl | hv) | ⟨-, hall⟩
      · exact .inl (.inr List.mem_cons_self)
      · exact .inl (.inr (List.mem_cons_of_mem _ hv))
      · cases hx.symm.trans (hall x (.inl rfl))
  · rw [heq] at h
    split at h
    · next hnan => rw [if_pos hnan, h]
    · next hdef =>
      rw [if_neg hdef]
      rw [Bool.not_eq_true] at hdef
      have hvc : v ≤ c.incumbent := h.le _ (.inl rfl) hdef
      refine ⟨h.defined, ?_, ?_⟩
      · rintro y (rfl | hy) hy'
        · exact hvc
        · rcases List.mem_cons.mp hy with rfl | hy
          · exact Scalar.Ordered.le_trans hvc (Scalar.le_of_not_lt hy' hdef hge)
          · exact h.le y (.inr hy) hy'
      · rcases h.attained with (rfl | hv) | ⟨-, hall⟩
        · exact .inl (.inl rfl)
        · exact .inl (.inr (List.mem_cons_of_mem _ hv))
        · cases hdef.symm.trans (hall _ (.inl rfl))

/-! ## One order -/

/-- The answer to a node under a cutoff, unless the solvers take the worker down, and the state that
they are left in. -/
def answerTo (solvers : Solvers σ α) (cutoff : Cutoff α) (node : Node α) (memory : σ) :
    Option (Reply α) × σ :=
  match (processNode solvers node cutoff).exec memory with
  | (.ok r, after) => (some (.report r), after)
  | (.error (.error e), after) => (some (.failed e.message), after)
  | (.error .crash, after) => (none, after)

/-- The worker once it knows of a value, if there is one. -/
def heed (w : Worker α) : Option α → Worker α
  | some x => w.tighten x
  | none => w

/-- What is best from then on is best with the value. -/
theorem IsBest.of_heed [Scalar.Ordered α] {value : Option α}
    (h : IsBest (w.heed value).cutoff.incumbent values v) :
    IsBest w.cutoff.incumbent (value.toList ++ values) v := by
  cases value with
  | none => exact h
  | some x => exact h.of_tighten

/-- Nothing but the value of the cutoff changes. -/
theorem cutoff_heed (w : Worker α) (value : Option α) (v : α) :
    { (w.heed value).cutoff with incumbent := v } = { w.cutoff with incumbent := v } := by
  cases value with
  | none => rfl
  | some x =>
    show { (w.cutoff.tighten x).2 with incumbent := v } = _
    unfold Cutoff.tighten
    split
    · rfl
    · rfl

/-- The value of the cutoff stays or falls. -/
theorem heed_falls (w : Worker α) (value : Option α) :
    (w.heed value).cutoff.incumbent = w.cutoff.incumbent
      ∨ (w.heed value).cutoff.incumbent < w.cutoff.incumbent := by
  cases value with
  | none => exact .inl rfl
  | some x =>
    rcases w.cutoff.tighten_cases x with ⟨hlt, heq⟩ | ⟨-, heq⟩
    · exact .inr (heq.symm ▸ hlt)
    · exact .inl heq

/-- A worker that is given a node answers it and learns from its reply, or is taken down. -/
theorem handle_eq_answerTo (node : Node α) :
    w.handle solvers (.process node) memory =
      match answerTo solvers w.cutoff node memory with
      | (some reply, after) => (.answer reply, w.heed reply.value?, after)
      | (none, after) => (.crashed, w, after) := by
  have hexec : Id.run ((processNode solvers node w.cutoff).run.run memory)
      = (processNode solvers node w.cutoff).exec memory := rfl
  unfold handle answerTo
  dsimp only
  rw [hexec]
  -- a failure of the node is answered, a crash of the solvers is not
  rcases (processNode solvers node w.cutoff).exec memory with ⟨(e | crash) | r, after⟩
  · rfl
  · rfl
  · show (Reaction.answer (.report r), w.adopt r, after)
      = (.answer (.report r), w.heed (r.candidate.map (·.value)), after)
    unfold adopt
    cases r.candidate with
    | none => rfl
    | some c => rfl

/-- What a worker serves when the first order is a node and its reply is heard. -/
theorem run_process (node : Node α) :
    run solvers true (.process node :: rest) w memory =
      match answerTo solvers w.cutoff node memory with
      | (some reply, after) =>
          let service := run solvers true rest (w.heed reply.value?) after
          { service with replies := reply :: service.replies }
      | (none, after) => ⟨[], rest, w, after⟩ := by
  rw [run, handle_eq_answerTo]
  rcases answerTo solvers w.cutoff node memory with ⟨_ | reply, after⟩
  · rfl
  · rfl

/-! ## All orders -/

/-- Every reply is the answer to the node of its place, processed against the best value that a
worker with this cutoff knows then: the solvers start in a state, and each answer leaves the state
that the next one starts in. Where there is no further reply, the next node has no answer. -/
def RepliesTo (solvers : Solvers σ α) (orders : List (Order α)) (cutoff : Cutoff α) (memory : σ)
    (replies : List (Reply α)) : Prop :=
  ∃ states : Nat → σ, states 0 = memory ∧ ∀ before node after,
    untilStop orders = before ++ .process node :: after → (nodes before).length ≤ replies.length →
    ∃ v, IsBest cutoff.incumbent (known before (replies.take (nodes before).length)) v
      ∧ answerTo solvers { cutoff with incumbent := v } node (states (nodes before).length)
        = (replies[(nodes before).length]?, states ((nodes before).length + 1))

variable {replies : List (Reply α)} {node : Node α} {after : σ}

/-- Without orders, or after one that tells to stop, there are no replies. -/
theorem RepliesTo.of_untilStop (h : untilStop orders = []) :
    RepliesTo solvers orders w.cutoff memory [] := by
  refine ⟨fun _ => memory, rfl, fun before node after heq => ?_⟩
  rw [h] at heq
  exact absurd heq (by simp)

variable [Scalar.Ordered α]

/-- A value that the worker is told of is known from then on. -/
theorem RepliesTo.improve {c : Candidate α}
    (h : RepliesTo solvers rest (w.heed (some c.value)).cutoff memory replies) :
    RepliesTo solvers (.improve c :: rest) w.cutoff memory replies := by
  obtain ⟨states, hstart, h⟩ := h
  refine ⟨states, hstart, fun before node after heq hle => ?_⟩
  cases before with
  | nil => cases (List.cons.inj heq).1
  | cons order before =>
    obtain ⟨rfl, hrest⟩ := List.cons.inj heq
    obtain ⟨v, hbest, hanswer⟩ := h before node after hrest hle
    rw [cutoff_heed] at hanswer
    exact ⟨v, hbest.of_heed, hanswer⟩

/-- The first node is processed against the cutoff, and its reply is known from then on. -/
theorem RepliesTo.process {reply : Reply α}
    (hanswer : answerTo solvers w.cutoff node memory = (some reply, after))
    (h : RepliesTo solvers rest (w.heed reply.value?).cutoff after replies) :
    RepliesTo solvers (.process node :: rest) w.cutoff memory (reply :: replies) := by
  obtain ⟨states, rfl, h⟩ := h
  refine ⟨fun k => k.casesOn memory states, rfl, fun before other later heq hle => ?_⟩
  -- the node is the first order itself, or the orders before it begin with the node
  cases before with
  | nil =>
    cases (List.cons.inj heq).1
    exact ⟨w.cutoff.incumbent, isBest_nil _, hanswer⟩
  | cons order before =>
    obtain ⟨rfl, hrest⟩ := List.cons.inj heq
    obtain ⟨v, hbest, hother⟩ := h before other later hrest (Nat.le_of_succ_le_succ hle)
    rw [cutoff_heed] at hother
    refine ⟨v, hbest.of_heed.congr fun x => ?_, hother⟩
    have hknown : known (.process node :: before)
          ((reply :: replies).take (nodes (.process node :: before)).length)
        = before.filterMap value? ++ (reply.value?.toList
          ++ (replies.take (nodes before).length).filterMap Reply.value?) := by
      show before.filterMap value?
        ++ (reply :: replies.take (nodes before).length).filterMap Reply.value? = _
      rw [List.filterMap_cons]
      cases reply.value? with
      | none => rfl
      | some y => rfl
    rw [hknown]
    unfold known
    simp only [List.mem_append]
    exact or_left_comm

/-- A node that takes the worker down has no answer. -/
theorem RepliesTo.crash (hanswer : answerTo solvers w.cutoff node memory = (none, after)) :
    RepliesTo solvers (.process node :: rest) w.cutoff memory [] := by
  refine ⟨fun k => if k = 0 then memory else after, rfl, fun before other later heq hle => ?_⟩
  cases before with
  | nil =>
    cases (List.cons.inj heq).1
    exact ⟨w.cutoff.incumbent, isBest_nil _, hanswer⟩
  | cons order before =>
    obtain ⟨rfl, -⟩ := List.cons.inj heq
    cases hle

/-- A worker replies to its orders. -/
theorem repliesTo_run (orders : List (Order α)) (w : Worker α) (memory : σ) :
    RepliesTo solvers orders w.cutoff memory (run solvers true orders w memory).replies := by
  induction orders generalizing w memory with
  | nil => exact .of_untilStop rfl
  | cons order rest ih =>
    cases order with
    | process node =>
      rw [run_process]
      split
      · next reply after hanswer => exact .process hanswer (ih _ _)
      · next after hanswer => exact .crash hanswer
    | improve c => exact .improve (ih _ _)
    | stop tag => exact .of_untilStop rfl

omit [Scalar.Ordered α] in
/-- There is one reply at most to every node that is served, and one to each unless the solvers take
the worker down. -/
theorem length_replies (solvers : Solvers σ α) (orders : List (Order α)) (w : Worker α)
    (memory : σ) :
    (run solvers true orders w memory).replies.length ≤ (nodes (untilStop orders)).length
      ∧ ((run solvers true orders w memory).replies.length = (nodes (untilStop orders)).length
        ∨ ∃ node ∈ nodes (untilStop orders), ∃ cutoff before,
          (answerTo solvers cutoff node before).1 = none) := by
  -- the worker and its memory change along the orders
  induction orders generalizing w memory with
  | nil => exact ⟨Nat.le_refl _, .inl rfl⟩
  | cons order rest ih =>
    cases order with
    | process node =>
      have hnodes : nodes (untilStop (.process node :: rest)) = node :: nodes (untilStop rest) :=
        rfl
      rw [run_process, hnodes]
      split
      · next reply after hanswer =>
        obtain ⟨hle, hall⟩ := ih (w.heed reply.value?) after
        refine ⟨Nat.succ_le_succ hle, hall.imp (congrArg (· + 1)) ?_⟩
        rintro ⟨other, hother, hcrash⟩
        exact ⟨other, List.mem_cons_of_mem _ hother, hcrash⟩
      · next after hanswer =>
        exact ⟨Nat.zero_le _,
          .inr ⟨node, List.mem_cons_self, w.cutoff, memory, congrArg Prod.fst hanswer⟩⟩
    | improve c => exact ih (w.heed (some c.value)) memory
    | stop tag => exact ⟨Nat.le_refl _, .inl rfl⟩

/-- The value of a cutoff stays or falls, and falls further. -/
theorem falls_trans {x y z : α} (hxy : x = y ∨ x < y) (hyz : y = z ∨ y < z) : x = z ∨ x < z := by
  rcases hxy with rfl | hxy
  · exact hyz
  · rcases hyz with rfl | hyz
    · exact .inr hxy
    · exact .inr (Scalar.lt_of_le_of_lt (Scalar.le_of_lt hxy) hyz)

/-- Serving orders, the value of the cutoff stays or falls. -/
theorem run_falls (orders : List (Order α)) (w : Worker α) (memory : σ) :
    (run solvers true orders w memory).worker.cutoff.incumbent = w.cutoff.incumbent
      ∨ (run solvers true orders w memory).worker.cutoff.incumbent < w.cutoff.incumbent := by
  induction orders generalizing w memory with
  | nil => exact .inl rfl
  | cons order rest ih =>
    cases order with
    | process node =>
      rw [run_process]
      split
      · next reply after hanswer => exact falls_trans (ih _ _) (w.heed_falls reply.value?)
      · exact .inl rfl
    | improve c => exact falls_trans (ih _ _) (w.heed_falls (some c.value))
    | stop tag => exact .inl rfl

/-- The value of the cutoff after some orders stays or falls with those that follow. -/
theorem run_append_falls (before later : List (Order α)) (w : Worker α) (memory : σ) :
    (run solvers true (before ++ later) w memory).worker.cutoff.incumbent
        = (run solvers true before w memory).worker.cutoff.incumbent
      ∨ (run solvers true (before ++ later) w memory).worker.cutoff.incumbent
        < (run solvers true before w memory).worker.cutoff.incumbent := by
  induction before generalizing w memory with
  | nil => exact run_falls later w memory
  | cons order before ih =>
    cases order with
    | process node =>
      rw [List.cons_append, run_process, run_process]
      split
      · next reply after hanswer => exact ih _ _
      · exact .inl rfl
    | improve c => exact ih _ _
    | stop tag => exact .inl rfl

/-- A worker answers every node that it serves with one reply, in order, unless its solvers take it
down, and nothing else: the reply is what the processing of the node comes to against the best value
known then. The value of its cutoff never rises. -/
theorem run_serves (solvers : Solvers σ α) (orders : List (Order α)) (w : Worker α) (memory : σ) :
    RepliesTo solvers orders w.cutoff memory (run solvers true orders w memory).replies
      ∧ (run solvers true orders w memory).replies.length ≤ (nodes (untilStop orders)).length
      ∧ ((run solvers true orders w memory).replies.length = (nodes (untilStop orders)).length
        ∨ ∃ node ∈ nodes (untilStop orders), ∃ cutoff before,
          (answerTo solvers cutoff node before).1 = none)
      ∧ ∀ before later, orders = before ++ later →
        (run solvers true orders w memory).worker.cutoff.incumbent
            = (run solvers true before w memory).worker.cutoff.incumbent
          ∨ (run solvers true orders w memory).worker.cutoff.incumbent
            < (run solvers true before w memory).worker.cutoff.incumbent := by
  obtain ⟨hle, hall⟩ := length_replies solvers orders w memory
  refine ⟨repliesTo_run orders w memory, hle, hall, ?_⟩
  rintro before later rfl
  exact run_append_falls before later w memory

/-- A node, a point that is told of, the node once more, and once more after an order to stop. -/
def pinchedOrders : List (Order (Extended ℚ)) :=
  [.process pinchedNode, .improve ⟨1, [0]⟩, .process pinchedNode, .stop .everythingFine,
    .process pinchedNode]

/-- The first two nodes are answered, the second one against the better of the value that the worker
has found and that it was told of. -/
theorem run_serves_pinchedOrders :
    (nodes (untilStop pinchedOrders)).length = 2
      ∧ (run pinchingSolvers true pinchedOrders ⟨0, ⟨.top, 0, 0⟩⟩ ()).replies.length = 2
      ∧ ∃ v after, IsBest .top [1, .point 2] v
        ∧ answerTo pinchingSolvers ⟨v, 0, 0⟩ pinchedNode ()
          = ((run pinchingSolvers true pinchedOrders ⟨0, ⟨.top, 0, 0⟩⟩ ()).replies[1]?, after) := by
  obtain ⟨⟨states, -, hreplies⟩, -⟩ :=
    run_serves pinchingSolvers pinchedOrders ⟨0, ⟨.top, 0, 0⟩⟩ ()
  have hcount :
      (run pinchingSolvers true pinchedOrders ⟨0, ⟨.top, 0, 0⟩⟩ ()).replies.length = 2 := by
    decide +kernel
  obtain ⟨v, hbest, hanswer⟩ := hreplies [.process pinchedNode, .improve ⟨1, [0]⟩] pinchedNode []
    rfl (by rw [hcount]; decide)
  have hknown : known [.process pinchedNode, .improve ⟨1, [0]⟩]
      ((run pinchingSolvers true pinchedOrders ⟨0, ⟨.top, 0, 0⟩⟩ ()).replies.take 1)
      = [1, .point 2] := by
    decide +kernel
  exact ⟨rfl, hcount, v, _, hknown ▸ hbest, hanswer⟩

end Worker

end BranchBound
