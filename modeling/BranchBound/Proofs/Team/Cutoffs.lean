import BranchBound.Proofs.Search.Asynchronous
import BranchBound.Proofs.Search.Reporting
import BranchBound.Proofs.Team.Runs

/-! # Cutoffs and the incumbent

A worker keeps a cutoff of its own. It adopts the points that it finds before the manager knows of
them, and is told of those that others find. Whatever the order of events, no point is lost on the
way: the cutoff of a worker is never better than the incumbent and the points on its way to the
manager, and it is as good as the incumbent once the worker has read its orders.

* **`Seat.finds`** — the points on their way to the manager.
* **`Seat.Agrees`** — the invariant, between the seat of a worker and the value of the incumbent.
* **`Team.Smooth`** — runs in which the manager refuses no reply.
* **`Team.cutoff_agrees`** — what holds of the cutoffs in every such run. -/

namespace BranchBound

variable {σ α : Type} [Scalar α]

/-! ## What a worker does to its cutoff -/

/-- A cutoff is tightened by a better value only. -/
theorem Cutoff.tighten_cases (c : Cutoff α) (v : α) :
    v < c.incumbent ∧ (c.tighten v).2.incumbent = v
      ∨ ¬ v < c.incumbent ∧ (c.tighten v).2.incumbent = c.incumbent := by
  unfold Cutoff.tighten
  split
  · next hlt => exact .inl ⟨hlt, rfl⟩
  · next hlt => exact .inr ⟨hlt, rfl⟩

/-- A cutoff that was tightened by a value is at most that value. -/
theorem Cutoff.tighten_le [Scalar.Ordered α] {c : Cutoff α} {v : α}
    (hc : Scalar.isNaN c.incumbent = false) (hv : Scalar.isNaN v = false) :
    (c.tighten v).2.incumbent ≤ v := by
  rcases c.tighten_cases v with ⟨-, heq⟩ | ⟨hle, heq⟩
  · rw [heq]
    exact Scalar.Ordered.le_refl hv
  · rw [heq]
    exact Scalar.le_of_not_lt hv hc hle

/-- What a worker does with an order. -/
theorem Worker.handle_cases {solvers : Solvers σ α} {w v : Worker α} {order : Order α}
    {reaction : Reaction α} {memory after : σ}
    (h : w.handle solvers order memory = (reaction, v, after)) :
    (∃ node r, order = .process node ∧ reaction = .answer (.report r) ∧ v = w.adopt r)
      ∨ (∃ node text, order = .process node ∧ reaction = .answer (.failed text) ∧ v = w)
      ∨ (∃ c, order = .improve c ∧ reaction = .note ∧ v = w.tighten c.value)
      ∨ (reaction = .crashed ∨ ∃ tag, reaction = .stopped tag) ∧ v = w := by
  unfold handle at h
  split at h
  · next node =>
    split at h
    · cases h
      exact .inl ⟨node, _, rfl, rfl, rfl⟩
    · cases h
      exact .inr (.inl ⟨node, _, rfl, rfl, rfl⟩)
    · cases h
      exact .inr (.inr (.inr ⟨.inl rfl, rfl⟩))
  · next c =>
    cases h
    exact .inr (.inr (.inl ⟨c, rfl, rfl, rfl⟩))
  · next tag =>
    cases h
    exact .inr (.inr (.inr ⟨.inr ⟨tag, rfl⟩, rfl⟩))

/-- A worker adopts the point of a report if it is better. -/
theorem Worker.adopt_cases (w : Worker α) (r : Report α) :
    (∃ c, r.candidate = some c ∧ c.value < w.cutoff.incumbent
        ∧ (w.adopt r).cutoff.incumbent = c.value)
      ∨ (w.adopt r).cutoff.incumbent = w.cutoff.incumbent := by
  unfold adopt
  cases r.candidate with
  | none => exact .inr rfl
  | some c =>
    rcases w.cutoff.tighten_cases c.value with ⟨hlt, heq⟩ | ⟨-, heq⟩
    · exact .inl ⟨c, rfl, hlt, heq⟩
    · exact .inr heq

/-- No order makes the cutoff of a worker worse. -/
theorem Worker.cutoff_handle_le [Scalar.Ordered α] {solvers : Solvers σ α} {w v : Worker α}
    {order : Order α} {reaction : Reaction α} {memory after : σ}
    (h : w.handle solvers order memory = (reaction, v, after))
    (hw : Scalar.isNaN w.cutoff.incumbent = false) :
    v.cutoff.incumbent ≤ w.cutoff.incumbent := by
  have hsame : w.cutoff.incumbent ≤ w.cutoff.incumbent := Scalar.Ordered.le_refl hw
  rcases handle_cases h with
    ⟨-, r, -, -, rfl⟩ | ⟨-, -, -, -, rfl⟩ | ⟨c, -, -, rfl⟩ | ⟨-, rfl⟩
  · rcases w.adopt_cases r with ⟨c, -, hlt, heq⟩ | heq
    · exact heq ▸ Scalar.le_of_lt hlt
    · exact heq ▸ hsame
  · exact hsame
  · rcases w.cutoff.tighten_cases c.value with ⟨hlt, heq⟩ | ⟨-, heq⟩
    · exact heq.symm ▸ Scalar.le_of_lt hlt
    · exact heq.symm ▸ hsame
  · exact hsame

/-- A worker that takes note of a point has a cutoff that is at least as good. -/
theorem Worker.cutoff_note_le [Scalar.Ordered α] {solvers : Solvers σ α} {w v : Worker α}
    {c : Candidate α} {reaction : Reaction α} {memory after : σ}
    (h : w.handle solvers (.improve c) memory = (reaction, v, after))
    (hw : Scalar.isNaN w.cutoff.incumbent = false) (hc : Scalar.isNaN c.value = false) :
    v.cutoff.incumbent ≤ c.value := by
  cases h
  exact Cutoff.tighten_le hw hc

/-! ## The invariant -/

omit [Scalar α] in
/-- The point that a reply brings. -/
def Reply.candidate? : Reply α → Option (Candidate α)
  | .report r => r.candidate
  | .failed _ => none

/-- The points that a worker has found and that its manager has not read of. -/
def Seat.finds (seat : Seat α) : List (Candidate α) := seat.replies.filterMap Reply.candidate?

namespace Seat

/-- A worker knows of no better point than an incumbent of some value, up to the points that are on
their way to the manager. -/
structure Bounded (value : α) (seat : Seat α) : Prop where
  /-- The cutoff is no better than the incumbent, unless the worker has found a point. -/
  backed : ∀ w, seat.worker = some w →
    value ≤ w.cutoff.incumbent ∨ ∃ c ∈ seat.finds, c.value ≤ w.cutoff.incumbent
  /-- The worker is told of no point that is better than the incumbent. -/
  told : ∀ c, Order.improve c ∈ seat.orders → value ≤ c.value

/-- A worker and an incumbent of some value agree, up to the points that are on their way between
them. -/
structure Agrees (value : α) (seat : Seat α) : Prop extends Bounded value seat where
  /-- The cutoff is as good as the incumbent, unless the worker is still to be told of a point that
  is. -/
  informed : ∀ w, seat.worker = some w →
    w.cutoff.incumbent ≤ value ∨ ∃ c, Order.improve c ∈ seat.orders ∧ c.value ≤ value

variable [Scalar.Ordered α] {seat : Seat α} {value : α}

omit [Scalar α] [Scalar.Ordered α] in
/-- Points are found by replies. -/
theorem mem_finds {c : Candidate α} :
    c ∈ seat.finds ↔ ∃ r, Reply.report r ∈ seat.replies ∧ r.candidate = some c := by
  rw [finds, List.mem_filterMap]
  constructor
  · rintro ⟨reply, hmem, hc⟩
    cases reply with
    | report r => exact ⟨r, hmem, hc⟩
    | failed text => cases hc
  · rintro ⟨r, hmem, hc⟩
    exact ⟨.report r, hmem, hc⟩

/-- The cutoff of a worker that agrees with an incumbent is defined. -/
theorem Agrees.isNaN_cutoff (h : seat.Agrees value) {w : Worker α} (hw : seat.worker = some w) :
    Scalar.isNaN w.cutoff.incumbent = false := by
  rcases h.backed w hw with hle | ⟨c, -, hle⟩
  · exact Scalar.Ordered.isNaN_right_of_le hle
  · exact Scalar.Ordered.isNaN_right_of_le hle

/-- So is the value of the incumbent. -/
theorem Agrees.isNaN_value (h : seat.Agrees value) {w : Worker α} (hw : seat.worker = some w) :
    Scalar.isNaN value = false := by
  rcases h.informed w hw with hle | ⟨c, -, hle⟩
  · exact Scalar.Ordered.isNaN_right_of_le hle
  · exact Scalar.Ordered.isNaN_right_of_le hle

omit [Scalar.Ordered α] in
/-- Orders that tell of no point change nothing. -/
theorem Agrees.push (h : seat.Agrees value) {order : Order α} (horder : ∀ c, order ≠ .improve c) :
    (seat.push order).Agrees value where
  backed := h.backed
  told c hmem := by
    rcases List.mem_append.mp hmem with hold | hnew
    · exact h.told c hold
    · exact absurd (List.mem_singleton.mp hnew).symm (horder c)
  informed w hw := by
    rcases h.informed w hw with hle | ⟨c, hmem, hle⟩
    · exact .inl hle
    · exact .inr ⟨c, List.mem_append_left _ hmem, hle⟩

omit [Scalar.Ordered α] in
/-- Being told of a point that is no better than the incumbent keeps the bound. -/
theorem Bounded.push_improve (h : seat.Bounded value) {c : Candidate α} (hle : value ≤ c.value) :
    (seat.push (.improve c)).Bounded value where
  backed := h.backed
  told d hmem := by
    rcases List.mem_append.mp hmem with hold | hnew
    · exact h.told d hold
    · cases List.mem_singleton.mp hnew
      exact hle

/-- A better incumbent bounds what the former one does. -/
theorem Bounded.of_le (h : seat.Bounded value) {better : α} (hle : better ≤ value) :
    seat.Bounded better where
  backed w hw := (h.backed w hw).imp (Scalar.Ordered.le_trans hle) id
  told c hmem := Scalar.Ordered.le_trans hle (h.told c hmem)

omit [Scalar.Ordered α] in
/-- Which node the worker is on does not matter. -/
theorem Agrees.assign (h : seat.Agrees value) (out : Option (Assignment α)) :
    Agrees value { seat with out } := ⟨⟨h.backed, h.told⟩, h.informed⟩

omit [Scalar.Ordered α] in
/-- A worker that is told to stop goes on to agree. -/
theorem Agrees.stop (h : seat.Agrees value) (tag : Tag) : (seat.push (.stop tag)).Agrees value :=
  h.push fun _ heq => by cases heq

omit [Scalar.Ordered α] in
/-- A worker that is given a node goes on to agree. -/
theorem Agrees.give (h : seat.Agrees value) (node : Node α) (turn : Nat) :
    (seat.give node turn).Agrees value := by
  have hpushed : (seat.push (.process node)).Agrees value := h.push fun _ heq => by cases heq
  exact hpushed.assign _

omit [Scalar α] [Scalar.Ordered α] in
/-- The points on their way once the worker has sent one more reply. -/
theorem finds_answer (seat : Seat α) (rest : List (Order α)) (w : Worker α) (reply : Reply α) :
    (seat.served rest w (.answer reply)).finds = seat.finds ++ reply.candidate?.toList := by
  show (seat.replies ++ [reply]).filterMap Reply.candidate? = _
  rw [List.filterMap_append, finds]
  cases hc : reply.candidate? with
  | none => rw [List.filterMap_cons_none hc]; rfl
  | some c => rw [List.filterMap_cons_some hc]; rfl

/-- A worker that handles an order knows of no better point, up to those on their way. -/
theorem Agrees.backed_served (h : seat.Agrees value) {solvers : Solvers σ α} {w v : Worker α}
    {order : Order α} {rest : List (Order α)} {reaction : Reaction α} {memory after : σ}
    (hw : seat.worker = some w) (horders : seat.orders = order :: rest)
    (hhandle : w.handle solvers order memory = (reaction, v, after)) :
    value ≤ v.cutoff.incumbent
      ∨ ∃ c ∈ (seat.served rest v reaction).finds, c.value ≤ v.cutoff.incumbent := by
  have hold : ∀ {finds : List (Candidate α)}, seat.finds ⊆ finds →
      value ≤ w.cutoff.incumbent ∨ ∃ c ∈ finds, c.value ≤ w.cutoff.incumbent := by
    intro finds hsub
    rcases h.backed w hw with hback | ⟨c, hmem, hback⟩
    · exact .inl hback
    · exact .inr ⟨c, hsub hmem, hback⟩
  rcases Worker.handle_cases hhandle with
    ⟨node, r, rfl, rfl, rfl⟩ | ⟨node, text, rfl, rfl, rfl⟩ | ⟨c, rfl, rfl, rfl⟩ | ⟨hgone, rfl⟩
  · rw [finds_answer]
    rcases w.adopt_cases r with ⟨c, hc, hlt, heq⟩ | heq
    · -- the point that the worker has found is on its way
      rw [heq]
      refine .inr ⟨c, List.mem_append_right _ (Option.mem_toList.mpr hc), ?_⟩
      exact Scalar.Ordered.le_refl (Scalar.Ordered.isNaN_left_of_le (Scalar.le_of_lt hlt))
    · rw [heq]
      exact hold (List.subset_append_left _ _)
  · rw [finds_answer]
    exact hold (List.subset_append_left _ _)
  · rcases w.cutoff.tighten_cases c.value with ⟨-, heq⟩ | ⟨-, heq⟩
    · exact .inl (heq.symm ▸ h.told c (horders ▸ List.mem_cons_self))
    · exact heq.symm ▸ hold (List.Subset.refl _)
  · rcases hgone with rfl | ⟨tag, rfl⟩
    · exact hold (List.Subset.refl _)
    · exact hold (List.Subset.refl _)

/-- A worker that handles an order knows what it was to be told, or is still to be told of it. -/
theorem Agrees.informed_served (h : seat.Agrees value) {solvers : Solvers σ α} {w v : Worker α}
    {order : Order α} {rest : List (Order α)} {reaction : Reaction α} {memory after : σ}
    (hw : seat.worker = some w) (horders : seat.orders = order :: rest)
    (hhandle : w.handle solvers order memory = (reaction, v, after)) :
    v.cutoff.incumbent ≤ value ∨ ∃ c, Order.improve c ∈ rest ∧ c.value ≤ value := by
  rcases h.informed w hw with hbetter | ⟨c, hmem, hbetter⟩
  · exact .inl (Scalar.Ordered.le_trans
      (Worker.cutoff_handle_le hhandle (h.isNaN_cutoff hw)) hbetter)
  · rw [horders, List.mem_cons] at hmem
    rcases hmem with rfl | hmem
    · -- this is the point that the worker has just been told of
      exact .inl (Scalar.Ordered.le_trans (Worker.cutoff_note_le hhandle (h.isNaN_cutoff hw)
        (Scalar.Ordered.isNaN_left_of_le hbetter)) hbetter)
    · exact .inr ⟨c, hmem, hbetter⟩

omit [Scalar α] [Scalar.Ordered α] in
/-- A worker that has handled an order is gone or is what became of it. -/
theorem worker_served (seat : Seat α) (rest : List (Order α)) (v : Worker α)
    (reaction : Reaction α) :
    (seat.served rest v reaction).worker = none ∧ (seat.served rest v reaction).orders = []
      ∨ (seat.served rest v reaction).worker = some v
        ∧ (seat.served rest v reaction).orders = rest := by
  cases reaction with
  | answer | note => exact .inr ⟨rfl, rfl⟩
  | stopped | crashed => exact .inl ⟨rfl, rfl⟩

/-- A worker that handles an order goes on to agree. -/
theorem Agrees.served (h : seat.Agrees value) {solvers : Solvers σ α} {w v : Worker α}
    {order : Order α} {rest : List (Order α)} {reaction : Reaction α} {memory after : σ}
    (hw : seat.worker = some w) (horders : seat.orders = order :: rest)
    (hhandle : w.handle solvers order memory = (reaction, v, after)) :
    (seat.served rest v reaction).Agrees value := by
  have hbacked := h.backed_served hw horders hhandle
  have hinformed := h.informed_served hw horders hhandle
  -- a worker that is taken down agrees with everything, since nobody is left
  rcases seat.worker_served rest v reaction with ⟨hworker, hleft⟩ | ⟨hworker, hleft⟩
  · refine ⟨⟨fun u hu => ?_, fun c hmem => ?_⟩, fun u hu => ?_⟩
    · cases hworker.symm.trans hu
    · rw [hleft] at hmem
      cases hmem
    · cases hworker.symm.trans hu
  · refine ⟨⟨fun u hu => ?_, fun c hmem => ?_⟩, fun u hu => ?_⟩
    · cases hworker.symm.trans hu
      exact hbacked
    · rw [hleft] at hmem
      exact h.told c (horders ▸ List.mem_cons_of_mem _ hmem)
    · cases hworker.symm.trans hu
      rw [hleft]
      exact hinformed

omit [Scalar.Ordered α] in
/-- A report that is read leaves a bound that counts its point. -/
theorem Bounded.read (h : seat.Bounded value) {r : Report α} {rest : List (Reply α)}
    (hreplies : seat.replies = .report r :: rest)
    (hpoint : ∀ w c, seat.worker = some w → r.candidate = some c →
      c.value ≤ w.cutoff.incumbent → value ≤ w.cutoff.incumbent) :
    Bounded value { seat with replies := rest, out := none } := by
  refine ⟨fun w hw => ?_, h.told⟩
  rcases h.backed w hw with hback | ⟨c, hmem, hback⟩
  · exact .inl hback
  · obtain ⟨other, hother, hc⟩ := mem_finds.mp hmem
    rw [hreplies, List.mem_cons] at hother
    rcases hother with heq | hother
    · cases heq
      exact .inl (hpoint w c hw hc hback)
    · exact .inr ⟨c, mem_finds.mpr ⟨other, hother, hc⟩, hback⟩

/-- A worker whose report is read knows of no better point than the incumbent that has adopted the
point of the report. -/
theorem Agrees.read {incumbent : Incumbent α} (h : seat.Agrees incumbent.value) {r : Report α}
    {rest : List (Reply α)} (hreplies : seat.replies = .report r :: rest) :
    Bounded (incumbent.adopt r).value { seat with replies := rest, out := none } := by
  rcases incumbent.adopt_cases r with ⟨c, hc, hlt, heq⟩ | ⟨hworse, heq⟩
  · rw [heq]
    refine (h.toBounded.of_le (Scalar.le_of_lt hlt)).read hreplies fun w d _ hd hle => ?_
    cases hc.symm.trans hd
    exact hle
  · rw [heq]
    refine h.toBounded.read hreplies fun w d hw hd hle => ?_
    have hkept := Scalar.le_of_not_lt (Scalar.Ordered.isNaN_left_of_le hle) (h.isNaN_value hw)
      (hworse d hd)
    exact Scalar.Ordered.le_trans hkept hle

end Seat

/-! ## Runs without errors -/

namespace Team

variable {solvers : Nat → Solvers σ α} {t u v : Team σ α} {i : Nat}

/-- Whether an event makes the manager read a reply that it refuses. -/
def refuses (t : Team σ α) : Event → Bool
  | .receive i =>
      match t.phase, t.news? i with
      | .waiting, some (.reply reply, u) => !(u.takeIn i reply).1.isOk
      | .draining _, some (.reply reply, u) => !(u.takeIn i reply).1.isOk
      | _, _ => false
  | _ => false

/-- In the course of the events the manager refuses no reply. -/
def Smooth (solvers : Nat → Solvers σ α) : Team σ α → List Event → Prop
  | _, [] => True
  | t, event :: rest => t.refuses event = false ∧ Smooth solvers (t.step solvers event) rest

/-- Whether a run is smooth is found by going through it. -/
instance decidableSmooth (solvers : Nat → Solvers σ α) :
    ∀ (t : Team σ α) (events : List Event), Decidable (t.Smooth solvers events)
  | _, [] => .isTrue trivial
  | t, event :: rest =>
      have := decidableSmooth solvers (t.step solvers event) rest
      inferInstanceAs (Decidable (_ ∧ _))

/-- The workers agree with the incumbent of the manager. -/
def Agrees (t : Team σ α) : Prop := t.Each fun _ seat => seat.Agrees t.search.incumbent.value

variable [Scalar.Ordered α]

/-- Once the incumbent was announced to all workers, they agree with it. -/
theorem agrees_of_announce
    (h : t.Each fun _ seat => seat.Bounded t.search.incumbent.value) {point : List α}
    (hpoint : t.search.incumbent.point = some point)
    (hvalue : Scalar.isNaN t.search.incumbent.value = false) (hu : t.announce = (.ok (), u)) :
    u.Agrees := by
  unfold announce at hu
  simp only [hpoint] at hu
  have hle := Scalar.Ordered.le_refl hvalue
  obtain ⟨hbounded, hsearch, -, -, hlength, -⟩ := announceTo_frame
    (c := ⟨t.search.incumbent.value, point⟩)
    (P := fun _ seat => seat.Bounded t.search.incumbent.value)
    (fun _ _ hseat => hseat.push_improve hle) (List.range t.seats.length) h
  rw [hu] at hbounded hsearch hlength
  intro i seat hseat
  have hi : i < t.seats.length := hlength ▸ (List.getElem?_eq_some_iff.mp hseat).1
  have htold := announceTo_told hu (List.mem_range.mpr hi) hseat
  rw [hsearch]
  -- whatever its cutoff is, the worker is still to be told of the incumbent
  exact ⟨hbounded i seat hseat, fun _ _ => .inr ⟨_, htold, hle⟩⟩

/-- A report that is taken in leaves the workers in agreement: if it brings a better point, they are
told. -/
theorem Agrees.takeIn (h : t.Agrees) {reply : Reply α} (hnews : t.news? i = some (.reply reply, u))
    (htake : u.takeIn i reply = (.ok (), v)) : v.Agrees := by
  obtain ⟨seat, hseat, -, ⟨_, rest, heq, hreplies, rfl⟩ | ⟨hgone, -⟩⟩ := news?_eq_some hnews
  swap
  · cases hgone
  cases heq
  obtain ⟨_, _, r, stage, search, rfl, -, -, -, happly, hannounced⟩ := takeIn_ok htake
  generalize hu : (t.modifySeat i fun s => { s with replies := rest }) = u at *
  have hsearch : u.search = t.search := by rw [← hu, search_modifySeat]
  rw [hsearch] at happly hannounced
  have hadopt : search.incumbent = t.search.incumbent.adopt r := by
    rw [← t.search.incumbent_apply r, happly]
  have haccept : (u.accept i r).search = search := by rw [accept, hsearch, happly]
  have hseats : (u.accept i r).seats
      = (t.modifySeat i fun s => { s with replies := rest, out := none }).seats := by
    rw [← hu]
    exact List.modify_modify_eq _ _ i t.seats
  rcases hannounced with ⟨hbetter, hannounce⟩ | ⟨hworse, rfl⟩
  · have hlower : search.incumbent.value ≤ t.search.incumbent.value := Scalar.le_of_lt hbetter
    obtain ⟨point, hpoint⟩ := Incumbent.exists_point_adopt (hadopt ▸ hbetter)
    rw [← hadopt] at hpoint
    refine agrees_of_announce (t := u.accept i r) ?_ (haccept.symm ▸ hpoint)
      (haccept.symm ▸ Scalar.Ordered.isNaN_left_of_le hlower) hannounce
    rw [haccept]
    refine (Each.modify h (fun j other _ hagrees => hagrees.toBounded.of_le hlower)
      fun old hold hagrees => ?_).of_eq hseats
    rw [hseat] at hold
    cases hold
    exact hadopt ▸ hagrees.read hreplies
  · -- the incumbent is what it was
    have hsame : search.incumbent = t.search.incumbent :=
      hadopt.trans (Incumbent.adopt_eq_self (hadopt ▸ hworse))
    unfold Agrees
    rw [haccept, hsame]
    refine (h.modify_same fun old hold hagrees => ?_).of_eq hseats
    rw [hseat] at hold
    cases hold
    have hbounded := hagrees.read hreplies
    rw [← hadopt, hsame] at hbounded
    exact ⟨hbounded, hagrees.informed⟩

/-- A worker that handles an order goes on to agree. -/
theorem Agrees.work (h : t.Agrees) (i : Nat) : (t.work solvers i).Agrees := by
  rw [Team.Agrees, (work_frame solvers t i).1]
  exact each_work solvers i h fun _ hw horders hhandle hagrees =>
    hagrees.served hw horders hhandle

omit [Scalar.Ordered α] in
/-- A manager that refuses no reply takes in the one that it reads. -/
theorem takeIn_of_not_refuses {reply : Reply α} (hnews : t.news? i = some (.reply reply, u))
    (hphase : t.phase = .waiting ∨ ∃ status, t.phase = .draining status)
    (h : t.refuses (.receive i) = false) : ∃ v, u.takeIn i reply = (.ok (), v) := by
  have hok : (u.takeIn i reply).1.isOk = true := by
    unfold refuses at h
    rcases hphase with hphase | ⟨status, hphase⟩
    · simpa [hphase, hnews] using h
    · simpa [hphase, hnews] using h
  rcases htake : u.takeIn i reply with ⟨e | _, v⟩
  · rw [htake] at hok
    cases hok
  · exact ⟨v, rfl⟩

omit [Scalar.Ordered α] in
/-- When a node is put back the workers go on to agree. -/
theorem Agrees.requeue (h : t.Agrees) (i : Nat) : (t.requeue i).Agrees := by
  obtain ⟨heach, hsame⟩ := requeue_frame (fun _ _ hseat => hseat.assign none) i h
  unfold Agrees
  rw [hsame]
  exact heach

/-- News that reach a searching manager, who refuses none, leave the workers in agreement. -/
theorem Agrees.hear (h : t.Agrees) {news : News α} (hphase : t.phase = .waiting)
    (hnews : t.news? i = some (news, u)) (hsmooth : t.refuses (.receive i) = false) :
    (u.hear i news).Agrees := by
  have hhearing := hearing u i news
  generalize u.hear i news = after at hhearing ⊢
  cases hhearing with
  | gone =>
    rw [news?_gone hnews]
    exact (each_dismiss (fun _ _ tag hseat => hseat.stop tag) .exception h).of_eq rfl
  | refused htake =>
    obtain ⟨v, hv⟩ := takeIn_of_not_refuses hnews (.inl hphase) hsmooth
    cases hv.symm.trans htake
  | taken htake => exact (h.takeIn hnews htake).of_eq rfl

/-- So do news that reach a manager who waits for late results. -/
theorem Agrees.hearLate (h : t.Agrees) {news : News α} {status : Status}
    (hphase : t.phase = .draining status) (hnews : t.news? i = some (news, u))
    (hsmooth : t.refuses (.receive i) = false) : (u.hearLate i news).Agrees := by
  cases news with
  | gone =>
    rw [news?_gone hnews]
    exact h.requeue i
  | reply reply =>
    obtain ⟨v, hv⟩ := takeIn_of_not_refuses hnews (.inr ⟨status, hphase⟩) hsmooth
    obtain ⟨_, _, r, _, _, rfl, -⟩ := takeIn_ok hv
    have hafter : u.hearLate i (.reply (.report r)) = v := congrArg Prod.snd hv
    rw [hafter]
    exact h.takeIn hnews hv

/-- The workers go on to agree, as long as the manager refuses no reply. -/
theorem Agrees.step (h : t.Agrees) {event : Event} (hsmooth : t.refuses event = false) :
    (t.step solvers event).Agrees := by
  have hstop : ∀ value (i : Nat) (seat : Seat α) tag, seat.Agrees value →
      (seat.push (.stop tag)).Agrees value := fun _ _ _ tag hseat => hseat.stop tag
  have heffect := effect_step solvers t event
  generalize t.step solvers event = after at heffect ⊢
  cases heffect with
  | nothing => exact h
  | work i => exact h.work i
  | decide =>
    obtain ⟨heach, hsame⟩ :=
      decide_frame solvers (fun _ _ node turn _ hseat => hseat.give node turn) (hstop _) h
    unfold Agrees
    rw [hsame]
    exact heach
  | tick => exact h
  | hear hphase hnews => exact h.hear hphase hnews hsmooth
  -- the drain ends with orders to stop, which say nothing about the incumbent
  | @hearLate i news u status hphase hnews =>
    obtain ⟨heach, hsearch⟩ :=
      finishDrain_frame (hstop _) status (h.hearLate hphase hnews hsmooth)
    unfold Agrees
    rw [hsearch]
    exact heach
  | deadline hphase =>
    obtain ⟨heach, hsame⟩ :=
      foldl_requeue_frame (fun _ _ hseat => hseat.assign none) (List.range t.seats.length) h
    rw [← hsame] at heach
    exact (each_dismiss (hstop _) .everythingFine heach).of_eq rfl

/-- The workers agree with the incumbent at the start. -/
theorem agrees_start {vars : List (Variable α)} {settings : Settings α} {memory : σ}
    (h : Team.start vars settings memory = .ok t) : t.Agrees := by
  have hidle := each_start h
  obtain ⟨-, search, hnew, rfl⟩ := start_ok h
  intro i seat hseat
  rw [hidle i seat hseat]
  have hvalue : search.incumbent.value ≤ search.incumbent.value := by
    rw [(Search.new_frame hnew).1]
    exact Scalar.Ordered.le_refl Scalar.Ordered.isNaN_infinity
  refine ⟨⟨fun w hw => ?_, fun c hmem => absurd hmem List.not_mem_nil⟩, fun w hw => ?_⟩
  · cases hw
    exact .inl hvalue
  · cases hw
    exact .inl hvalue

/-- The workers agree with the incumbent as long as the manager refuses no reply. -/
theorem Agrees.run (h : t.Agrees) {events : List Event} (hsmooth : t.Smooth solvers events) :
    (t.run solvers events).Agrees := by
  induction events generalizing t with
  | nil => exact h
  | cons event rest ih => exact ih (h.step hsmooth.1) hsmooth.2

/-- The cutoff of a worker is at most what it was. -/
def CutoffsFall (t u : Team σ α) : Prop :=
  u.Each fun i seat => ∀ v, seat.worker = some v → ∃ old w, t.seats[i]? = some old
    ∧ old.worker = some w ∧ v.cutoff.incumbent ≤ w.cutoff.incumbent

/-- No event makes the cutoff of a worker worse. -/
theorem CutoffsFall.step (h : CutoffsFall t u) (event : Event) :
    CutoffsFall t (u.step solvers event) := by
  have heffect := effect_step solvers u event
  generalize u.step solvers event = after at heffect ⊢
  by_cases hevent : ∀ i, event ≠ .work i
  · -- the manager does not touch the cutoffs
    exact Kept.effect ⟨fun _ _ _ hseat => hseat, fun _ _ _ hseat => hseat,
      fun _ _ _ _ hseat => hseat⟩ heffect hevent h
  · rw [not_forall_not] at hevent
    obtain ⟨i, rfl⟩ := hevent
    cases heffect with
    | nothing => exact h
    | work =>
      refine each_work solvers i h fun {_ w v _ _ reaction _} _ hw _ hhandle hfallen x hx => ?_
      obtain ⟨first, z, hfirst, hz, hle⟩ := hfallen w hw
      have hxv : x = v := by
        cases reaction with
        | answer | note => exact (Option.some.inj hx).symm
        | stopped | crashed => cases hx
      have hlower := Worker.cutoff_handle_le hhandle (Scalar.Ordered.isNaN_left_of_le hle)
      exact ⟨first, z, hfirst, hz, hxv ▸ Scalar.Ordered.le_trans hlower hle⟩

/-- No run makes the cutoff of a worker worse. -/
theorem CutoffsFall.run (h : CutoffsFall t u) (events : List Event) :
    CutoffsFall t (u.run solvers events) :=
  run_of_step (fun _ event h => h.step event) h events

/-- What agreement comes to. -/
structure Agreement (t : Team σ α) : Prop where
  /-- The cutoff of a worker is at least the least of the incumbent and of the points that it has
  found and that the manager has not read of. -/
  lower : t.Each fun _ seat => ∀ w, seat.worker = some w →
    seat.finds.foldl (fun low c => Scalar.least low c.value) t.search.incumbent.value
      ≤ w.cutoff.incumbent
  /-- Once the worker has read its orders, its cutoff is at most the incumbent. -/
  upper : t.Each fun _ seat => ∀ w, seat.worker = some w → seat.orders = [] →
    w.cutoff.incumbent ≤ t.search.incumbent.value
  /-- If moreover the manager has read its replies, the two are equal. -/
  equal : t.Each fun _ seat => ∀ w, seat.worker = some w → seat.orders = [] → seat.replies = [] →
    (w.cutoff.incumbent == t.search.incumbent.value) = true

/-- Agreement follows from the invariant. -/
theorem Agrees.agreement (h : t.Agrees) : t.Agreement := by
  have hupper : t.Each fun _ seat => ∀ w, seat.worker = some w → seat.orders = [] →
      w.cutoff.incumbent ≤ t.search.incumbent.value := by
    intro i seat hseat w hw horders
    rcases (h i seat hseat).informed w hw with hle | ⟨c, hmem, -⟩
    · exact hle
    · rw [horders] at hmem
      cases hmem
  refine ⟨fun i seat hseat w hw => ?_, hupper, fun i seat hseat w hw horders hreplies => ?_⟩
  · exact Scalar.foldl_least_le ((h i seat hseat).backed w hw)
  · refine Scalar.Ordered.beq_iff_le_ge.mpr ⟨hupper i seat hseat w hw horders, ?_⟩
    rcases (h i seat hseat).backed w hw with hle | ⟨c, hmem, -⟩
    · exact hle
    · rw [Seat.finds, hreplies] at hmem
      cases hmem

/-- As long as the manager refuses no reply, the cutoffs of the workers and the incumbent agree up
to what is on its way between them, in whatever order workers and manager handle their messages; and
whatever happens then, no cutoff rises. -/
theorem cutoff_agrees {vars : List (Variable α)} {settings : Settings α} {memory : σ}
    {start : Team σ α} {events : List Event}
    (hstart : Team.start vars settings memory = .ok start)
    (hsmooth : start.Smooth solvers events) :
    (start.run solvers events).Agreement ∧ ∀ rest,
      CutoffsFall (start.run solvers events) (start.run solvers (events ++ rest)) := by
  have hagrees := (agrees_start hstart).run hsmooth
  refine ⟨hagrees.agreement, fun rest => ?_⟩
  rw [run_append]
  refine CutoffsFall.run (fun i seat hseat w hw => ?_) rest
  exact ⟨seat, w, hseat, hw, Scalar.Ordered.le_refl ((hagrees i seat hseat).isNaN_cutoff hw)⟩

/-- The first of two workers finds a point, the manager announces it, and the second worker reads of
it. -/
def announcedEvents : List Event := [.decide, .work 0, .receive 0, .work 1]

/-- The manager refuses no reply on the way, and the second worker has nothing left to read. -/
theorem exists_announcedEvents :
    ∃ start ∈ (Team.start Async.sampleVars { Settings.standard with workers := 2 } ()).toOption,
      start.Smooth (fun _ => Async.sampleSolvers) announcedEvents
        ∧ ∃ seat ∈ (start.run (fun _ => Async.sampleSolvers) announcedEvents).seats[1]?,
          ∃ w ∈ seat.worker, seat.orders.length = 0 ∧ seat.replies.length = 0
            ∧ w.cutoff.incumbent = 1 := by
  decide +kernel

/-- The cutoffs agree with the incumbent there, and the second worker knows of the point. -/
theorem cutoff_agrees_announcedEvents :
    ∃ start, Team.start Async.sampleVars { Settings.standard with workers := 2 } () = .ok start
      ∧ (∃ seat ∈ (start.run (fun _ => Async.sampleSolvers) announcedEvents).seats[1]?,
        ∃ w ∈ seat.worker, seat.orders.length = 0 ∧ seat.replies.length = 0
          ∧ w.cutoff.incumbent = 1)
      ∧ (start.run (fun _ => Async.sampleSolvers) announcedEvents).Agreement
      ∧ ∀ rest, CutoffsFall (start.run (fun _ => Async.sampleSolvers) announcedEvents)
        (start.run (fun _ => Async.sampleSolvers) (announcedEvents ++ rest)) := by
  obtain ⟨start, hstart, hsmooth, hread⟩ := exists_eq_ok exists_announcedEvents
  exact ⟨start, hstart, hread, cutoff_agrees hstart hsmooth⟩

end Team

end BranchBound
