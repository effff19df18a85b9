import BranchBound.Proofs.Search.Requeuing
import BranchBound.Proofs.Team.Runs

/-! # Late results

When the search is over, the manager waits for the reports on the nodes that are still out. A report
that comes in late is taken in, and the node of a worker that fails, is gone or does not answer in
time is put back; from then on the bound of the search includes its score. Only the node of a worker
whose report is refused is lost: it is no longer out, and neither taken in nor put back.

* **`Team.Accounted t lost`** — the search waits for the nodes that are out and for the lost ones.
* **`Team.Fate`** — what becomes of a node that is out, in one event.
* **`Team.Resolved`** — what has become of it after some events.
* **`Team.resolved_of_ended`** — what has become of every node that was out, when the manager is
  done.
* **`Team.lost_mistakenEvents`** — a node that is lost. -/

namespace BranchBound.Team

variable {σ α : Type} [Scalar α] {solvers : Nat → Solvers σ α} {t u : Team σ α} {i : Nat}
  {lost : List (Node α)} {event : Event}

/-! ## Reading a reply -/

omit [Scalar α] in
/-- Reading the news of a worker changes neither the search nor what nodes are out. -/
theorem news?_frame {news : News α} (h : t.news? i = some (news, u)) :
    ∃ seat a, t.seats[i]? = some seat ∧ seat.out = some a ∧ u.search = t.search
      ∧ u.outNodes = t.outNodes
      ∧ ∃ read, u.seats[i]? = some read ∧ read.out = some a := by
  obtain ⟨seat, hseat, hout, hcases⟩ := news?_eq_some h
  obtain ⟨a, ha⟩ := Option.isSome_iff_exists.mp hout
  refine ⟨seat, a, hseat, ha, ?_⟩
  rcases hcases with ⟨reply, rest, -, -, rfl⟩ | ⟨-, -, rfl⟩
  · exact ⟨rfl, outNodes_modifySeat fun _ _ => rfl, _, getElem?_modifySeat_self hseat, ha⟩
  · exact ⟨rfl, rfl, seat, hseat, ha⟩

/-- A worker whose report was read is on no node any more. The report is passed on to the search if
it is on that node. -/
theorem takeIn_report (t : Team σ α) (i : Nat) (r : Report α) :
    (t.takeIn i (.report r)).2.outNodes = (t.release i).outNodes
      ∧ (t.takeIn i (.report r)).2.search =
        if (t.seats[i]?.bind (·.out)).map (·.node.id) = some r.node.id then (t.search.apply r).2
        else t.search := by
  have htaking := taking t i (.report r)
  generalize t.takeIn i (.report r) = result at htaking ⊢
  cases htaking with
  | mistaken hexpected hid =>
    rw [if_neg (hexpected ▸ hid)]
    exact ⟨rfl, rfl⟩
  | refused hid | accepted hid =>
    rw [if_pos hid]
    exact ⟨rfl, rfl⟩
  | better hid =>
    obtain ⟨hsearch, hout, -⟩ := announce_same (t.accept i r)
    rw [if_pos hid, hout, hsearch]
    exact ⟨rfl, rfl⟩

/-- Putting nodes back changes nothing in the number of workers. -/
theorem length_foldl_requeue (is : List Nat) (t : Team σ α) :
    (is.foldl Team.requeue t).seats.length = t.seats.length := by
  induction is generalizing t with
  | nil => rfl
  | cons i rest ih =>
    refine (ih (t.requeue i)).trans ?_
    have hrequeuing := requeuing t i
    generalize t.requeue i = after at hrequeuing ⊢
    cases hrequeuing with
    | idle => rfl
    | refused | putBack => exact length_modifySeat

/-! ## The nodes that the search waits for -/

/-- The search waits for the nodes that are out and for the lost ones, and all of them have bounds
for all variables. -/
structure Accounted (t : Team σ α) (lost : List (Node α)) : Prop where
  /-- The search waits for these nodes. -/
  tracks : t.search.Tracks (t.outNodes ++ lost)
  /-- They have bounds for all variables. -/
  fitted : t.search.Fitted (t.outNodes ++ lost)

/-- What does not concern the search and the nodes that are out does not matter. -/
theorem Accounted.of_eq (h : t.Accounted lost) (hsearch : u.search = t.search)
    (hout : u.outNodes = t.outNodes) : u.Accounted lost := by
  refine ⟨?_, ?_⟩ <;> rw [hsearch, hout]
  · exact h.tracks
  · exact h.fitted

/-- The order of the nodes does not matter. -/
theorem Accounted.perm {search : Search α} {nodes : List (Node α)} (htracks : search.Tracks nodes)
    (hfitted : search.Fitted nodes) (hsearch : u.search = search)
    (hperm : nodes.Perm (u.outNodes ++ lost)) : u.Accounted lost := by
  refine ⟨?_, ?_⟩ <;> rw [hsearch]
  · exact htracks.perm hperm
  · exact hfitted.subset fun n hn => hperm.symm.subset hn

variable [Scalar.Ordered α]

/-- Handing out nodes, if it does not fail. -/
theorem Accounted.dispatchTo (is : List Nat) (h : t.Accounted [])
    (hdispatch : Team.dispatchTo is t = (.ok (), u)) : u.Accounted [] := by
  -- the node that goes out leaves the frontier, so the two together stay what they were
  induction is generalizing t with
  | nil =>
    cases hdispatch
    exact h
  | cons i rest ih =>
    have hcases := handing i rest t
    generalize Team.dispatchTo (i :: rest) t = result at hdispatch hcases
    cases hcases with
    | busy => exact ih h hdispatch
    | exhausted =>
      cases hdispatch
      exact h
    | failed | gone => cases hdispatch
    | @given _ node search hopen hnext hseat hout =>
      obtain ⟨n, other, htaken, htracks⟩ := h.tracks.next hopen
      cases hnext.symm.trans htaken
      have hfitted := h.fitted.next h.tracks.consistent hnext
      have hperm := perm_outNodes_give (t := { t with search }) hseat hout node
      refine ih (t := ({ t with search } : Team σ α).give i node) ?_ hdispatch
      refine .perm htracks hfitted rfl ?_
      rw [List.append_nil]
      exact (List.append_nil _).symm ▸ hperm.symm

omit [Scalar.Ordered α] in
/-- The node of a worker, put in front of those that the search waits for. -/
theorem Accounted.release {seat : Seat α} {a : Assignment α} (h : t.Accounted lost)
    (hseat : t.seats[i]? = some seat) (hout : seat.out = some a) :
    t.search.Tracks (a.node :: ((t.release i).outNodes ++ lost))
      ∧ t.search.Fitted (a.node :: ((t.release i).outNodes ++ lost)) := by
  have hperm := (perm_outNodes_release hseat hout).append_right lost
  exact ⟨h.tracks.perm hperm, h.fitted.subset fun n hn => hperm.symm.subset hn⟩

/-- A report is read. If it is on the node of its worker, the search takes it in or refuses it, and
does not wait for the node any more. Otherwise the node is lost. -/
theorem Accounted.takeIn {seat : Seat α} {a : Assignment α} (h : t.Accounted lost)
    (hseat : t.seats[i]? = some seat) (hout : seat.out = some a) (r : Report α)
    (hids : 2 * (t.takeIn i (.report r)).2.search.stats.processed + 1 < wordRange) :
    (r.node.id = a.node.id ∧ (t.takeIn i (.report r)).2.search = (t.search.apply r).2
        ∧ (t.takeIn i (.report r)).2.Accounted lost)
      ∨ r.node.id ≠ a.node.id ∧ (t.takeIn i (.report r)).2.search = t.search
        ∧ (t.takeIn i (.report r)).2.Accounted (a.node :: lost) := by
  obtain ⟨htracks, hfitted⟩ := h.release hseat hout
  obtain ⟨hnodes, hsearch⟩ := takeIn_report t i r
  have hexpected : (t.seats[i]?.bind (·.out)).map (·.node.id) = some a.node.id := by
    rw [hseat, Option.bind_some, hout, Option.map_some]
  rw [hexpected] at hsearch
  -- only a report on the node that is out reaches the search
  by_cases hid : r.node.id = a.node.id
  · rw [if_pos (by rw [hid])] at hsearch
    refine .inl ⟨hid, hsearch, .perm ?_ ?_ hsearch (by rw [hnodes])⟩
    · rw [hsearch] at hids
      rcases happly : t.search.apply r with ⟨e | stage, search⟩
      · exact (htracks.apply_error hid happly).1
      · rw [happly] at hids
        exact htracks.apply hid happly hids
    · exact (hfitted.apply htracks.consistent r).subset fun n hn => List.mem_cons_of_mem _ hn
  · rw [if_neg fun heq => hid (Option.some.inj heq).symm] at hsearch
    refine .inr ⟨hid, hsearch, .perm htracks hfitted hsearch ?_⟩
    rw [hnodes]
    exact List.perm_middle.symm

/-! ## Nodes are put back -/

/-- From one state of a team to another nodes that were out were put back, and nothing else. -/
structure PutsBack (t u : Team σ α) : Prop where
  /-- The bound did not rise. -/
  lowers : t.search.Lowers u.search
  /-- The search has the nodes that it had. -/
  has : ∀ n, t.search.Has n → u.search.Has n
  /-- It has those that are out no more. -/
  out : ∀ n ∈ t.outNodes, n ∈ u.outNodes ∨ u.search.Has n

omit [Scalar.Ordered α] in
/-- Nothing is put back from a state to itself. -/
theorem PutsBack.refl (t : Team σ α) : t.PutsBack t :=
  ⟨.refl _, fun _ hn => hn, fun _ hn => .inl hn⟩

omit [Scalar.Ordered α] in
/-- Nodes are put back one after the other. -/
theorem PutsBack.trans {v : Team σ α} (h : t.PutsBack u) (k : u.PutsBack v) : t.PutsBack v where
  lowers := h.lowers.trans k.lowers
  has n hn := k.has n (h.has n hn)
  out n hn := (h.out n hn).elim (k.out n) fun hhas => .inr (k.has n hhas)

/-- The node of a worker is put back, if the worker is on one. -/
theorem Accounted.requeue (h : t.Accounted lost) (i : Nat) :
    (t.requeue i).Accounted lost ∧ t.PutsBack (t.requeue i)
      ∧ (t.requeue i).Each fun j seat => j = i → seat.out = none := by
  have hidle : (t.release i).Each fun j seat => j = i → seat.out = none :=
    Each.modify (P := fun _ _ => True) (fun _ _ _ => trivial)
      (fun _ _ hij _ heq => absurd heq.symm hij) fun _ _ _ _ => rfl
  have hrequeuing := requeuing t i
  generalize t.requeue i = after at hrequeuing ⊢
  cases hrequeuing with
  | idle hassigned =>
    refine ⟨h, .refl t, fun j seat hseat hij => ?_⟩
    subst hij
    rw [hseat, Option.bind_some] at hassigned
    exact hassigned
  | refused hseat hout hcancel =>
    -- the search waits for the nodes that are out
    obtain ⟨htracks, hfitted⟩ := h.release hseat hout
    have hwaited := (htracks.requeue_eq hfitted).1
    rw [hcancel] at hwaited
    cases hwaited
  | @putBack seat a b hseat hout hcancel =>
    obtain ⟨htracks, hfitted⟩ := h.release hseat hout
    obtain ⟨hafter, hfits, hhas⟩ := htracks.requeue hfitted
    have hlowers := Search.lowers_requeue htracks.consistent a.node
    rw [← Search.requeue_of_cancel hcancel]
    refine ⟨.perm hafter hfits rfl (.refl _),
      ⟨hlowers, fun m => htracks.has_requeue hfitted, fun n hn => ?_⟩, hidle.of_eq rfl⟩
    rcases List.mem_cons.mp ((perm_outNodes_release hseat hout).subset hn) with rfl | hn
    · exact .inr hhas
    · exact .inl hn

/-- The nodes of some workers are put back. -/
theorem Accounted.foldl_requeue (is : List Nat) (h : t.Accounted lost) :
    (is.foldl Team.requeue t).Accounted lost ∧ t.PutsBack (is.foldl Team.requeue t)
      ∧ (is.foldl Team.requeue t).Each fun j seat => j ∈ is → seat.out = none := by
  induction is generalizing t with
  | nil => exact ⟨h, .refl t, fun _ _ _ hmem => absurd hmem List.not_mem_nil⟩
  | cons i rest ih =>
    obtain ⟨hone, hback, hidle⟩ := h.requeue i
    obtain ⟨hrest, hlater, hothers⟩ := ih hone
    refine ⟨hrest, hback.trans hlater, fun j seat hseat hj => ?_⟩
    rcases List.mem_cons.mp hj with rfl | hj
    · exact (foldl_requeue_frame (fun _ _ _ _ => rfl) rest hidle).1 j seat hseat rfl
    · exact hothers j seat hseat hj

/-! ## One event -/

omit [Scalar α] [Scalar.Ordered α] in
/-- Telling the workers to stop is no business of the nodes that are out. -/
theorem outNodes_dismiss (t : Team σ α) (tag : Tag) : (t.dismiss tag).outNodes = t.outNodes := by
  rw [outNodes_eq, outNodes_eq]
  show (t.seats.map _).filterMap Seat.node? = _
  rw [List.filterMap_map]
  refine List.filterMap_congr fun seat _ => ?_
  show Seat.node? (if seat.worker.isSome then _ else seat) = seat.node?
  split <;> rfl

omit [Scalar α] [Scalar.Ordered α] in
/-- Whether the wait for late results is over is no business of the nodes that are out. -/
theorem outNodes_finishDrain (t : Team σ α) (status : Status) :
    (t.finishDrain status).outNodes = t.outNodes := by
  rcases finishDrain_cases t status with ⟨-, heq⟩ | ⟨-, heq⟩
  · rw [heq]
    exact outNodes_dismiss t .everythingFine
  · rw [heq]
    rfl

/-- The event makes the manager read a report of the worker that is on the node. -/
def Reads (t : Team σ α) (event : Event) (n : Node α) (r : Report α) : Prop :=
  ∃ i u seat a, event = .receive i ∧ t.news? i = some (.reply (.report r), u)
    ∧ t.seats[i]? = some seat ∧ seat.out = some a ∧ a.node = n

/-- What becomes, in one event, of a node that is out. -/
inductive Fate (t : Team σ α) (event : Event) (u : Team σ α) (n : Node α) : Prop
  /-- It is out still. -/
  | out (h : n ∈ u.outNodes)
  /-- The report on it was taken in. -/
  | applied {r : Report α} {stage : Stage} (hreads : t.Reads event n r) (hid : r.node.id = n.id)
      (happly : t.search.apply r = (.ok stage, u.search))
  /-- It was put back as it was handed out. -/
  | putBack (h : u.search.Has n)
  /-- The report on it was not valid. -/
  | rejected {r : Report α} {e : Error α} (hreads : t.Reads event n r) (hid : r.node.id = n.id)
      (happly : t.search.apply r = (.error e, u.search))
  /-- The report of its worker was on another node. -/
  | mistaken {r : Report α} (hreads : t.Reads event n r) (hid : r.node.id ≠ n.id)

/-- Where a search stands: it goes on, and waits for the nodes that are out; it is over, and waits
for the lost ones as well; it has ended, and none is out; or it has failed. -/
inductive Stands (lost : List (Node α)) (t : Team σ α) : Prop
  /-- It goes on. -/
  | searching (h : t.Searching) (haccounted : t.Accounted []) (hnone : lost = [])
  /-- It is over. -/
  | draining {status : Status} (h : t.phase = .draining status) (haccounted : t.Accounted lost)
  /-- It has ended. -/
  | ended {status : Status} {termination : Termination}
      (h : t.phase = .ended (.ok status) termination) (haccounted : t.Accounted lost)
      (hnone : t.outNodes = [])
  /-- It has failed. -/
  | failed {e : Error α} {termination : Termination} (h : t.phase = .ended (.error e) termination)

omit [Scalar.Ordered α] in
/-- A search that goes on waits for the nodes that are out, and no node is lost. -/
theorem Stands.of_searching (h : t.Stands lost) (hsearching : t.Searching) :
    t.Accounted [] ∧ lost = [] := by
  rw [searching_iff] at hsearching
  cases h with
  | searching _ haccounted hnone => exact ⟨haccounted, hnone⟩
  | draining h | ended h | failed h => simp [h] at hsearching

omit [Scalar.Ordered α] in
/-- A search that is over waits for the lost nodes as well. -/
theorem Stands.of_draining {status : Status} (h : t.Stands lost)
    (hphase : t.phase = .draining status) : t.Accounted lost := by
  cases h with
  | searching h => simp [searching_iff, hphase] at h
  | draining _ haccounted => exact haccounted
  | ended h => cases hphase.symm.trans h
  | failed h => cases hphase.symm.trans h

omit [Scalar.Ordered α] in
/-- The search is over, and has ended if no node is out. -/
theorem Accounted.finishDrain (h : t.Accounted lost) (status : Status) :
    (t.finishDrain status).Stands lost := by
  have hout := outNodes_finishDrain t status
  have haccounted := h.of_eq (search_finishDrain t status) hout
  rcases finishDrain_cases t status with ⟨hempty, heq⟩ | ⟨-, heq⟩
  · rw [heq] at haccounted hout ⊢
    exact .ended rfl haccounted (hout.trans (List.isEmpty_iff.mp hempty))
  · rw [heq] at haccounted ⊢
    exact .draining rfl haccounted

omit [Scalar.Ordered α] in
/-- A worker that handles an order changes nothing here. -/
theorem Stands.work (h : t.Stands lost) (i : Nat) : (t.work solvers i).Stands lost := by
  obtain ⟨hsearch, hphase, hout, -⟩ := work_frame solvers t i
  cases h with
  | searching h haccounted hnone =>
    refine .searching ?_ (haccounted.of_eq hsearch hout) hnone
    rw [Searching, hphase]
    exact h
  | draining h haccounted => exact .draining (hphase.trans h) (haccounted.of_eq hsearch hout)
  | ended h haccounted hnone =>
    exact .ended (hphase.trans h) (haccounted.of_eq hsearch hout) (hout.trans hnone)
  | failed h => exact .failed (hphase.trans h)

/-- The manager looks at a search that goes on. -/
theorem Accounted.decide (h : t.Accounted []) : (t.decide solvers).Stands [] := by
  have hnow : (t.atTime solvers).Accounted [] :=
    ⟨h.tracks.atTime _, h.fitted⟩
  rcases decide_cases solvers t with ⟨status, -, heq⟩ | ⟨-, ⟨e, u, -, heq⟩ | ⟨u, hu, heq⟩⟩
  · rw [heq]
    exact hnow.finishDrain status
  · rw [heq]
    exact .failed rfl
  · rw [heq]
    refine .searching ?_ ((hnow.dispatchTo _ hu).of_eq rfl rfl) rfl
    unfold Searching
    dsimp only
    split <;> rfl

/-- News reach a manager whose search goes on. -/
theorem Accounted.hear (h : t.Accounted []) {news : News α} (hnews : t.news? i = some (news, u))
    (hids : 2 * (u.hear i news).search.stats.processed + 1 < wordRange) :
    (u.hear i news).Stands [] := by
  obtain ⟨-, -, -, -, hsearch, hnodes, seat, hseat, -⟩ := news?_frame hnews
  have hread := h.of_eq hsearch hnodes
  have hhearing := hearing u i news
  generalize u.hear i news = after at hhearing hids ⊢
  cases hhearing with
  | gone | refused => exact .failed rfl
  | taken htake =>
    obtain ⟨held, a, r, -, -, rfl, hheld, hout, hid, -⟩ := takeIn_ok htake
    have htaken := hread.takeIn hheld hout r (by rw [htake]; exact hids)
    rw [htake] at htaken
    rcases htaken with ⟨-, -, haccounted⟩ | ⟨hwrong, -⟩
    · exact .searching rfl (haccounted.of_eq rfl rfl) rfl
    · exact absurd hid hwrong

/-- What a late event does, given the nodes that are lost before and after it. -/
structure Late (lost lostAfter : List (Node α)) (t : Team σ α) (event : Event) (u : Team σ α) :
    Prop where
  /-- The bound does not rise. -/
  lowers : t.search.Lowers u.search
  /-- The nodes that are out meet one of these fates. -/
  fate : ∀ n ∈ t.outNodes, Fate t event u n
  /-- A node is lost if the report of its worker is on another one. -/
  lost : ∀ n ∈ lostAfter, n ∈ lost ∨ ∃ r, t.Reads event n r ∧ r.node.id ≠ n.id

omit [Scalar.Ordered α] in
/-- Nothing happens to the search and the nodes that are out. -/
theorem Late.of_eq (hsearch : u.search = t.search) (hout : u.outNodes = t.outNodes) :
    Late lost lost t event u :=
  ⟨hsearch ▸ .refl _, fun _ hn => .out (hout ▸ hn), fun _ hn => .inl hn⟩

omit [Scalar.Ordered α] in
/-- Nodes are put back. -/
theorem PutsBack.late (h : t.PutsBack u) : Late lost lost t event u :=
  ⟨h.lowers, fun n hn => (h.out n hn).elim .out .putBack, fun _ hn => .inl hn⟩

omit [Scalar.Ordered α] in
/-- What a late event does depends on the search and the nodes that are out. -/
theorem Late.congr {lostAfter : List (Node α)} {v : Team σ α} (h : Late lost lostAfter t event u)
    (hsearch : v.search = u.search) (hout : v.outNodes = u.outNodes) :
    Late lost lostAfter t event v where
  lowers := hsearch ▸ h.lowers
  fate n hn := by
    cases h.fate n hn with
    | out h => exact .out (hout ▸ h)
    | applied hreads hid happly => exact .applied hreads hid (hsearch ▸ happly)
    | putBack h => exact .putBack (hsearch ▸ h)
    | rejected hreads hid happly => exact .rejected hreads hid (hsearch ▸ happly)
    | mistaken hreads hid => exact .mistaken hreads hid
  lost := h.lost

/-- A report comes in late. -/
theorem Accounted.readLate (h : t.Accounted lost) {r : Report α}
    (hnews : t.news? i = some (.reply (.report r), u))
    (hids : 2 * (u.takeIn i (.report r)).2.search.stats.processed + 1 < wordRange) :
    ∃ lostAfter, (u.takeIn i (.report r)).2.Accounted lostAfter
      ∧ Late lost lostAfter t (.receive i) (u.takeIn i (.report r)).2 := by
  obtain ⟨seat, a, hseat, hout, hsearch, hnodes, read, hread, hreadOut⟩ := news?_frame hnews
  have hreads : t.Reads (.receive i) a.node r := ⟨i, u, seat, a, rfl, hnews, hseat, hout, rfl⟩
  -- the nodes of the other workers are out still
  have hothers : ∀ n ∈ t.outNodes, n = a.node ∨ n ∈ (u.takeIn i (.report r)).2.outNodes := by
    intro n hn
    rw [(takeIn_report u i r).1]
    rw [← hnodes] at hn
    exact List.mem_cons.mp ((perm_outNodes_release hread hreadOut).subset hn)
  rcases (h.of_eq hsearch hnodes).takeIn hread hreadOut r hids
    with ⟨hid, hafter, haccounted⟩ | ⟨hid, hafter, haccounted⟩
  · rw [hsearch] at hafter
    refine ⟨lost, haccounted, ?_, fun n hn => ?_, fun n hn => .inl hn⟩
    · rw [hafter]
      exact Search.lowers_apply h.tracks.consistent r
    · rcases hothers n hn with rfl | hstill
      · rcases happly : t.search.apply r with ⟨answer, search⟩
        obtain rfl : (u.takeIn i (.report r)).2.search = search := by rw [hafter, happly]
        cases answer with
        | error e => exact .rejected hreads hid happly
        | ok stage => exact .applied hreads hid happly
      · exact .out hstill
  · -- the id check fails, and nothing puts the node back
    rw [hsearch] at hafter
    refine ⟨a.node :: lost, haccounted, ?_, fun n hn => ?_, fun n hn => ?_⟩
    · rw [hafter]
      exact .refl _
    · rcases hothers n hn with rfl | hstill
      · exact .mistaken hreads hid
      · exact .out hstill
    · rcases List.mem_cons.mp hn with rfl | hold
      · exact .inr ⟨r, hreads, hid⟩
      · exact .inl hold

/-- News reach a manager that waits for late results. -/
theorem Accounted.hearLate (h : t.Accounted lost) {news : News α}
    (hnews : t.news? i = some (news, u))
    (hids : 2 * (u.hearLate i news).search.stats.processed + 1 < wordRange) :
    ∃ lostAfter, (u.hearLate i news).Accounted lostAfter
      ∧ Late lost lostAfter t (.receive i) (u.hearLate i news) := by
  obtain ⟨-, -, -, -, hsearch, hnodes, -⟩ := news?_frame hnews
  have hrequeue : (u.requeue i).Accounted lost ∧ Late lost lost t (.receive i) (u.requeue i) := by
    obtain ⟨haccounted, hback, -⟩ := (h.of_eq hsearch hnodes).requeue i
    exact ⟨haccounted, PutsBack.late
      ⟨hsearch ▸ hback.lowers, hsearch ▸ hback.has, hnodes ▸ hback.out⟩⟩
  cases news with
  | gone => exact ⟨lost, hrequeue⟩
  | reply reply =>
    cases reply with
    | failed text => exact ⟨lost, hrequeue⟩
    | report r => exact h.readLate hnews hids

/-- An event leads to such a team, and what it does once the search is over is known. -/
theorem Stands.step (h : t.Stands lost) (event : Event)
    (hids : 2 * (t.step solvers event).search.stats.processed + 1 < wordRange) :
    ∃ lostAfter, (t.step solvers event).Stands lostAfter
      ∧ (∀ n ∈ lostAfter, n ∈ lost ∨ ∃ r, t.Reads event n r ∧ r.node.id ≠ n.id)
      ∧ (¬ t.Searching → Late lost lostAfter t event (t.step solvers event)) := by
  have heffect := effect_step solvers t event
  generalize t.step solvers event = after at heffect hids ⊢
  have hsame : ∀ u : Team σ α, u.Stands lost → u.search = t.search → u.outNodes = t.outNodes →
      ∃ lostAfter, u.Stands lostAfter
        ∧ (∀ n ∈ lostAfter, n ∈ lost ∨ ∃ r, t.Reads event n r ∧ r.node.id ≠ n.id)
        ∧ (¬ t.Searching → Late lost lostAfter t event u) :=
    fun u hu hsearch hout => ⟨lost, hu, fun _ hn => .inl hn, fun _ => .of_eq hsearch hout⟩
  cases heffect with
  | nothing => exact hsame t h rfl rfl
  | work i =>
    obtain ⟨hsearch, -, hout, -⟩ := work_frame solvers t i
    exact hsame _ (h.work i) hsearch hout
  | decide hphase =>
    have hsearching := searching_iff.mpr (.inl hphase)
    obtain ⟨haccounted, rfl⟩ := h.of_searching hsearching
    exact ⟨[], haccounted.decide, fun _ hn => absurd hn List.not_mem_nil,
      fun hover => absurd hsearching hover⟩
  | tick hphase =>
    obtain ⟨haccounted, hnone⟩ := h.of_searching (searching_iff.mpr (.inr hphase))
    exact hsame _ (.searching rfl (haccounted.of_eq rfl rfl) hnone) rfl rfl
  | hear hphase hnews =>
    have hsearching := searching_iff.mpr (.inr hphase)
    obtain ⟨haccounted, rfl⟩ := h.of_searching hsearching
    exact ⟨[], haccounted.hear hnews hids, fun _ hn => absurd hn List.not_mem_nil,
      fun hover => absurd hsearching hover⟩
  | @hearLate i news u status hphase hnews =>
    rw [search_finishDrain] at hids
    obtain ⟨lostAfter, hafter, hlate⟩ := (h.of_draining hphase).hearLate hnews hids
    exact ⟨lostAfter, hafter.finishDrain status, hlate.lost,
      fun _ => hlate.congr (search_finishDrain _ _) (outNodes_finishDrain _ _)⟩
  | deadline hphase =>
    obtain ⟨hafter, hback, hidle⟩ :=
      (h.of_draining hphase).foldl_requeue (List.range t.seats.length)
    have hlength := length_foldl_requeue (List.range t.seats.length) t
    generalize (List.range t.seats.length).foldl Team.requeue t = u at hafter hback hidle hlength
    -- every worker that was on a node is on none now
    have hnone : u.outNodes = [] := outNodes_eq_nil.mpr fun j seat hseat => by
      refine hidle j seat hseat (List.mem_range.mpr ?_)
      rw [← hlength]
      exact (List.getElem?_eq_some_iff.mp hseat).1
    have hdismissed := outNodes_dismiss u .everythingFine
    exact ⟨lost, .ended rfl (hafter.of_eq rfl hdismissed) (hdismissed.trans hnone),
      fun _ hn => .inl hn, fun _ => hback.late.congr rfl hdismissed⟩

/-! ## Runs -/

/-- In the course of the events the manager reads a report of the worker that is on the node, and
the report is on another node. -/
def Mistaken (solvers : Nat → Solvers σ α) (t : Team σ α) (events : List Event) (n : Node α) :
    Prop :=
  ∃ first event rest r, events = first ++ event :: rest ∧ (t.run solvers first).Reads event n r
    ∧ r.node.id ≠ n.id

omit [Scalar.Ordered α] in
/-- What happens in the course of later events happens in the course of all. -/
theorem Mistaken.cons {rest : List Event} {n : Node α}
    (h : (t.step solvers event).Mistaken solvers rest n) :
    t.Mistaken solvers (event :: rest) n := by
  obtain ⟨first, later, last, r, rfl, hreads, hid⟩ := h
  exact ⟨event :: first, later, last, r, rfl, hreads, hid⟩

/-- What has become of a node in the course of some events. -/
inductive Resolved (solvers : Nat → Solvers σ α) (t : Team σ α) (events : List Event) (n : Node α) :
    Prop
  /-- The report on it was taken in. -/
  | applied {first rest : List Event} {event : Event} {r : Report α} {stage : Stage}
      {search : Search α} (hevents : events = first ++ event :: rest)
      (hreads : (t.run solvers first).Reads event n r) (hid : r.node.id = n.id)
      (happly : (t.run solvers first).search.apply r = (.ok stage, search))
  /-- It was put back as it was handed out, and the bound includes its score. -/
  | putBack {first rest : List Event} (hevents : events = first ++ rest)
      (hhas : (t.run solvers first).search.Has n)
      (hbound : Scalar.isNaN n.score = false →
        ∀ outLowest, (t.run solvers events).search.provenBound outLowest ≤ n.score)
  /-- The report on it was not valid. -/
  | rejected {first rest : List Event} {event : Event} {r : Report α} {e : Error α}
      {search : Search α} (hevents : events = first ++ event :: rest)
      (hreads : (t.run solvers first).Reads event n r) (hid : r.node.id = n.id)
      (happly : (t.run solvers first).search.apply r = (.error e, search))
  /-- The report of its worker was on another node. -/
  | mistaken (h : t.Mistaken solvers events n)

omit [Scalar.Ordered α] in
/-- What has become of a node by later events has become of it by all. -/
theorem Resolved.cons {rest : List Event} {n : Node α}
    (h : (t.step solvers event).Resolved solvers rest n) :
    t.Resolved solvers (event :: rest) n := by
  have hcons : ∀ {first last : List Event}, rest = first ++ last →
      event :: rest = (event :: first) ++ last := congrArg (event :: ·)
  cases h with
  | applied hevents hreads hid happly => exact .applied (hcons hevents) hreads hid happly
  | putBack hevents hhas hbound => exact .putBack (hcons hevents) hhas hbound
  | rejected hevents hreads hid happly => exact .rejected (hcons hevents) hreads hid happly
  | mistaken h => exact .mistaken h.cons

/-- The search is at its start. -/
theorem stands_start {vars : List (Variable α)} {settings : Settings α} {memory : σ}
    (h : Team.start vars settings memory = .ok t) : t.Stands [] := by
  have hidle := each_start h
  obtain ⟨-, search, hnew, rfl⟩ := start_ok h
  refine .searching rfl ?_ rfl
  refine .perm (.new hnew) (.new hnew) rfl ?_
  rw [outNodes_eq_nil.mpr fun i seat hseat => by rw [hidle i seat hseat]]
  exact .refl _

/-- A run leads to such a team, and the nodes that are lost are those of workers whose report was on
another node. -/
theorem Stands.run (h : t.Stands lost) {events : List Event}
    (hids : 2 * (t.run solvers events).search.stats.processed + 1 < wordRange) :
    ∃ lostAfter, (t.run solvers events).Stands lostAfter
      ∧ ∀ n ∈ lostAfter, n ∈ lost ∨ t.Mistaken solvers events n := by
  induction events generalizing t lost with
  | nil => exact ⟨lost, h, fun _ hn => .inl hn⟩
  | cons event rest ih =>
    rw [run_cons] at hids ⊢
    have hlater := (later_run solvers (t.step solvers event) rest).1
    -- the bound on the last count bounds the counts before it, which never fall
    have hnext : 2 * (t.step solvers event).search.stats.processed + 1 < wordRange := by omega
    obtain ⟨between, hstands, hlost, -⟩ := h.step event hnext
    obtain ⟨last, hlast, hrest⟩ := ih hstands hids
    refine ⟨last, hlast, fun n hn => ?_⟩
    rcases hrest n hn with hn | hmistaken
    · rcases hlost n hn with hold | ⟨r, hreads, hid⟩
      · exact .inl hold
      · exact .inr ⟨[], event, rest, r, rfl, hreads, hid⟩
    · exact .inr hmistaken.cons

/-- Once a search is over the bound does not rise, and every node that was out is so still or was
resolved. -/
theorem Stands.resolved (h : t.Stands lost) (hover : ¬ t.Searching) {events : List Event}
    (hids : 2 * (t.run solvers events).search.stats.processed + 1 < wordRange) :
    t.search.Lowers (t.run solvers events).search
      ∧ ∀ n ∈ t.outNodes, n ∈ (t.run solvers events).outNodes ∨ t.Resolved solvers events n := by
  induction events generalizing t lost with
  | nil => exact ⟨.refl _, fun _ hn => .inl hn⟩
  | cons event rest ih =>
    rw [run_cons] at hids ⊢
    -- once the search is over nothing is handed out, so that its bound can only fall
    have hlater := (later_run solvers (t.step solvers event) rest).1
    have hnext : 2 * (t.step solvers event).search.stats.processed + 1 < wordRange := by omega
    obtain ⟨between, hstands, -, hlate⟩ := h.step event hnext
    have hlate := hlate hover
    obtain ⟨hlowers, hrest⟩ := ih hstands (mt searching_of_step hover) hids
    refine ⟨hlate.lowers.trans hlowers, fun n hn => ?_⟩
    have hevents : event :: rest = [] ++ event :: rest := rfl
    cases hlate.fate n hn with
    | out h => exact (hrest n h).imp_right Resolved.cons
    | applied hreads hid happly => exact .inr (.applied hevents hreads hid happly)
    | putBack h =>
      exact .inr (.putBack (show event :: rest = [event] ++ rest from rfl) h
        fun hdef outLowest => hlowers _ _ (h.bound_le hdef outLowest))
    | rejected hreads hid happly => exact .inr (.rejected hevents hreads hid happly)
    | mistaken hreads hid => exact .inr (.mistaken ⟨[], event, rest, _, rfl, hreads, hid⟩)

/-- When the manager is done, no node is out, and every node that was out when the search was over
was resolved. The search waits for no node but for those of workers whose report was on another
one. -/
theorem resolved_of_ended {vars : List (Variable α)} {settings : Settings α} {memory : σ}
    {start : Team σ α} {before events : List Event} {status : Status} {termination : Termination}
    (hstart : Team.start vars settings memory = .ok start)
    (hover : ¬ (start.run solvers before).Searching)
    (hended : (start.run solvers (before ++ events)).phase = .ended (.ok status) termination)
    (hids : 2 * (start.run solvers (before ++ events)).search.stats.processed + 1 < wordRange) :
    (start.run solvers (before ++ events)).outNodes = []
      ∧ (∀ n ∈ (start.run solvers before).outNodes,
        (start.run solvers before).Resolved solvers events n)
      ∧ ∀ id ∈ (start.run solvers (before ++ events)).search.brancher.waiting.ids,
        ∃ n, n.id = id ∧ start.Mistaken solvers (before ++ events) n := by
  obtain ⟨lost, hlast, hlost⟩ := (stands_start hstart).run hids
  have hlater := (later_run solvers (start.run solvers before) events).1
  rw [← run_append] at hlater
  have hfirst : 2 * (start.run solvers before).search.stats.processed + 1 < wordRange := by omega
  obtain ⟨_, hbefore, -⟩ := (stands_start hstart).run hfirst
  -- a phase that is ended leaves a single way for the team to stand
  cases hlast with
  | searching h =>
    rw [searching_iff, hended] at h
    simp at h
  | draining h => cases hended.symm.trans h
  | failed h => cases hended.symm.trans h
  | ended _ haccounted hnone =>
    refine ⟨hnone, fun n hn => ?_, fun id hid => ?_⟩
    · rw [run_append] at hids hnone
      refine ((hbefore.resolved hover hids).2 n hn).resolve_left fun hstill => ?_
      rw [hnone] at hstill
      cases hstill
    · have hwaiting := haccounted.tracks.waiting.subset hid
      rw [hnone, List.nil_append] at hwaiting
      obtain ⟨n, hn, rfl⟩ := List.mem_map.mp hwaiting
      exact ⟨n, rfl, (hlost n hn).resolve_left List.not_mem_nil⟩

/-- Solvers that bound the root by minus one and every other node by one, always find the point one,
and give the node with the id two another id. -/
def mistakenSolvers : Solvers Unit (Extended ℚ) where
  preprocess n _ := pure (false, if n.id = 2 then { n with id := 7 } else n)
  lower n _ := pure (.ofBound (if n.id = 0 then -1 else 1) [])
  upper _ _ incumbent := pure (.ofPoint 1 [1] incumbent)

/-- The search is over when one of two nodes has come back. The report on the other one, whose score
is minus one, comes in late. -/
def mistakenEvents : List Event :=
  [.decide, .work 0, .receive 0, .decide, .work 0, .work 0, .receive 0, .decide, .work 1, .work 1,
    .receive 1]

/-- A node can be lost: the search waits for it for ever, no node is out, and the bound is above its
score. -/
theorem lost_mistakenEvents :
    ∃ start ∈ (Team.start Async.sampleVars
        { Settings.standard with workers := 2, maxNodes := 2 } ()).toOption,
      let t := start.run (fun _ => mistakenSolvers) (mistakenEvents.take 8)
      let u := start.run (fun _ => mistakenSolvers) mistakenEvents
      t.outNodes.map (fun n => (n.id, n.score)) = [(2, -1)] ∧ u.outNodes.length = 0
        ∧ u.search.brancher.waiting.ids = [2]
        ∧ ∃ solution ∈ u.solution?, solution.status = .nodeLimit ∧ solution.termination = .complete
          ∧ solution.lowerBound = 1 := by
  decide +kernel

end BranchBound.Team
