import BranchBound.Proofs.Frontier.Nodes
import BranchBound.Team.Basic

/-! # Seats

What the parts of a step do to the seats of a team: each of them changes one seat, or adds an order
to some. A property of seats that these changes keep holds of all seats after a step
(`Team.Each`).

* **`Team.Each P t`** — `P` holds of every seat, given its place.
* **`Team.perm_outNodes_give`**, **`perm_outNodes_release`** — the nodes that are out when one more
  goes out and when one comes back.
* **`Team.announceTo_frame`** — announcing a point adds orders and does nothing else. -/

namespace BranchBound

variable {σ α : Type}

namespace Seat

/-- The seat with one more order in its queue. -/
def push (seat : Seat α) (order : Order α) : Seat α :=
  { seat with orders := seat.orders ++ [order] }

/-- The seat of a worker that is given a node. -/
def give (seat : Seat α) (node : Node α) (turn : Nat) : Seat α :=
  { seat.push (.process node) with out := some ⟨node, turn⟩ }

variable (seat : Seat α) (order : Order α)

@[simp] theorem worker_push : (seat.push order).worker = seat.worker := rfl

@[simp] theorem out_push : (seat.push order).out = seat.out := rfl

@[simp] theorem orders_push : (seat.push order).orders = seat.orders ++ [order] := rfl

@[simp] theorem replies_push : (seat.push order).replies = seat.replies := rfl

/-- The node that the worker is on. -/
def node? (seat : Seat α) : Option (Node α) := seat.out.map (·.node)

end Seat

namespace Team

variable {t u : Team σ α} {i j : Nat} {seat : Seat α} {f : Seat α → Seat α} {order : Order α}
  {P Q : Nat → Seat α → Prop}

/-! ## One seat -/

@[simp] theorem search_modifySeat : (t.modifySeat i f).search = t.search := rfl

@[simp] theorem memory_modifySeat : (t.modifySeat i f).memory = t.memory := rfl

@[simp] theorem phase_modifySeat : (t.modifySeat i f).phase = t.phase := rfl

@[simp] theorem length_modifySeat : (t.modifySeat i f).seats.length = t.seats.length :=
  List.length_modify f t.seats i

/-- The seat that is changed. -/
theorem getElem?_modifySeat_self (h : t.seats[i]? = some seat) :
    (t.modifySeat i f).seats[i]? = some (f seat) := by
  show (t.seats.modify i f)[i]? = _
  rw [List.getElem?_modify_eq, h]
  rfl

/-- The other seats. -/
theorem getElem?_modifySeat_ne (h : i ≠ j) : (t.modifySeat i f).seats[j]? = t.seats[j]? := by
  show (t.seats.modify i f)[j]? = _
  rw [List.getElem?_modify]
  simp [h]

/-- The property holds of every seat, given its place. -/
def Each (P : Nat → Seat α → Prop) (t : Team σ α) : Prop :=
  ∀ i seat, t.seats[i]? = some seat → P i seat

/-- What holds of each seat depends on the seats alone. -/
theorem Each.of_eq (h : t.Each P) (heq : u.seats = t.seats) : u.Each P := by
  intro i seat hseat
  rw [heq] at hseat
  exact h i seat hseat

/-- A change of one seat concerns that seat. -/
theorem Each.modify (h : t.Each P) (hother : ∀ j seat, i ≠ j → P j seat → Q j seat)
    (hself : ∀ seat, t.seats[i]? = some seat → P i seat → Q i (f seat)) :
    (t.modifySeat i f).Each Q := by
  intro j seat hseat
  -- a seat that is not there is not changed either
  by_cases hij : i = j
  · subst hij
    cases hold : t.seats[i]? with
    | none =>
      have hnone : (t.modifySeat i f).seats[i]? = none := by
        show (t.seats.modify i f)[i]? = none
        rw [List.getElem?_modify_eq, hold]
        rfl
      rw [hnone] at hseat
      cases hseat
    | some old =>
      rw [getElem?_modifySeat_self hold] at hseat
      cases hseat
      exact hself old hold (h i old hold)
  · rw [getElem?_modifySeat_ne hij] at hseat
    exact hother j seat hij (h j seat hseat)

/-- A change of one seat that keeps a property. -/
theorem Each.modify_same (h : t.Each P)
    (hself : ∀ seat, t.seats[i]? = some seat → P i seat → P i (f seat)) :
    (t.modifySeat i f).Each P :=
  h.modify (fun _ _ _ hseat => hseat) hself

/-- What the news of a worker leave: one reply fewer. -/
theorem news?_eq_some {news : News α} (h : t.news? i = some (news, u)) :
    ∃ seat, t.seats[i]? = some seat ∧ seat.out.isSome = true
      ∧ ((∃ reply rest, news = .reply reply ∧ seat.replies = reply :: rest
          ∧ u = t.modifySeat i fun s => { s with replies := rest })
        ∨ news = .gone ∧ seat.worker = none ∧ u = t) := by
  unfold news? at h
  cases hseat : t.seats[i]? with
  | none =>
    simp only [hseat] at h
    cases h
  | some seat =>
    simp only [hseat] at h
    refine ⟨seat, rfl, ?_⟩
    split at h
    · cases h
    · next hout =>
      refine ⟨by cases hnode : seat.out <;> simp_all, ?_⟩
      split at h
      · next reply rest hreplies =>
        cases h
        exact .inl ⟨reply, rest, rfl, hreplies, rfl⟩
      · split at h
        · next hgone =>
          cases h
          exact .inr ⟨rfl, by simpa using hgone, rfl⟩
        · cases h

/-- To hear that a worker is gone changes nothing. -/
theorem news?_gone (h : t.news? i = some (.gone, u)) : u = t := by
  obtain ⟨-, -, -, ⟨_, _, heq, -⟩ | ⟨-, -, heq⟩⟩ := news?_eq_some h
  · cases heq
  · exact heq

/-! ## Orders -/

/-- An order reaches a worker that is not gone. -/
theorem send?_eq_some (h : t.send? i order = some u) :
    ∃ seat, t.seats[i]? = some seat ∧ seat.worker.isSome = true
      ∧ u = t.modifySeat i (·.push order) := by
  unfold send? at h
  cases hseat : t.seats[i]? with
  | none =>
    simp only [hseat] at h
    cases h
  | some seat =>
    simp only [hseat] at h
    split at h
    · next hworker =>
      cases h
      exact ⟨seat, rfl, hworker, rfl⟩
    · cases h

/-- An order to a worker that is not gone reaches it. -/
theorem send?_of_worker (h : t.seats[i]? = some seat) (hworker : seat.worker.isSome = true) :
    t.send? i order = some (t.modifySeat i (·.push order)) := by
  unfold send?
  rw [h]
  exact if_pos hworker

/-! ## The nodes that are out -/

/-- The nodes that are out are read off the seats. -/
theorem outNodes_eq (t : Team σ α) : t.outNodes = t.seats.filterMap Seat.node? := rfl

/-- A node is out if a worker is on it. -/
theorem mem_outNodes {n : Node α} :
    n ∈ t.outNodes ↔ ∃ (i : Nat) (seat : Seat α) (a : Assignment α),
      t.seats[i]? = some seat ∧ seat.out = some a ∧ a.node = n := by
  rw [outNodes_eq, List.mem_filterMap]
  constructor
  · rintro ⟨seat, hmem, hnode⟩
    obtain ⟨i, hseat⟩ := List.mem_iff_getElem?.mp hmem
    obtain ⟨a, ha, rfl⟩ := Option.map_eq_some_iff.mp hnode
    exact ⟨i, seat, a, hseat, ha, rfl⟩
  · rintro ⟨i, seat, a, hseat, ha, rfl⟩
    exact ⟨seat, List.mem_iff_getElem?.mpr ⟨i, hseat⟩, Option.map_eq_some_iff.mpr ⟨a, ha, rfl⟩⟩

/-- No node is out if no worker is on one. -/
theorem outNodes_eq_nil : t.outNodes = [] ↔ t.Each fun _ seat => seat.out = none := by
  rw [List.eq_nil_iff_forall_not_mem]
  constructor
  · intro h i seat hseat
    cases hout : seat.out with
    | none => rfl
    | some a => exact absurd (mem_outNodes.mpr ⟨i, seat, a, hseat, hout, rfl⟩) (h a.node)
  · rintro h n hn
    obtain ⟨i, seat, a, hseat, hout, -⟩ := mem_outNodes.mp hn
    rw [h i seat hseat] at hout
    cases hout

/-- A list in which one entry is put in front, before and after it is changed. -/
theorem exists_perm_modify {β : Type} {xs : List β} {x : β} (g : β → β) (h : xs[i]? = some x) :
    ∃ rest, xs.Perm (x :: rest) ∧ (xs.modify i g).Perm (g x :: rest) := by
  obtain ⟨hi, rfl⟩ := List.getElem?_eq_some_iff.mp h
  refine ⟨xs.take i ++ xs.drop (i + 1), ?_, ?_⟩
  · have hxs : xs = xs.take i ++ xs[i] :: xs.drop (i + 1) := by
      rw [List.getElem_cons_drop, List.take_append_drop]
    exact (List.Perm.of_eq hxs).trans List.perm_middle
  · rw [List.modify_eq_take_cons_drop hi]
    exact List.perm_middle

/-- A change of a seat that leaves its node alone leaves the nodes that are out alone. -/
theorem outNodes_modifySeat (h : ∀ seat, t.seats[i]? = some seat → (f seat).out = seat.out) :
    (t.modifySeat i f).outNodes = t.outNodes := by
  -- they are read off the nodes of the seats alone
  have hseats : (t.modifySeat i f).seats.map (·.out) = t.seats.map (·.out) := by
    refine List.ext_getElem? fun j => ?_
    rw [List.getElem?_map, List.getElem?_map]
    by_cases hij : i = j
    · subst hij
      cases hseat : t.seats[i]? with
      | none =>
        show Option.map _ (t.seats.modify i f)[i]? = _
        rw [List.getElem?_modify_eq, hseat]
        rfl
      | some seat =>
        rw [getElem?_modifySeat_self hseat, Option.map_some, Option.map_some, h seat hseat]
    · rw [getElem?_modifySeat_ne hij]
  have houtNodes : ∀ v : Team σ α,
      v.outNodes = (v.seats.map (·.out)).filterMap (Option.map (·.node)) := by
    intro v
    rw [List.filterMap_map]
    rfl
  rw [houtNodes, houtNodes, hseats]

/-- The team once a worker was given a node: it has the order to process it. -/
def give (t : Team σ α) (i : Nat) (node : Node α) : Team σ α :=
  (t.modifySeat i (·.push (.process node))).assign i node

@[simp] theorem search_give (n : Node α) : (t.give i n).search = t.search := rfl

/-- Giving a worker a node changes its seat. -/
theorem seats_give (t : Team σ α) (i : Nat) (n : Node α) :
    (t.give i n).seats = (t.modifySeat i (·.give n t.dispatched.length)).seats :=
  List.modify_modify_eq _ _ i t.seats

/-- The nodes that are out once an idle worker was given one. -/
theorem perm_outNodes_give (h : t.seats[i]? = some seat) (hout : seat.out = none) (n : Node α) :
    (t.give i n).outNodes.Perm (n :: t.outNodes) := by
  rw [outNodes_eq, seats_give]
  obtain ⟨rest, hold, hnew⟩ := exists_perm_modify (·.give n t.dispatched.length) h
  have hbefore := hold.filterMap Seat.node?
  rw [List.filterMap_cons_none (show seat.node? = none by rw [Seat.node?, hout]; rfl)] at hbefore
  exact (hnew.filterMap Seat.node?).trans (hbefore.symm.cons n)

/-- The nodes that are out once the node of a worker is no longer. -/
theorem perm_outNodes_release {a : Assignment α} (h : t.seats[i]? = some seat)
    (hout : seat.out = some a) : t.outNodes.Perm (a.node :: (t.release i).outNodes) := by
  obtain ⟨rest, hold, hnew⟩ := exists_perm_modify (fun seat => { seat with out := none }) h
  have hbefore := hold.filterMap Seat.node?
  rw [List.filterMap_cons_some (show seat.node? = some a.node by rw [Seat.node?, hout]; rfl)]
    at hbefore
  exact hbefore.trans ((hnew.filterMap Seat.node?).symm.cons a.node)

/-! ## Announcing a point -/

/-- Announcing a point adds orders to take note of it, and does nothing else: what orders like these
leave alone, it leaves alone. -/
theorem announceTo_frame {c : Candidate α} (h : ∀ i seat, P i seat → P i (seat.push (.improve c)))
    (is : List Nat) (ht : t.Each P) :
    let u := (announceTo c is t).2
    u.Each P ∧ u.search = t.search ∧ u.memory = t.memory ∧ u.outNodes = t.outNodes
      ∧ u.seats.length = t.seats.length ∧ u.phase = t.phase := by
  -- the induction is on the workers that are still to be told
  induction is generalizing t with
  | nil => exact ⟨ht, rfl, rfl, rfl, rfl, rfl⟩
  | cons i rest ih =>
    unfold announceTo
    cases hsend : t.send? i (.improve c) with
    | none => exact ⟨ht, rfl, rfl, rfl, rfl, rfl⟩
    | some v =>
      obtain ⟨seat, -, -, rfl⟩ := send?_eq_some hsend
      obtain ⟨heach, hsearch, hmemory, hout, hlength, hphase⟩ :=
        ih (ht.modify_same fun seat _ hseat => h i seat hseat)
      refine ⟨heach, hsearch, hmemory, ?_, ?_, hphase⟩
      · exact hout.trans (outNodes_modifySeat fun _ _ => rfl)
      · exact hlength.trans length_modifySeat

/-- So does announcing the incumbent. -/
theorem announce_frame (h : ∀ i seat c, P i seat → P i (seat.push (.improve c))) (ht : t.Each P) :
    let u := t.announce.2
    u.Each P ∧ u.search = t.search ∧ u.memory = t.memory ∧ u.outNodes = t.outNodes
      ∧ u.seats.length = t.seats.length ∧ u.phase = t.phase := by
  unfold announce
  split
  · exact announceTo_frame (fun i seat hseat => h i seat _ hseat) _ ht
  · exact ⟨ht, rfl, rfl, rfl, rfl, rfl⟩

/-- Announcing the incumbent is no business of the search and of the nodes that are out, and changes
nothing in the number of workers. -/
theorem announce_same (t : Team σ α) :
    t.announce.2.search = t.search ∧ t.announce.2.outNodes = t.outNodes
      ∧ t.announce.2.seats.length = t.seats.length := by
  obtain ⟨-, hsearch, -, hout, hlength, -⟩ :=
    announce_frame (t := t) (P := fun _ _ => True) (fun _ _ _ _ => trivial) fun _ _ _ => trivial
  exact ⟨hsearch, hout, hlength⟩

/-- A point can be announced to workers that are there. -/
theorem announceTo_ok {c : Candidate α} (is : List Nat)
    (h : ∀ i ∈ is, ∃ seat, t.seats[i]? = some seat ∧ seat.worker.isSome = true) :
    (announceTo c is t).1 = .ok () := by
  induction is generalizing t with
  | nil => rfl
  | cons i rest ih =>
    obtain ⟨seat, hseat, hworker⟩ := h i List.mem_cons_self
    unfold announceTo
    rw [send?_of_worker hseat hworker]
    refine ih fun j hj => ?_
    obtain ⟨other, hother, hthere⟩ := h j (List.mem_cons_of_mem _ hj)
    by_cases hij : i = j
    · subst hij
      exact ⟨_, getElem?_modifySeat_self hother, hthere⟩
    · exact ⟨other, by rw [getElem?_modifySeat_ne hij, hother], hthere⟩

/-- Once a point was announced to workers, each of them is told of it. -/
theorem announceTo_told {c : Candidate α} {is : List Nat} (h : announceTo c is t = (.ok (), u))
    (hi : i ∈ is) (hseat : u.seats[i]? = some seat) : Order.improve c ∈ seat.orders := by
  induction is generalizing t with
  | nil => cases hi
  | cons j rest ih =>
    unfold announceTo at h
    cases hsend : t.send? j (.improve c) with
    | none =>
      rw [hsend] at h
      cases h
    | some v =>
      rw [hsend] at h
      rcases List.mem_cons.mp hi with rfl | hi
      · -- the order stays in the queue while the others are told
        obtain ⟨old, hold, -, rfl⟩ := send?_eq_some hsend
        have htold : (t.modifySeat i (·.push (.improve c))).Each fun k s =>
            k = i → Order.improve c ∈ s.orders := by
          rintro k s hs rfl
          rw [getElem?_modifySeat_self hold] at hs
          cases hs
          exact List.mem_append_right _ List.mem_cons_self
        have hframe := (announceTo_frame (c := c) (fun k s hs heq =>
          List.mem_append_left _ (hs heq)) rest htold).1
        have hrest : announceTo c rest (t.modifySeat i (·.push (.improve c))) = (.ok (), u) := h
        rw [hrest] at hframe
        exact hframe i seat hseat rfl
      · exact ih h hi

/-- A place below the number of seats is that of a seat. -/
theorem exists_seat (h : i < t.seats.length) : ∃ seat, t.seats[i]? = some seat :=
  ⟨t.seats[i], List.getElem?_eq_getElem h⟩

end Team

end BranchBound
