import BranchBound.Proofs.Search.Operations

/-! # Taking in a report

What taking in a report does to the parts of a search: to the nodes that are waited for, to the
incumbent and to the account of time, and which errors it can end with.

* **`Waiting.ids`** — the nodes that are waited for, by their ids.
* **`Search.waiting_apply`** — the node of the report is no longer waited for, the others are.
* **`Search.incumbent_apply`** — the incumbent is offered the point of the report, even by a report
  that is refused.
* **`Search.apply_error`** — a report is refused if its node is not waited for or is not valid.
* **`Search.apply_atTime`** — what the clock shows does not matter. -/

namespace BranchBound

variable {α : Type}

/-! ## The nodes that are waited for -/

namespace Waiting

variable {w : Waiting α} {id : Nat}

/-- The ids of the nodes. -/
def ids (w : Waiting α) : List Nat := w.map (·.1)

@[simp] theorem ids_erase : (w.erase id).ids = w.ids.filter (· ≠ id) := by
  simp only [ids, erase, List.filter_map]
  rfl

@[simp] theorem ids_insert {entry : HandedOut α} :
    (w.insert id entry).ids = id :: w.ids.filter (· ≠ id) := by
  rw [← ids_erase]
  rfl

/-- What is remembered of a node is found by its id. -/
theorem lookup_eq_none_iff : w.lookup id = none ↔ id ∉ w.ids := by
  rw [List.lookup_eq_none_iff]
  constructor
  · intro h hmem
    obtain ⟨p, hp, heq⟩ := List.mem_map.mp hmem
    have hne := h p hp
    rw [heq] at hne
    simp at hne
  · intro h p hp
    rw [bne_iff_ne]
    rintro rfl
    exact h (List.mem_map.mpr ⟨p, hp, rfl⟩)

/-- Forgetting a node leaves what is remembered of the others. -/
theorem lookup_erase_of_ne {other : Nat} (hne : id ≠ other) :
    (w.erase other).lookup id = w.lookup id := by
  induction w with
  | nil => rfl
  | cons entry rest ih =>
    obtain ⟨first, handedOut⟩ := entry
    have hcons : erase ((first, handedOut) :: rest) other
        = if first = other then erase rest other
          else (first, handedOut) :: erase rest other := by
      unfold erase
      rw [List.filter_cons]
      by_cases hfirst : first = other <;> simp [hfirst]
    rw [hcons, List.lookup_cons]
    by_cases hfirst : first = other
    · rw [if_pos hfirst, ih, hfirst, beq_false_of_ne hne]
    · rw [if_neg hfirst, List.lookup_cons, ih]

/-- The ids that are left when the first of some distinct ones is taken out. -/
theorem filter_ne_cons {rest : List Nat} (h : (id :: rest).Nodup) :
    (id :: rest).filter (· ≠ id) = rest := by
  have hrest : ∀ other ∈ rest, decide (other ≠ id) = true := by
    intro other hother
    refine decide_eq_true fun heq => ?_
    rw [heq] at hother
    exact (List.nodup_cons.mp h).1 hother
  rw [List.filter_cons_of_neg (by simp), List.filter_eq_self.mpr hrest]

end Waiting

variable [Scalar α]

/-- The incumbent once the point of a report was offered. -/
def Incumbent.adopt (i : Incumbent α) (r : Report α) : Incumbent α :=
  match r.candidate with
  | some c => (i.offer c).2
  | .none => i

/-- An incumbent is replaced by a better point only. -/
theorem Incumbent.adopt_cases (i : Incumbent α) (r : Report α) :
    (∃ c, r.candidate = some c ∧ c.value < i.value ∧ i.adopt r = ⟨some c.point, c.value⟩)
      ∨ (∀ c, r.candidate = some c → ¬ c.value < i.value) ∧ i.adopt r = i := by
  unfold Incumbent.adopt
  cases r.candidate with
  | none => exact .inr ⟨nofun, rfl⟩
  | some c =>
    by_cases hlt : c.value < i.value
    · refine .inl ⟨c, rfl, hlt, ?_⟩
      simp only [Incumbent.offer, if_pos hlt]
    · refine .inr ⟨fun d hd => ?_, ?_⟩
      · cases hd
        exact hlt
      · simp only [Incumbent.offer, if_neg hlt]

/-- An incumbent that has become better has a point. -/
theorem Incumbent.exists_point_adopt [Scalar.Ordered α] {i : Incumbent α} {r : Report α}
    (h : (i.adopt r).value < i.value) : ∃ point, (i.adopt r).point = some point := by
  rcases i.adopt_cases r with ⟨c, -, -, heq⟩ | ⟨-, heq⟩
  · exact ⟨c.point, by rw [heq]⟩
  · rw [heq] at h
    exact absurd (Scalar.le_of_lt h) (Scalar.not_le_of_lt h)

/-- An incumbent that has not become better is what it was. -/
theorem Incumbent.adopt_eq_self {i : Incumbent α} {r : Report α}
    (h : ¬ (i.adopt r).value < i.value) : i.adopt r = i := by
  rcases i.adopt_cases r with ⟨c, -, hlt, heq⟩ | ⟨-, heq⟩
  · rw [heq] at h
    exact absurd hlt h
  · exact heq

namespace Brancher

variable {b c : Brancher α} {parent : Node α} {point : List α} {objective tolerance : α}

/-- A node that comes up for branching is not waited for any more, and the others are. -/
theorem waiting_branch (b : Brancher α) (parent : Node α) (point : List α)
    (objective tolerance : α) :
    (b.branch parent point objective tolerance).2.waiting = b.waiting := by
  rcases hbranch : b.branch parent point objective tolerance with ⟨e | outcome, c⟩
  · rw [branch_error hbranch]
  · cases (branch_cases hbranch).2 with
    | dropped => rfl
    | requeued => rfl
    | split hv hsplit =>
      show (Brancher.offer _ _).2.waiting = b.waiting
      rw [split_brancher hsplit]
      rfl

/-- Confirming a node ends the wait for it. -/
theorem waiting_confirm {id : Nat} {n : Node α} (h : b.confirm id n = (.ok (), c)) :
    c.waiting = b.waiting.erase id := by
  cases confirm_exit h <;> rfl

/-- A node that cannot be confirmed is not waited for, or is not valid and not waited for any
more. -/
theorem confirm_error {id : Nat} {n : Node α} {e : Error α}
    (h : b.confirm id n = (.error e, c)) :
    e = .unknownNode id ∧ id ∉ b.waiting.ids
      ∨ (∃ fault, e = .invalidProblem fault) ∧ c.waiting = b.waiting.erase id := by
  cases confirm_exit h with
  | unknown hlookup => exact .inl ⟨rfl, Waiting.lookup_eq_none_iff.mp hlookup⟩
  | stray => exact .inr ⟨⟨_, rfl⟩, rfl⟩

end Brancher

namespace Search

variable {s t : Search α} {r : Report α} {stage : Stage}

/-! ## What is left alone -/

@[simp] theorem incumbent_noteDiscarded (score : α) :
    (s.noteDiscarded score).incumbent = s.incumbent := by
  unfold noteDiscarded
  split <;> rfl

@[simp] theorem brancher_noteDiscarded (score : α) :
    (s.noteDiscarded score).brancher = s.brancher := by
  unfold noteDiscarded
  split <;> rfl

@[simp] theorem atTime_noteDiscarded (score : α) (d : Duration) :
    (s.atTime d).noteDiscarded score = (s.noteDiscarded score).atTime d := by
  unfold noteDiscarded
  split <;> rfl

/-- Counting a fathomed node leaves the tree and the incumbent alone. -/
theorem countFathomed_frame (s : Search α) (r : Report α) :
    (s.countFathomed r).brancher = s.brancher ∧ (s.countFathomed r).incumbent = s.incumbent := by
  unfold countFathomed
  dsimp only
  split
  · rw [brancher_noteDiscarded, incumbent_noteDiscarded]
    exact ⟨rfl, rfl⟩
  · exact ⟨rfl, rfl⟩

/-- Acting on a report leaves the incumbent and the nodes that are waited for alone. -/
theorem settle_frame (s : Search α) (r : Report α) :
    (s.settle r).2.brancher.waiting = s.brancher.waiting
      ∧ (s.settle r).2.incumbent = s.incumbent := by
  rcases hsettle : s.settle r with ⟨e | stage, t⟩
  · rw [(settle_error hsettle).1]
    exact ⟨rfl, rfl⟩
  · cases settlement hsettle with
    | fathomed =>
      obtain ⟨hbrancher, hincumbent⟩ := s.countFathomed_frame r
      exact ⟨congrArg Brancher.waiting hbrancher, hincumbent⟩
    | twice => exact ⟨rfl, rfl⟩
    | @branched _ _ outcome b hb =>
      have hwaiting :=
        s.brancher.waiting_branch r.node r.point r.lowerBound s.settings.sizeTolerance
      rw [hb] at hwaiting
      -- of the outcomes only a dropped node is noted as unresolved
      cases outcome with
      | requeued | split => exact ⟨hwaiting, rfl⟩
      | dropped =>
        rw [branched, brancher_noteDiscarded, incumbent_noteDiscarded]
        exact ⟨hwaiting, rfl⟩

/-- Accounting a report offers its point and leaves the nodes that are waited for alone. -/
theorem account_frame (s : Search α) (r : Report α) :
    (s.account r).brancher.waiting = s.brancher.waiting
      ∧ (s.account r).incumbent = s.incumbent.adopt r := by
  rw [account_eq, Incumbent.adopt]
  cases r.candidate with
  | none => exact ⟨rfl, rfl⟩
  | some c =>
    by_cases hlt : c.value < s.incumbent.value
    · have hcounted : c.value < (s.counted r).incumbent.value := hlt
      simp only [offer_of_lt hcounted, brancher_noteDiscarded, incumbent_noteDiscarded,
        Incumbent.offer, if_pos hlt]
      exact ⟨rfl, rfl⟩
    · have hcounted : ¬ c.value < (s.counted r).incumbent.value := hlt
      simp only [offer_of_not_lt hcounted, Incumbent.offer, if_neg hlt]
      exact ⟨rfl, rfl⟩

/-! ## Taking in a report -/

/-- The point of a report is offered, whether the report is accepted or not. -/
theorem incumbent_apply (s : Search α) (r : Report α) :
    (s.apply r).2.incumbent = s.incumbent.adopt r := by
  have hrecord : (s.record r).2.incumbent = s.incumbent.adopt r := (s.account_frame r).2
  rcases s.apply_cases r with ⟨e, -, happly⟩ | ⟨-, happly⟩ <;> rw [happly]
  · exact hrecord
  · exact ((s.record r).2.settle_frame r).2.trans hrecord

/-- The node of a report that was taken in is not waited for any more, and the others are. -/
theorem waiting_apply (h : s.apply r = (.ok stage, t)) :
    t.brancher.waiting = s.brancher.waiting.erase r.node.id := by
  obtain ⟨hrecord, hsettle⟩ := apply_ok h
  have hconfirm : (s.account r).brancher.confirm r.node.id r.node
      = (.ok (), (s.record r).2.brancher) := Prod.ext hrecord rfl
  have hwaiting := ((s.record r).2.settle_frame r).1
  rw [hsettle] at hwaiting
  rw [hwaiting, Brancher.waiting_confirm hconfirm, (s.account_frame r).1]

/-- A report is refused if its node is not waited for, or if it is not valid; then the node is not
waited for any more. The report is recorded in any case. -/
theorem apply_error {e : Error α} (h : s.apply r = (.error e, t)) :
    t = (s.record r).2
      ∧ (e = .unknownNode r.node.id ∧ r.node.id ∉ s.brancher.waiting.ids
        ∨ (∃ fault, e = .invalidProblem fault)
          ∧ t.brancher.waiting = s.brancher.waiting.erase r.node.id) := by
  rcases s.apply_cases r with ⟨cause, hrecord, happly⟩ | ⟨hrecord, happly⟩ <;> rw [happly] at h
  · cases h
    have hconfirm : (s.account r).brancher.confirm r.node.id r.node
        = (.error e, (s.record r).2.brancher) := Prod.ext hrecord rfl
    refine ⟨rfl, ?_⟩
    rw [← (s.account_frame r).1]
    exact Brancher.confirm_error hconfirm
  · obtain ⟨rfl, hfault⟩ := settle_error h
    have hconfirm : (s.account r).brancher.confirm r.node.id r.node
        = (.ok (), (s.record r).2.brancher) := Prod.ext hrecord rfl
    refine ⟨rfl, .inr ⟨hfault, ?_⟩⟩
    rw [Brancher.waiting_confirm hconfirm, (s.account_frame r).1]

/-- Taking in a report counts one node as processed, whether it succeeds or not. -/
theorem processed_apply_eq (s : Search α) (r : Report α) :
    (s.apply r).2.stats.processed = s.stats.processed + 1 := by
  rcases happly : s.apply r with ⟨e | stage, t⟩
  · obtain ⟨rfl, -⟩ := apply_error happly
    exact s.processed_record r
  · exact processed_apply happly

/-! ## The clock -/

/-- What the clock shows does not matter when a point is offered. -/
theorem offer_atTime (s : Search α) (c : Candidate α) (d : Duration) :
    (s.atTime d).offer c = ((s.offer c).1, (s.offer c).2.atTime d) := by
  by_cases hlt : c.value < s.incumbent.value
  · have hlater : c.value < (s.atTime d).incumbent.value := hlt
    rw [offer_of_lt hlt, offer_of_lt hlater]
    refine Prod.ext rfl ?_
    exact atTime_noteDiscarded (s := s.adopt c) _ d
  · have hlater : ¬ c.value < (s.atTime d).incumbent.value := hlt
    rw [offer_of_not_lt hlt, offer_of_not_lt hlater]

/-- What the clock shows does not matter when a report is accounted. -/
theorem account_atTime (s : Search α) (r : Report α) (d : Duration) :
    (s.atTime d).account r = (s.account r).atTime d := by
  rw [account_eq, account_eq]
  cases r.candidate with
  | none => rfl
  | some c => exact congrArg Prod.snd ((s.counted r).offer_atTime c d)

/-- What the clock shows does not matter when a fathomed node is counted. -/
theorem countFathomed_atTime (s : Search α) (r : Report α) (d : Duration) :
    (s.atTime d).countFathomed r = (s.countFathomed r).atTime d := by
  unfold countFathomed
  dsimp only
  split
  · exact atTime_noteDiscarded (s := { s with stats.fathomed := s.stats.fathomed + 1 }) _ d
  · rfl

/-- What the clock shows does not matter when a node is branched. -/
theorem branch_atTime (s : Search α) (r : Report α) (d : Duration) :
    (s.atTime d).branch r = ((s.branch r).1, (s.branch r).2.atTime d) := by
  unfold branch
  -- a single point that comes for the second time is not branched again
  by_cases htwice : r.node.box.isPoint ∧ r.node.id ∈ s.requeued
  · have hlater : r.node.box.isPoint ∧ r.node.id ∈ (s.atTime d).requeued := htwice
    rw [if_pos htwice, if_pos hlater]
    rfl
  · have hlater : ¬ (r.node.box.isPoint ∧ r.node.id ∈ (s.atTime d).requeued) := htwice
    rw [if_neg htwice, if_neg hlater]
    have hsame : (s.atTime d).brancher = s.brancher := rfl
    rw [hsame]
    rcases hbranch : s.brancher.branch r.node r.point r.lowerBound s.settings.sizeTolerance
      with ⟨e | outcome, b⟩
    · simp only [show (s.atTime d).settings = s.settings from rfl, hbranch]
      rfl
    · simp only [show (s.atTime d).settings = s.settings from rfl, hbranch]
      cases outcome with
      | requeued => rfl
      | dropped =>
        refine Prod.ext rfl ?_
        exact atTime_noteDiscarded (s := ({ s with brancher := b } : Search α).countDropped) _ d
      | split => rfl

/-- What the clock shows does not matter when a report is taken in. -/
theorem apply_atTime (s : Search α) (r : Report α) (d : Duration) :
    (s.atTime d).apply r = ((s.apply r).1, (s.apply r).2.atTime d) := by
  have hrecord : (s.atTime d).record r = ((s.record r).1, (s.record r).2.atTime d) := by
    unfold record
    rw [account_atTime]
    rfl
  unfold apply
  rw [hrecord]
  rcases s.record r with ⟨e | _, u⟩
  · rfl
  · show (u.atTime d).settle r = ((u.settle r).1, (u.settle r).2.atTime d)
    unfold settle
    cases r.stage with
    | fathomed reason => exact Prod.ext rfl (u.countFathomed_atTime r d)
    | postprocessed => exact u.branch_atTime r d
    | _ => rfl

end Search

end BranchBound
