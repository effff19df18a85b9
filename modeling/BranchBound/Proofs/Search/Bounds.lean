import BranchBound.Proofs.Search.Reporting

/-! # The bound of a search falls

Only handing out a node can raise the bound of a search; no other operation does, whether it
succeeds or fails. So a score that the bound includes is included as long as no node is handed out.

* **`Search.Lowers s t`** — from `s` to `t` the bound did not rise.
* **`Search.lowers_perform`** — no other operation raises the bound.
* **`Search.Extends`**, **`Search.insertEvaluated_ok`** — queuing a node makes the bound include its
  score unless the node is open. -/

namespace BranchBound

variable {α : Type} [Scalar α] [Scalar.Ordered α]

/-! ## Branching -/

/-- Neither the lowest score of the open nodes nor that of the refused ones rose. -/
structure Frontier.Lowers (f g : Frontier α) : Prop where
  /-- The lowest score of the open nodes did not rise. -/
  lowestScore {y : α} : f.lowestScore ≤ y → g.lowestScore ≤ y
  /-- Nor did that of the refused nodes. -/
  lowestRefused {y : α} : f.lowestRefused ≤ y → g.lowestRefused ≤ y

/-- Offering a node raises neither. -/
theorem Frontier.Consistent.lowers_insert {f : Frontier α} (h : f.Consistent) (n : OpenNode α) :
    f.Lowers (f.insert n).2 :=
  ⟨h.lowestScore_insert_le n, f.lowestRefused_insert_le n⟩

/-- Branching raises neither. -/
theorem Brancher.Branched.lowers {b c : Brancher α} {parent : Node α} {point : List α}
    {objective : α} {outcome : Branching} (h : Branched b parent point objective outcome c)
    (hb : b.frontier.Consistent) : b.frontier.Lowers c.frontier := by
  cases h with
  | dropped => exact ⟨id, id⟩
  | requeued => exact hb.lowers_insert _
  | @split i v hv down up d hsplit =>
    have hd := split_consistent hsplit hb
    -- naming the parts takes ids from the frontier and leaves its nodes alone
    have hids : b.frontier.Lowers d.frontier := by
      rw [split_brancher hsplit]
      exact ⟨id, id⟩
    have hdown := hd.lowers_insert down
    have hup := (hd.insert down).lowers_insert up
    exact ⟨fun hy => hup.lowestScore (hdown.lowestScore (hids.lowestScore hy)),
      fun hy => hup.lowestRefused (hdown.lowestRefused (hids.lowestRefused hy))⟩

namespace Search

variable {s t u : Search α} {r : Report α}

/-- From one state of a search to another the bound did not rise. -/
def Lowers (s t : Search α) : Prop :=
  ∀ outLowest y, s.provenBound outLowest ≤ y → t.provenBound outLowest ≤ y

omit [Scalar.Ordered α] in
/-- The bound of a state is what it is. -/
theorem Lowers.refl (s : Search α) : s.Lowers s := fun _ _ hy => hy

omit [Scalar.Ordered α] in
/-- What does not rise in two steps does not rise. -/
theorem Lowers.trans (h : s.Lowers t) (k : t.Lowers u) : s.Lowers u :=
  fun outLowest y hy => k outLowest y (h outLowest y hy)

/-- The bound does not rise if none of its parts does. -/
theorem Lowers.of_parts (hfrontier : s.brancher.frontier.Lowers t.brancher.frontier)
    (hdiscarded : t.discarded = s.discarded) : s.Lowers t := by
  intro outLowest y hy
  rw [provenBound_le_iff] at hy ⊢
  rw [hdiscarded]
  rcases hy with ((hopen | hout) | hkept) | hrefused
  · exact .inl (.inl (.inl (hfrontier.lowestScore hopen)))
  · exact .inl (.inl (.inr hout))
  · exact .inl (.inr hkept)
  · exact .inr (hfrontier.lowestRefused hrefused)

/-- Neither does it rise if the frontier and the score of the discarded nodes are the same. -/
theorem Lowers.of_eq (hfrontier : t.brancher.frontier = s.brancher.frontier)
    (hdiscarded : t.discarded = s.discarded) : s.Lowers t :=
  .of_parts ⟨fun hy => hfrontier ▸ hy, fun hy => hfrontier ▸ hy⟩ hdiscarded

/-- Keeping a score does not raise the bound. -/
theorem lowers_noteDiscarded (s : Search α) (score : α) : s.Lowers (s.noteDiscarded score) := by
  unfold noteDiscarded
  split
  · exact .refl s
  · intro outLowest y hy
    rw [provenBound_le_iff] at hy ⊢
    rcases hy with (hopen | hkept) | hrefused
    · exact .inl (.inl hopen)
    · exact .inl (.inr (Scalar.least_le_of_left hkept))
    · exact .inr hrefused

/-- The bound includes a score that is kept. -/
theorem provenBound_noteDiscarded_le {score : α} (hscore : Scalar.isNaN score = false)
    (outLowest : Option α) : (s.noteDiscarded score).provenBound outLowest ≤ score := by
  rw [noteDiscarded, if_neg (by rw [hscore]; decide)]
  exact provenBound_le_iff.mpr (.inl (.inr (Scalar.least_le_right hscore)))

/-! ## Taking in a report -/

/-- Offering a point does not raise the bound: the scores of the nodes that it fathoms are kept. -/
theorem lowers_offer (hs : s.brancher.frontier.Consistent) (c : Candidate α) :
    s.Lowers (s.offer c).2 := by
  by_cases hlt : c.value < s.incumbent.value
  · rw [offer_of_lt hlt]
    have hlow := hs.isNaN_lowerThreshold c.value
    intro outLowest y hy
    -- an open node stays open, or its score is kept with those of the fathomed ones
    rcases provenBound_le_iff.mp hy with ((hopen | hout) | hkept) | hrefused
    · rcases hs.lowest_lowerThreshold c.value hopen with hfathomed | hleft
      · exact Scalar.Ordered.le_trans (provenBound_noteDiscarded_le hlow outLowest) hfathomed
      · exact lowers_noteDiscarded (s.adopt c) _ outLowest y
          (provenBound_le_iff.mpr (.inl (.inl (.inl hleft))))
    · exact lowers_noteDiscarded (s.adopt c) _ outLowest y
        (provenBound_le_iff.mpr (.inl (.inl (.inr hout))))
    · exact lowers_noteDiscarded (s.adopt c) _ outLowest y
        (provenBound_le_iff.mpr (.inl (.inr hkept)))
    · refine lowers_noteDiscarded (s.adopt c) _ outLowest y (provenBound_le_iff.mpr (.inr ?_))
      show (s.brancher.frontier.lowerThreshold c.value).2.lowestRefused ≤ y
      rw [Frontier.lowestRefused_lowerThreshold]
      exact hrefused
  · rw [offer_of_not_lt hlt]
    exact .refl s

/-- Recording a report does not raise the bound. -/
theorem lowers_record (hs : s.brancher.frontier.Consistent) (r : Report α) :
    s.Lowers (s.record r).2 := by
  have hcounted : s.Lowers (s.counted r) := .of_eq rfl rfl
  have haccount : s.Lowers (s.account r) := by
    rw [account_eq]
    split
    · exact hcounted.trans (lowers_offer (s := s.counted r) hs _)
    · exact hcounted
  exact haccount.trans (.of_eq (confirm_frontier (s.account r).brancher r.node.id r.node).1 rfl)

/-- Counting a fathomed node does not raise the bound. -/
theorem lowers_countFathomed (s : Search α) (r : Report α) : s.Lowers (s.countFathomed r) := by
  have hcounted : s.Lowers { s with stats.fathomed := s.stats.fathomed + 1 } := .of_eq rfl rfl
  unfold countFathomed
  dsimp only
  split
  · exact hcounted.trans (lowers_noteDiscarded _ _)
  · exact hcounted

/-- The bound includes the score of a dominated node that was counted. -/
theorem countFathomed_bound (h : r.stage = .fathomed .valueDominated)
    (hscore : Scalar.isNaN r.node.score = false) (outLowest : Option α) :
    (s.countFathomed r).provenBound outLowest ≤ r.node.score := by
  rw [countFathomed, if_pos h]
  exact provenBound_noteDiscarded_le hscore outLowest

/-- Acting on a report does not raise the bound, whether it succeeds or not. -/
theorem lowers_settle (hs : s.brancher.frontier.Consistent) (r : Report α) :
    s.Lowers (s.settle r).2 := by
  rcases hsettle : s.settle r with ⟨e | stage, t⟩
  · rw [(settle_error hsettle).1]
    exact .refl s
  · cases settlement hsettle with
    | fathomed => exact s.lowers_countFathomed r
    | twice => exact .of_eq rfl rfl
    | @branched _ _ outcome b hb =>
      have hfrontier := (Brancher.branch_cases hb).2.lowers hs
      cases outcome with
      | requeued => exact .of_parts hfrontier rfl
      | dropped =>
        have hdropped : s.Lowers ({ s with brancher := b } : Search α).countDropped :=
          .of_parts hfrontier rfl
        exact hdropped.trans (lowers_noteDiscarded _ _)
      | split => exact .of_parts hfrontier rfl

/-- Taking in a report does not raise the bound, whether it is accepted or refused. -/
theorem lowers_apply (hs : s.brancher.frontier.Consistent) (r : Report α) :
    s.Lowers (s.apply r).2 := by
  have hrecord := lowers_record hs r
  rcases s.apply_cases r with ⟨e, -, happly⟩ | ⟨-, happly⟩ <;> rw [happly]
  · exact hrecord
  · exact hrecord.trans (lowers_settle (s.keeps_record hs r).consistent r)

/-! ## Queuing a node -/

/-- From one state of a search to another no node was closed and the bound did not rise. -/
structure Extends (s t : Search α) : Prop where
  /-- The frontier is consistent. -/
  consistent : t.brancher.frontier.Consistent
  /-- The open nodes stay open. -/
  open_of_open : ∀ n ∈ s.brancher.frontier.nodes, n ∈ t.brancher.frontier.nodes
  /-- The bound did not rise. -/
  bound_le : ∀ outLowest y, s.provenBound outLowest ≤ y → t.provenBound outLowest ≤ y

/-- Queuing a node does not raise the bound, whether it succeeds or not. -/
theorem lowers_insertEvaluated (hs : s.brancher.frontier.Consistent) (n : Node α) :
    s.Lowers (s.insertEvaluated n).2 := by
  rcases s.insertEvaluated_cases n with hsame | hqueued
  · rw [hsame]
    exact .refl s
  · rw [hqueued]
    have hlowers := (hs.reserveIds n.id).lowers_insert (s.brancher.toOpen n .unsplit)
    exact .of_parts ⟨hlowers.lowestScore, hlowers.lowestRefused⟩ rfl

/-- Queuing a node closes no other one and does not raise the bound; the node is open afterwards, or
the bound includes its score. -/
theorem insertEvaluated_ok {n : Node α} {taken : Bool}
    (h : s.insertEvaluated n = (.ok taken, t)) (hs : s.brancher.frontier.Consistent) :
    s.Extends t ∧ (n ∈ t.brancher.frontier.nodes
      ∨ ∀ outLowest, t.provenBound outLowest ≤ n.score) := by
  have hlowers := lowers_insertEvaluated hs n
  rw [h] at hlowers
  obtain rfl := eq_of_insertEvaluated_ok h
  have hreserved := hs.reserveIds n.id
  refine ⟨⟨hreserved.insert _, fun m hm => hreserved.mem_nodes_insert _ hm, hlowers⟩, ?_⟩
  rcases hreserved.mem_or_refused_insert (s.brancher.toOpen n .unsplit) with hmem | hrefused
  · exact .inl hmem
  · exact .inr fun outLowest => provenBound_le_iff.mpr (.inr hrefused)

/-- Counting a fathomed node closes none and does not raise the bound. -/
theorem extends_countFathomed (hs : s.brancher.frontier.Consistent) (r : Report α) :
    s.Extends (s.countFathomed r) := by
  refine ⟨((Keeps.refl hs).countFathomed r).consistent, fun n hn => ?_, s.lowers_countFathomed r⟩
  rw [(s.countFathomed_frame r).1]
  exact hn

/-! ## The operations on a search -/

/-- The bound rises only when a node is handed out. -/
theorem lowers_perform (hs : s.brancher.frontier.Consistent) {op : Op α} (hop : op ≠ .next) :
    s.Lowers (s.perform op) := by
  cases op with
  | next => exact absurd rfl hop
  | atTime => exact .of_eq rfl rfl
  | offer c => exact lowers_offer hs c
  | record r => exact lowers_record hs r
  | settle r => exact lowers_settle hs r
  | apply r => exact lowers_apply hs r
  | cancel id => exact .of_eq (s.brancher.frontier_cancel id) rfl
  | insertEvaluated n => exact lowers_insertEvaluated hs n
  | strongChildren r =>
    obtain ⟨id, hfrontier, -⟩ := s.brancher.allChildren_frontier r.node r.point
    refine .of_parts ?_ rfl
    show s.brancher.frontier.Lowers (s.brancher.allChildren r.node r.point).2.frontier
    rw [hfrontier]
    exact ⟨fun hy => hy, fun hy => hy⟩
  | countFathomed r => exact s.lowers_countFathomed r
  | countBranched => exact .of_eq rfl rfl
  | countDropped => exact .of_eq rfl rfl

end Search

end BranchBound
