import BranchBound.Proofs.Frontier.Thresholds
import BranchBound.Proofs.Search.Asynchronous
import BranchBound.Proofs.Search.Operations
import BranchBound.Proofs.Search.Reporting
import BranchBound.Proofs.Settings.Validity

/-! # Incumbent, threshold and cutoff agree

One limit is kept in three places: the incumbent has the best value found so far, the frontier the
threshold from which on nodes are of no interest, and the cutoff is what processing tests nodes
against. Whatever happens to a search, and whether it succeeds or not, the three say the same, the
incumbent is the first of the best points that were offered, and every open node scores below the
threshold. So processing and the frontier never disagree about whether a node is dominated.

* **`Incumbent.IsBest i offered`** — the incumbent is the first of the best points offered.
* **`Search.InStep`** — the frontier fathoms against the value of the incumbent.
* **`Search.Agrees`** — the invariant; `Agrees.perform` says that every operation keeps it.
* **`Search.agreement`** — what holds after any operations on a search. -/

namespace BranchBound

variable {α : Type} [Scalar α]

/-! ## The best of the offered points -/

/-- Offers some points in order. -/
def Incumbent.offerAll (i : Incumbent α) (offered : List (Candidate α)) : Incumbent α :=
  offered.foldl (fun i c => (i.offer c).2) i

/-- The incumbent is the best of the points that were offered; of several, the first. -/
structure Incumbent.IsBest (i : Incumbent α) (offered : List (Candidate α)) : Prop where
  /-- The value of the incumbent is defined. -/
  defined : Scalar.isNaN i.value = false
  /-- No offered value that is defined is lower. -/
  le : ∀ c ∈ offered, Scalar.isNaN c.value = false → i.value ≤ c.value
  /-- No point is known and no value below infinity was offered, or the incumbent is an offered
  point and no point offered before was as good. -/
  attained : (i = .none ∧ ∀ c ∈ offered, ¬ c.value < Scalar.infinity)
    ∨ ∃ before c after, offered = before ++ c :: after ∧ i = ⟨some c.point, c.value⟩
      ∧ c.value < Scalar.infinity ∧ ∀ d ∈ before, ¬ d.value ≤ c.value

section Incumbent

variable [Scalar.Ordered α] {i : Incumbent α} {offered : List (Candidate α)}

/-- No incumbent is the best of no points. -/
theorem Incumbent.isBest_none : Incumbent.IsBest (.none : Incumbent α) [] where
  defined := Scalar.Ordered.isNaN_infinity
  le _ hc := absurd hc List.not_mem_nil
  attained := .inl ⟨rfl, fun _ hc => absurd hc List.not_mem_nil⟩

/-- Offering one more point leaves the best of all. -/
theorem Incumbent.IsBest.offer (h : i.IsBest offered) (c : Candidate α) :
    Incumbent.IsBest (i.offer c).2 (offered ++ [c]) := by
  by_cases hlt : c.value < i.value
  · rw [show i.offer c = (true, ⟨some c.point, c.value⟩) by rw [Incumbent.offer, if_pos hlt]]
    have hle := Scalar.le_of_lt hlt
    refine ⟨Scalar.Ordered.isNaN_left_of_le hle, fun d hd hdef => ?_, .inr ?_⟩
    · rcases List.mem_append.mp hd with hd | hd
      · exact Scalar.Ordered.le_trans hle (h.le d hd hdef)
      · rw [List.mem_singleton.mp hd] at hdef ⊢
        exact Scalar.Ordered.le_refl hdef
    · refine ⟨offered, c, [], rfl, rfl, ?_, fun d hd hdc => ?_⟩
      · exact Scalar.lt_of_lt_of_le hlt (Scalar.Ordered.le_infinity h.defined)
      · -- a point that is as good as the new one is better than the incumbent was
        have hid := h.le d hd (Scalar.Ordered.isNaN_left_of_le hdc)
        exact Scalar.not_le_of_lt hlt (Scalar.Ordered.le_trans hid hdc)
  · rw [show i.offer c = (false, i) by rw [Incumbent.offer, if_neg hlt]]
    refine ⟨h.defined, fun d hd hdef => ?_, ?_⟩
    · rcases List.mem_append.mp hd with hd | hd
      · exact h.le d hd hdef
      · rw [List.mem_singleton.mp hd] at hdef ⊢
        exact Scalar.le_of_not_lt hdef h.defined hlt
    · rcases h.attained with ⟨hnone, hall⟩ | ⟨before, best, after, heq, hbest⟩
      · refine .inl ⟨hnone, fun d hd => ?_⟩
        rcases List.mem_append.mp hd with hd | hd
        · exact hall d hd
        · rw [List.mem_singleton.mp hd]
          rw [hnone] at hlt
          exact hlt
      · -- a point that is as good as the incumbent does not replace it
        refine .inr ⟨before, best, after ++ [c], ?_, hbest⟩
        rw [heq, List.append_assoc, List.cons_append]

/-- Offering more points leaves the best of all. -/
theorem Incumbent.IsBest.offerAll (h : i.IsBest offered) (more : List (Candidate α)) :
    (i.offerAll more).IsBest (offered ++ more) := by
  induction more generalizing i offered with
  | nil => rwa [List.append_nil]
  | cons c rest ih =>
    rw [List.append_cons offered c rest]
    exact ih (h.offer c)

end Incumbent

/-! ## Tolerances -/

/-- The tolerances of valid settings are finite and not negative. -/
theorem Settings.tolerances_of_validate {settings : Settings α} (h : settings.validate = .ok ()) :
    (Scalar.isFinite settings.absTolerance = true ∧ ¬ settings.absTolerance < 0)
      ∧ (Scalar.isFinite settings.relTolerance = true ∧ ¬ settings.relTolerance < 0) := by
  obtain ⟨habs, hrel, -⟩ := fault?_eq_none.mp (validate_eq_ok.mp h)
  exact ⟨toleranceFault?_eq_none.mp habs, toleranceFault?_eq_none.mp hrel⟩

/-- The tolerances of a frontier are those of valid settings, up to the sign of a zero. -/
theorem Settings.same_toleranceAdjusted [Scalar.Congruent α] {settings : Settings α}
    (h : settings.validate = .ok ()) {t : α} (ht : Scalar.isNaN t = false) :
    Scalar.Same
      (toleranceAdjusted t (Scalar.greatest settings.relTolerance 0)
        (Scalar.greatest settings.absTolerance 0))
      (toleranceAdjusted t settings.relTolerance settings.absTolerance) := by
  obtain ⟨⟨habs, habs0⟩, hrel, hrel0⟩ := tolerances_of_validate h
  have hgreatest : Scalar.isFinite (Scalar.greatest settings.relTolerance 0) = true := by
    rcases Scalar.greatest_eq_or settings.relTolerance 0 with heq | heq <;> rw [heq]
    · exact hrel
    · exact Scalar.Congruent.isFinite_zero
  exact BranchBound.same_toleranceAdjusted ht hgreatest hrel
    (Scalar.same_greatest_zero hrel hrel0) (Scalar.same_greatest_zero habs habs0)

/-! ## Branching -/

namespace Brancher

variable [Scalar.Ordered α] {b c : Brancher α} {parent : Node α} {point : List α} {objective : α}
  {outcome : Branching}

omit [Scalar.Ordered α] in
/-- Branching changes no limit. -/
theorem Branched.sameLimits (h : Branched b parent point objective outcome c) :
    b.frontier.SameLimits c.frontier := by
  cases h with
  | dropped => exact .refl _
  | requeued => exact b.frontier.sameLimits_insert _
  | @split i v hv down up d hsplit =>
    have hids : b.frontier.SameLimits d.frontier := by
      rw [split_brancher hsplit]
      exact ⟨rfl, rfl, rfl⟩
    exact (hids.trans (d.frontier.sameLimits_insert down)).trans
      ((d.frontier.insert down).2.sameLimits_insert up)

omit [Scalar.Ordered α] in
/-- The score that the children of a node inherit is defined. -/
theorem isNaN_rounded (hscore : Scalar.isNaN parent.score = false) :
    Scalar.isNaN (b.rounded parent objective).score = false := by
  show Scalar.isNaN (if Scalar.isNaN objective then parent.score
    else Scalar.greatest parent.score objective) = false
  split
  · exact hscore
  · next hobjective =>
    rcases Scalar.greatest_eq_or parent.score objective with heq | heq <;> rw [heq]
    · exact hscore
    · exact Bool.eq_false_iff.mpr hobjective

/-- Branching a node of a defined score leaves the open nodes below the threshold. -/
theorem Branched.below (h : Branched b parent point objective outcome c)
    (hb : b.frontier.Consistent) (hbelow : b.frontier.Below)
    (hlimit : Scalar.isNaN b.frontier.adjustedThreshold = false)
    (hscore : Scalar.isNaN parent.score = false) : c.frontier.Below := by
  cases h with
  | dropped => exact hbelow
  | requeued => exact hb.below_insert hbelow hlimit hscore
  | @split i v hv down up d hsplit =>
    have hd := split_consistent hsplit hb
    have hids : b.frontier.SameLimits d.frontier ∧ d.frontier.nodes = b.frontier.nodes := by
      rw [split_brancher hsplit]
      exact ⟨⟨rfl, rfl, rfl⟩, rfl⟩
    have hdbelow := hbelow.of_le hids.1 (le_of_eq hids.2)
    have hinherited : Scalar.isNaN (b.rounded parent objective).score = false :=
      isNaN_rounded hscore
    obtain ⟨hdown, hup⟩ := split_nodes hsplit
    have hdownscore : Scalar.isNaN down.score = false := by
      rw [OpenNode.score, hdown]
      exact hinherited
    have hupscore : Scalar.isNaN up.score = false := by
      rw [OpenNode.score, hup]
      exact hinherited
    -- neither taking ids nor opening a child moves the limit
    rw [← hids.1.adjustedThreshold] at hlimit
    have hfirst := hd.below_insert hdbelow hlimit hdownscore
    rw [← (d.frontier.sameLimits_insert down).adjustedThreshold] at hlimit
    exact (hd.insert down).below_insert hfirst hlimit hupscore

end Brancher

/-! ## The invariant -/

namespace Search

variable {s t : Search α} {r : Report α}

/-- The frontier fathoms against the value of the incumbent, under the tolerances of the
settings. -/
structure InStep (s : Search α) : Prop where
  /-- The settings are valid. -/
  valid : s.settings.validate = .ok ()
  /-- The value of the incumbent is defined. -/
  defined : Scalar.isNaN s.incumbent.value = false
  /-- It is the threshold of the frontier. -/
  threshold : s.brancher.frontier.threshold = s.incumbent.value
  /-- The relative tolerance of the frontier is that of the settings. -/
  relTolerance : s.brancher.frontier.relTolerance = Scalar.greatest s.settings.relTolerance 0
  /-- So is the absolute tolerance. -/
  absTolerance : s.brancher.frontier.absTolerance = Scalar.greatest s.settings.absTolerance 0

/-- It does so as long as neither its limits nor the incumbent change. -/
theorem InStep.of_limits (h : s.InStep) (hsettings : t.settings = s.settings)
    (hincumbent : t.incumbent = s.incumbent)
    (hlimits : s.brancher.frontier.SameLimits t.brancher.frontier) : t.InStep where
  valid := hsettings ▸ h.valid
  defined := hincumbent ▸ h.defined
  threshold := by rw [hlimits.threshold, h.threshold, hincumbent]
  relTolerance := by rw [hlimits.relTolerance, h.relTolerance, hsettings]
  absTolerance := by rw [hlimits.absTolerance, h.absTolerance, hsettings]

/-- The incumbent, the frontier and the cutoff agree on which scores are of interest. -/
structure Agrees (s : Search α) : Prop extends s.InStep where
  /-- The frontier is consistent. -/
  consistent : s.brancher.frontier.Consistent
  /-- Its nodes score below the threshold. -/
  below : s.brancher.frontier.Below

/-- The agreement depends on the settings, the incumbent and the frontier. -/
theorem Agrees.of_frontier (h : s.Agrees) (hsettings : t.settings = s.settings)
    (hincumbent : t.incumbent = s.incumbent)
    (hlimits : s.brancher.frontier.SameLimits t.brancher.frontier)
    (hconsistent : t.brancher.frontier.Consistent) (hbelow : t.brancher.frontier.Below) :
    t.Agrees where
  toInStep := h.of_limits hsettings hincumbent hlimits
  consistent := hconsistent
  below := hbelow

/-- States of one frontier, one incumbent and the same settings agree alike. -/
theorem Agrees.of_eq (h : s.Agrees) (hsettings : t.settings = s.settings)
    (hincumbent : t.incumbent = s.incumbent)
    (hfrontier : t.brancher.frontier = s.brancher.frontier) : t.Agrees := by
  refine h.of_frontier hsettings hincumbent ?_ ?_ ?_ <;> rw [hfrontier]
  · exact .refl _
  · exact h.consistent
  · exact h.below

@[simp] theorem settings_noteDiscarded (s : Search α) (score : α) :
    (s.noteDiscarded score).settings = s.settings := by
  unfold noteDiscarded
  split <;> rfl

/-- Keeping a score does not matter for the agreement. -/
theorem Agrees.noteDiscarded (h : s.Agrees) (score : α) : (s.noteDiscarded score).Agrees :=
  h.of_eq (s.settings_noteDiscarded score) (incumbent_noteDiscarded score)
    (congrArg Brancher.frontier (brancher_noteDiscarded score))

/-- Counting a fathomed node does not matter either. -/
theorem Agrees.countFathomed (h : s.Agrees) (r : Report α) : (s.countFathomed r).Agrees := by
  have hcounted : ({ s with stats.fathomed := s.stats.fathomed + 1 } : Search α).Agrees :=
    h.of_eq rfl rfl rfl
  unfold Search.countFathomed
  dsimp only
  split
  · exact hcounted.noteDiscarded _
  · exact hcounted

section Ordered

variable [Scalar.Ordered α] {c : Candidate α}

/-- The frontier does not ignore the value of a better point. -/
theorem InStep.not_ignored (h : s.InStep) (hlt : c.value < s.incumbent.value) :
    ¬ (Scalar.isNaN c.value = true ∨ s.brancher.frontier.threshold < c.value) := by
  rw [h.threshold, Scalar.Ordered.isNaN_left_of_le (Scalar.le_of_lt hlt),
    or_iff_right Bool.false_ne_true]
  exact fun hgt => Scalar.not_le_of_lt hlt (Scalar.le_of_lt hgt)

/-- So it follows the incumbent. -/
theorem InStep.adopt (h : s.InStep) (hlt : c.value < s.incumbent.value) : (s.adopt c).InStep :=
  have hlimits := Frontier.sameLimits_lowerThreshold (h.not_ignored hlt)
  { valid := h.valid
    defined := Scalar.Ordered.isNaN_left_of_le (Scalar.le_of_lt hlt)
    threshold := hlimits.threshold
    relTolerance := hlimits.relTolerance.trans h.relTolerance
    absTolerance := hlimits.absTolerance.trans h.absTolerance }

end Ordered

variable [Scalar.Congruent α]

/-- The threshold of the frontier under its tolerances is that of the cutoff. -/
theorem InStep.same_threshold (h : s.InStep) :
    Scalar.Same s.brancher.frontier.adjustedThreshold s.cutoff.threshold := by
  rw [Frontier.adjustedThreshold, h.threshold, h.relTolerance, h.absTolerance]
  exact Settings.same_toleranceAdjusted h.valid h.defined

/-- The cutoff and the frontier dominate the same scores. -/
theorem InStep.dominates (h : s.InStep) (score : α) :
    s.cutoff.dominates score = s.brancher.frontier.dominates score := by
  have hsame := h.same_threshold
  rw [Cutoff.dominates, Frontier.dominates, decide_eq_decide]
  exact ⟨Scalar.Ordered.le_trans hsame.1, Scalar.Ordered.le_trans hsame.2⟩

/-- Offering a point moves the incumbent, the threshold and the cutoff together. -/
theorem Agrees.offer (h : s.Agrees) (c : Candidate α) : (s.offer c).2.Agrees := by
  by_cases hlt : c.value < s.incumbent.value
  · have hadopt := h.adopt hlt
    -- no score is below an undefined limit, so it has to be defined
    have hlimit : Scalar.isNaN
        (s.brancher.frontier.withThreshold c.value).adjustedThreshold = false := by
      rw [← (Frontier.sameLimits_lowerThreshold (h.not_ignored hlt)).adjustedThreshold]
      exact hadopt.same_threshold.isNaN
    rw [offer_of_lt hlt]
    refine Agrees.noteDiscarded ⟨hadopt, h.consistent.lowerThreshold c.value, ?_⟩ _
    exact h.consistent.below_lowerThreshold h.below (h.not_ignored hlt) hlimit
  · rw [offer_of_not_lt hlt]
    exact h

/-- Recording a report keeps the agreement, whether it succeeds or not. -/
theorem Agrees.record (h : s.Agrees) (r : Report α) : (s.record r).2.Agrees := by
  have hcounted : (s.counted r).Agrees := h.of_eq rfl rfl rfl
  have haccount : (s.account r).Agrees := by
    rw [account_eq]
    split
    · exact hcounted.offer _
    · exact hcounted
  exact haccount.of_eq rfl rfl (confirm_frontier (s.account r).brancher r.node.id r.node).1

/-- Acting on a report keeps the agreement, whether it succeeds or not, if a node that has to be
branched has a defined score. -/
theorem Agrees.settle (h : s.Agrees)
    (hscore : r.stage = .postprocessed → Scalar.isNaN r.node.score = false) :
    (s.settle r).2.Agrees := by
  rcases hsettle : s.settle r with ⟨e | stage, t⟩
  · rw [(settle_error hsettle).1]
    exact h
  · cases settlement hsettle with
    | fathomed => exact h.countFathomed r
    | twice => exact h.of_eq rfl rfl rfl
    | @branched hopen _ outcome b hb =>
      obtain ⟨-, hbranched⟩ := Brancher.branch_cases hb
      have hbrancher : ({ s with brancher := b } : Search α).Agrees :=
        h.of_frontier rfl rfl hbranched.sameLimits (hbranched.consistent h.consistent)
          (hbranched.below h.consistent h.below h.same_threshold.isNaN (hscore hopen))
      -- what is counted and noted after branching does not concern the frontier
      cases outcome with
      | requeued => exact hbrancher.of_eq rfl rfl rfl
      | dropped =>
        exact Agrees.noteDiscarded (s := ({ s with brancher := b } : Search α).countDropped)
          (hbrancher.of_eq rfl rfl rfl) _
      | split => exact hbrancher.of_eq rfl rfl rfl

/-- Taking in a report keeps the agreement, whether it is accepted or refused, if a node that has to
be branched has a defined score. -/
theorem Agrees.apply (h : s.Agrees)
    (hscore : r.stage = .postprocessed → Scalar.isNaN r.node.score = false) :
    (s.apply r).2.Agrees := by
  have hrecord := h.record r
  rcases s.apply_cases r with ⟨e, -, happly⟩ | ⟨-, happly⟩ <;> rw [happly]
  · exact hrecord
  · exact hrecord.settle hscore

/-! ## Operations -/

/-- The points that an operation offers, directly or with a report. -/
def Op.offers : Op α → List (Candidate α)
  | .offer c => [c]
  | .record r | .apply r => r.candidate.toList
  | _ => []

/-- The score of the node that an operation may put into the tree is defined. -/
def Op.Defined : Op α → Prop
  | .settle r | .apply r => Scalar.isNaN r.node.score = false
  | .insertEvaluated n => Scalar.isNaN n.score = false
  | _ => True

/-- The state after some operations. -/
def performAll (s : Search α) (ops : List (Op α)) : Search α := ops.foldl perform s

omit [Scalar.Congruent α] in
/-- A point that comes with a report is offered like any other. -/
theorem adopt_eq_offerAll (i : Incumbent α) (r : Report α) :
    i.adopt r = i.offerAll r.candidate.toList := by
  unfold Incumbent.adopt
  cases r.candidate <;> rfl

omit [Scalar.Congruent α] in
/-- An operation changes the incumbent by the points it offers, whether it succeeds or not. -/
theorem incumbent_perform (s : Search α) (op : Op α) :
    (s.perform op).incumbent = s.incumbent.offerAll op.offers := by
  cases op with
  | offer c =>
    show (s.offer c).2.incumbent = (s.incumbent.offer c).2
    unfold Incumbent.offer
    by_cases hlt : c.value < s.incumbent.value
    · rw [offer_of_lt hlt, if_pos hlt, incumbent_noteDiscarded]
      rfl
    · rw [offer_of_not_lt hlt, if_neg hlt]
  | record r => exact (s.account_frame r).2.trans (adopt_eq_offerAll _ r)
  | apply r => exact (s.incumbent_apply r).trans (adopt_eq_offerAll _ r)
  | settle r => exact (s.settle_frame r).2
  | countFathomed r => exact (s.countFathomed_frame r).2
  | _ => rfl

/-- The incumbent, the frontier and the cutoff agree at the start of a search. -/
theorem Agrees.new {vars : List (Variable α)} {settings : Settings α} {start : Search α}
    (h : Search.new vars settings = .ok start) : start.Agrees := by
  have hvalid := validate_of_new h
  obtain ⟨valid, -, rfl⟩ := new_eq h
  have hf := Brancher.consistent_opening valid settings
  -- the empty frontier agrees already, and the root has a defined score
  have hopening : Agrees ⟨Brancher.opening valid settings, .none, {}, {}, settings, [],
      Scalar.infinity⟩ :=
    { valid := hvalid
      defined := Scalar.Ordered.isNaN_infinity
      threshold := Brancher.threshold_opening valid settings
      relTolerance := rfl
      absTolerance := rfl
      consistent := hf
      below := by
        intro m hm
        rw [Brancher.nodes_opening] at hm
        exact absurd hm (Multiset.notMem_zero m) }
  have hroot : Scalar.isNaN (-Scalar.infinity : α) = false :=
    Scalar.Ordered.isNaN_left_of_le (Scalar.Ordered.neg_infinity_le Scalar.Ordered.isNaN_infinity)
  exact hopening.of_frontier rfl rfl (Frontier.sameLimits_insert _ _) (hf.insert _)
    (hf.below_insert hopening.below hopening.same_threshold.isNaN hroot)

/-- An operation on nodes of defined scores keeps the agreement, whether it succeeds or not. -/
theorem Agrees.perform (h : s.Agrees) {op : Op α} (hop : op.Defined) : (s.perform op).Agrees := by
  cases op with
  | offer c => exact h.offer c
  | record r => exact h.record r
  | settle r => exact h.settle fun _ => hop
  | apply r => exact h.apply fun _ => hop
  | countFathomed r => exact h.countFathomed r
  | atTime => exact h.of_eq rfl rfl rfl
  | countBranched => exact h.of_eq rfl rfl rfl
  | countDropped => exact h.of_eq rfl rfl rfl
  | next =>
    -- the tree may be empty, and then nothing is taken out
    have hkept : s.brancher.frontier.SameLimits s.brancher.next.2.frontier
        ∧ s.brancher.next.2.frontier.Below := by
      rcases s.brancher.next_cases with ⟨-, hnext⟩ | ⟨n, f, hpop, hnext⟩ <;> rw [hnext]
      · exact ⟨.refl _, h.below⟩
      · exact ⟨Frontier.sameLimits_pop hpop, h.consistent.below_pop h.below hpop⟩
    exact h.of_frontier rfl rfl hkept.1 (consistent_perform h.consistent .next) hkept.2
  | cancel id => exact h.of_eq rfl rfl (s.brancher.frontier_cancel id)
  | insertEvaluated n =>
    rw [Search.perform]
    rcases s.insertEvaluated_cases n with hsame | hqueued
    · rw [hsame]
      exact h
    · rw [hqueued]
      have hreserved := h.consistent.reserveIds n.id
      exact h.of_frontier rfl rfl
        ((Frontier.sameLimits_reserveIds _ _).trans (Frontier.sameLimits_insert _ _))
        (hreserved.insert _) (hreserved.below_insert h.below h.same_threshold.isNaN hop)
  | strongChildren r =>
    obtain ⟨id, hfrontier, -⟩ := s.brancher.allChildren_frontier r.node r.point
    have hids : (s.perform (.strongChildren r)).brancher.frontier
        = { s.brancher.frontier with nextId := id } := hfrontier
    refine h.of_frontier rfl rfl ?_ ?_ ?_ <;> rw [hids]
    · exact ⟨rfl, rfl, rfl⟩
    · exact h.consistent.withNextId id
    · exact h.below

/-- So does handing out a node. -/
theorem Agrees.next {n : Node α} (h : s.Agrees) (hnext : s.next = (.ok n, t)) : t.Agrees := by
  have ht : (s.perform .next).Agrees := h.perform trivial
  rw [Search.perform, hnext] at ht
  exact ht

/-- Operations on nodes of defined scores keep the agreement. -/
theorem Agrees.performAll (h : s.Agrees) {ops : List (Op α)} (hops : ∀ op ∈ ops, op.Defined) :
    (s.performAll ops).Agrees := by
  induction ops generalizing s with
  | nil => exact h
  | cons op rest ih =>
    rw [List.forall_mem_cons] at hops
    exact ih (h.perform hops.1) hops.2

/-- Operations leave the best of all points offered so far as the incumbent. -/
theorem isBest_performAll {offered : List (Candidate α)} (h : s.incumbent.IsBest offered)
    (ops : List (Op α)) :
    (s.performAll ops).incumbent.IsBest (offered ++ ops.flatMap Op.offers) := by
  induction ops generalizing s offered with
  | nil => rwa [List.flatMap_nil, List.append_nil]
  | cons op rest ih =>
    rw [List.flatMap_cons, ← List.append_assoc]
    refine ih ?_
    rw [incumbent_perform]
    exact h.offerAll op.offers

/-- What the incumbent, the frontier and the cutoff of a search agree on once some points were
offered. -/
structure Agreement (s : Search α) (offered : List (Candidate α)) : Prop where
  /-- The incumbent is the first of the best points offered. -/
  best : s.incumbent.IsBest offered
  /-- Its value is the threshold of the frontier. -/
  threshold : s.brancher.frontier.threshold = s.incumbent.value
  /-- The threshold of the frontier under its tolerances is that of the cutoff. -/
  cutoff : (s.cutoff.threshold == s.brancher.frontier.adjustedThreshold) = true
  /-- Every open node scores below it. -/
  below : ∀ n ∈ s.brancher.frontier.toList, n.score < s.brancher.frontier.adjustedThreshold
  /-- Processing and the frontier agree about which nodes are dominated. -/
  dominates : ∀ score, s.cutoff.dominates score = s.brancher.frontier.dominates score

/-- The incumbent, the frontier and the cutoff agree after any operations on a search, in any order
and whether they succeed or not, as long as no node has an undefined score. -/
theorem limits_agree {vars : List (Variable α)} {settings : Settings α} {start : Search α}
    (hstart : Search.new vars settings = .ok start) {ops : List (Op α)}
    (hops : ∀ op ∈ ops, op.Defined) :
    (start.performAll ops).Agreement (ops.flatMap Op.offers) := by
  have hagrees := (Agrees.new hstart).performAll hops
  have hbest : start.incumbent.IsBest [] := by
    rw [(new_frame hstart).1]
    exact Incumbent.isBest_none
  refine ⟨isBest_performAll hbest ops, hagrees.threshold, ?_, fun n hn => ?_, hagrees.dominates⟩
  · exact Scalar.Ordered.beq_iff_le_ge.mpr hagrees.same_threshold.symm
  · exact hagrees.below n.node (Frontier.mem_nodes.mpr ⟨n, hn, rfl⟩)

/-- The report on a root that has to be branched, with a point of value two. -/
def sampleReport : Report (Extended ℚ) :=
  { Report.start (.root Async.sampleVars) with
    node.score := -1
    stage := .postprocessed
    candidate := some ⟨.point 2, [1]⟩ }

/-- The root is split, its report comes once more, and one child is cancelled and queued again. Of
the points that are offered, one is of no value, and two are equally good. -/
def sampleOps : List (Op (Extended ℚ)) :=
  [.next, .apply sampleReport, .offer ⟨.undefined, [0]⟩, .apply sampleReport, .next, .cancel 1,
    .insertEvaluated { Node.root Async.sampleVars with score := 0, id := 1 },
    .offer ⟨1, [.point 2]⟩, .offer ⟨1, [0]⟩, .next]

/-- The operations leave one node open and the first of the best points as the incumbent. -/
theorem exists_sampleOps : ∃ start ∈ (Search.new Async.sampleVars .standard).toOption,
    (start.performAll sampleOps).brancher.frontier.size = 1
      ∧ (start.performAll sampleOps).incumbent.point = some [.point 2] := by
  decide +kernel

/-- They agree once a node was reported twice and one of its children was queued again. -/
theorem limits_agree_sampleOps : ∃ start, Search.new Async.sampleVars .standard = .ok start
    ∧ (start.performAll sampleOps).brancher.frontier.size = 1
    ∧ (start.performAll sampleOps).incumbent.point = some [.point 2]
    ∧ (start.performAll sampleOps).Agreement (sampleOps.flatMap Op.offers) := by
  obtain ⟨start, hstart, hsize, hpoint⟩ := exists_eq_ok exists_sampleOps
  refine ⟨start, hstart, hsize, hpoint, limits_agree hstart fun op hop => ?_⟩
  simp only [sampleOps, List.mem_cons, List.not_mem_nil, or_false] at hop
  rcases hop with rfl | rfl | rfl | rfl | rfl | rfl | rfl | rfl | rfl | rfl
  all_goals first | exact trivial | rfl

end Search

end BranchBound
