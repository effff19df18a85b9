import BranchBound.Proofs.Node.Opening
import BranchBound.Proofs.Search.Agreement
import BranchBound.Proofs.Search.Balance
import BranchBound.Proofs.Search.Recording

/-! # Optimal within the tolerances

A search leaves nodes unresolved if they score at or above its threshold: they are refused by the
frontier, fathomed by a better incumbent, or reported as dominated. The incumbent may become better
after that, and the threshold falls with it, as long as the relative tolerance is at most one. So
what was left unresolved still scores at or above the last threshold, apart from the nodes that were
dropped, and the bound of an exhausted search that dropped none is within the tolerances of its
incumbent.

* **`Settings.DescendsPast`** — thresholds fall below a limit for good, as they do if the relative
  tolerance is at most one (`Extended.descendsPast_of_le_one`).
* **`Serial.DropsBetween`** — the nodes that are dropped between two runs, by their scores.
* **`Search.Limited`** — what the search left unresolved scores at or above a limit, as long as the
  threshold does, or was dropped.
* **`Serial.value_sub_bound_le`** — a search that ends with a status of global optimality and has
  dropped no node is optimal within its tolerances. -/

namespace BranchBound

variable {σ α : Type} [Scalar α]

/-- What is at most two values is at most the smaller of them. -/
theorem Scalar.le_least {x y z : α} (hx : z ≤ x) (hy : z ≤ y) : z ≤ Scalar.least x y := by
  rcases Scalar.least_eq_or x y with heq | heq <;> rw [heq]
  · exact hx
  · exact hy

/-! ## Thresholds that fall -/

/-- Once the threshold of an incumbent is below a limit, that of any better one is. -/
def Settings.DescendsPast (settings : Settings α) (limit : α) : Prop :=
  ∀ ⦃v w : α⦄, v ≤ w →
    limit ≤ toleranceAdjusted v settings.relTolerance settings.absTolerance →
    limit ≤ toleranceAdjusted w settings.relTolerance settings.absTolerance

namespace Extended

variable {K : Type} [Field K] [LinearOrder K] [FloorRing K]

/-- Tolerances that are points take a point off a point. -/
theorem toleranceAdjusted_point (v rel abs : K) :
    toleranceAdjusted (point v) (point rel) (point abs)
      = point (v - max abs (rel * |v|)) := by
  show point v - Scalar.greatest (point abs) (point (rel * |v|)) = _
  rw [greatest_point, sub_point]
  rfl

/-- A value that is no point is its own threshold. -/
theorem toleranceAdjusted_of_not_finite {v rel abs : Extended K} (h : Scalar.isFinite v = false) :
    toleranceAdjusted v rel abs = v := by
  rw [toleranceAdjusted, if_neg (by rw [h]; exact Bool.false_ne_true)]

variable [IsStrictOrderedRing K]

omit [IsStrictOrderedRing K] in
/-- A lower incumbent has a lower threshold if that is so of points. -/
theorem toleranceAdjusted_le_of_points {v w : Extended K} {rel abs : K} (h : v ≤ w)
    (hpoints : ∀ q q' : K, w = point q' → q ≤ q' →
      q - max abs (rel * |q|) ≤ q' - max abs (rel * |q'|)) :
    toleranceAdjusted v (point rel) (point abs) ≤ toleranceAdjusted w (point rel) (point abs) := by
  have hdef : ∀ x : Extended K, Scalar.isNaN x = false →
      Scalar.isNaN (toleranceAdjusted x (point rel) (point abs)) = false := by
    intro x hx
    cases x with
    | undefined => exact hx
    | point q => rw [toleranceAdjusted_point]; rfl
    | _ => rfl
  have hvdef := Scalar.Ordered.isNaN_left_of_le h
  have hwdef := Scalar.Ordered.isNaN_right_of_le h
  -- an infinite value is adjusted to itself, so that only points are left to compare
  cases v with
  | undefined => cases hvdef
  | bottom => exact Scalar.Ordered.neg_infinity_le (hdef w hwdef)
  | top =>
    cases eq_of_same ⟨h, Scalar.Ordered.le_infinity hwdef⟩
    exact Scalar.Ordered.le_refl rfl
  | point q =>
    cases w with
    | undefined => cases hwdef
    | bottom => simp [isRank.le_iff, rank?] at h
    | top => exact Scalar.Ordered.le_infinity (hdef (point q) rfl)
    | point q' =>
      rw [toleranceAdjusted_point, toleranceAdjusted_point, point_le_point]
      exact hpoints q q' rfl (point_le_point.mp h)

/-- A lower incumbent has a lower threshold if the relative tolerance is at most one. -/
theorem toleranceAdjusted_mono {v w : Extended K} {rel abs : K} (hrel : 0 ≤ rel) (hone : rel ≤ 1)
    (h : v ≤ w) :
    toleranceAdjusted v (point rel) (point abs) ≤ toleranceAdjusted w (point rel) (point abs) := by
  refine toleranceAdjusted_le_of_points h fun q q' _ hle => ?_
  -- the tolerance grows by no more than the incumbent does
  have habs : |q'| - |q| ≤ q' - q := by
    have htriangle := abs_sub_abs_le_abs_sub q' q
    rwa [abs_of_nonneg (sub_nonneg.mpr hle)] at htriangle
  have hscaled : rel * |q'| - rel * |q| ≤ q' - q := by
    rw [← mul_sub]
    rcases le_total 0 (|q'| - |q|) with hnonneg | hneg
    · exact (mul_le_of_le_one_left hnonneg hone).trans habs
    · exact (mul_nonpos_of_nonneg_of_nonpos hrel hneg).trans (sub_nonneg.mpr hle)
  have hmax : max abs (rel * |q'|) ≤ max abs (rel * |q|) + (q' - q) := by
    refine max_le ?_ ?_
    · exact (le_max_left _ _).trans (le_add_of_nonneg_right (sub_nonneg.mpr hle))
    · have hright := le_max_right abs (rel * |q|)
      linarith
  linarith

/-! ### Valid settings -/

variable {settings : Settings (Extended K)}

omit [IsStrictOrderedRing K] in
/-- The tolerances of valid settings are points that are not negative. -/
theorem exists_tolerances (h : settings.validate = .ok ()) :
    ∃ rel abs : K, settings.relTolerance = .point rel ∧ settings.absTolerance = .point abs
      ∧ 0 ≤ rel := by
  obtain ⟨⟨habs, -⟩, hrel, hnonneg⟩ := Settings.tolerances_of_validate h
  obtain ⟨rel, hrel⟩ := Extended.isFinite_iff.mp hrel
  obtain ⟨abs, habs⟩ := Extended.isFinite_iff.mp habs
  refine ⟨rel, abs, hrel, habs, not_lt.mp fun hlt => hnonneg ?_⟩
  rw [hrel]
  exact Extended.point_lt_point.mpr hlt

/-- Thresholds fall below any limit for good if the relative tolerance is at most one. -/
theorem descendsPast_of_le_one (h : settings.validate = .ok ())
    (hone : settings.relTolerance ≤ 1) (limit : Extended K) : settings.DescendsPast limit := by
  obtain ⟨rel, abs, hrel, habs, hnonneg⟩ := exists_tolerances h
  rw [hrel] at hone
  intro v w hvw hlimit
  rw [hrel, habs] at hlimit ⊢
  exact Scalar.Ordered.le_trans hlimit
    (Extended.toleranceAdjusted_mono hnonneg (Extended.point_le_point.mp hone) hvw)

end Extended

/-! ## Dropped nodes -/

namespace Search

variable {s : Search α} {solvers : Solvers σ α}

/-- Recording a report drops no node. -/
theorem dropped_record (s : Search α) (r : Report α) :
    (s.record r).2.stats.dropped = s.stats.dropped := by
  show (s.account r).stats.dropped = s.stats.dropped
  rw [account_eq]
  split
  · next c _ =>
    by_cases hlt : c.value < (s.counted r).incumbent.value
    · rw [offer_of_lt hlt, stats_noteDiscarded]
      rfl
    · rw [offer_of_not_lt hlt]
      rfl
  · rfl

/-- Counting a fathomed node drops none. -/
theorem dropped_countFathomed (s : Search α) (r : Report α) :
    (s.countFathomed r).stats.dropped = s.stats.dropped := by
  unfold countFathomed
  dsimp only
  split
  · rw [stats_noteDiscarded]
  · rfl

/-- Branching a node drops it if that is what comes of it. -/
theorem dropped_branched (s : Search α) (r : Report α)
    (b : Brancher α) (outcome : Brancher.Branching) :
    (s.branched r b outcome).stats.dropped
      = s.stats.dropped + if outcome = .dropped then 1 else 0 := by
  cases outcome with
  | dropped =>
    rw [branched, stats_noteDiscarded]
    rfl
  | _ => rfl

/-- No operation of the serial search takes back the count of dropped nodes. -/
theorem dropped_perform_le {op : Op α} (hop : s.Grounded solvers op) :
    s.stats.dropped ≤ (s.perform op).stats.dropped := by
  -- only a node that is branched can be dropped, and branching counts it
  cases op with
  | record r => exact (s.dropped_record r).ge
  | countFathomed r => exact (s.dropped_countFathomed r).ge
  | settle r =>
    rcases hsettle : s.settle r with ⟨e | stage, t⟩
    · show s.stats.dropped ≤ (s.settle r).2.stats.dropped
      rw [hsettle, (settle_error hsettle).1]
    · show s.stats.dropped ≤ (s.settle r).2.stats.dropped
      rw [hsettle]
      cases settlement hsettle with
      | fathomed => exact (s.dropped_countFathomed r).ge
      | twice => exact Nat.le_refl _
      | branched =>
        rw [dropped_branched]
        exact Nat.le_add_right _ _
  | offer | apply | cancel => exact hop.elim
  | countDropped => exact Nat.le_succ _
  | _ => exact Nat.le_refl _

end Search

namespace Serial

variable {solvers : Solvers σ α} {run mid after last : Run σ α} {score : α}

/-- A round drops the node of its report as too small. The node scores `score`. -/
def Drops (solvers : Solvers σ α) (run : Run σ α) (score : α) : Prop :=
  ∃ s r, Settles solvers run s r ∧ (s.settle r).1 = .ok .dropped ∧ r.node.score = score

/-- A round between two runs drops a node of this score. -/
def DropsBetween (solvers : Solvers σ α) (run last : Run σ α) (score : α) : Prop :=
  ∃ mid after, Rounds solvers run mid ∧ Drops solvers mid score
    ∧ (round solvers).exec mid = (.ok none, after) ∧ Rounds solvers after last

/-- What was dropped stays so in further rounds. -/
theorem DropsBetween.tail (h : DropsBetween solvers run mid score)
    (hround : (round solvers).exec mid = (.ok none, last)) :
    DropsBetween solvers run last score := by
  obtain ⟨before, after, hbefore, hdrops, hdropping, hafter⟩ := h
  exact ⟨before, after, hbefore, hdrops, hdropping, hafter.tail hround⟩

variable [Scalar.Ordered α]

/-- No round takes back the count of dropped nodes. -/
theorem dropped_rounds_le (h : Rounds solvers run last)
    (hs : run.search.brancher.frontier.Consistent)
    (hdef : Scalar.isNaN run.search.incumbent.value = false) :
    run.search.stats.dropped ≤ last.search.stats.dropped :=
  grounded_rounds (I := fun s => run.search.stats.dropped ≤ s.stats.dropped)
    (fun _ _ hle hop => hle.trans (Search.dropped_perform_le hop)) h hs hdef (Nat.le_refl _)

/-- What was dropped is counted. -/
theorem DropsBetween.dropped_pos (h : DropsBetween solvers run last score)
    (hs : run.search.brancher.frontier.Consistent)
    (hdef : Scalar.isNaN run.search.incumbent.value = false) : 0 < last.search.stats.dropped := by
  obtain ⟨mid, after, hbefore, ⟨s, r, hsettles, hdropped, -⟩, hround, hafter⟩ := h
  obtain ⟨_, _, _, counted, -, -, -, hcounted, hsearch⟩ := hsettles
  cases hround.symm.trans hcounted
  obtain ⟨hconsistent, hdefined⟩ := consistent_rounds (hbefore.tail hround) hs hdef
  -- it was counted in its round, and no later round takes it back
  refine Nat.lt_of_lt_of_le ?_ (dropped_rounds_le hafter hconsistent hdefined)
  rcases hsettle : s.settle r with ⟨answer, t⟩
  rw [hsettle] at hdropped hsearch
  obtain rfl : answer = .ok .dropped := hdropped
  rw [hsearch]
  generalize hstage : Stage.dropped = stage at hsettle
  cases Search.settlement hsettle with
  | fathomed | twice => cases hstage
  | @branched _ _ outcome b =>
    cases outcome with
    | dropped =>
      rw [Search.dropped_branched]
      exact Nat.succ_pos _
    | _ => cases hstage

end Serial

/-! ## What is left unresolved -/

variable {limit : α}

section Refused

variable [Scalar.Ordered α]

/-- Offering a node refuses none that scores below a limit, as long as the threshold does not. -/
theorem Frontier.le_lowestRefused_insert {f : Frontier α} (n : OpenNode α)
    (hlimit : limit ≤ f.adjustedThreshold) (h : limit ≤ f.lowestRefused) :
    limit ≤ (f.insert n).2.lowestRefused := by
  unfold Frontier.insert
  split
  · next hdominates =>
    exact Scalar.le_least h (Scalar.Ordered.le_trans hlimit (of_decide_eq_true hdominates))
  · exact h

/-- Neither does branching a node. -/
theorem Brancher.Branched.le_lowestRefused {b c : Brancher α} {parent : Node α} {point : List α}
    {objective : α} {outcome : Branching} (hb : Branched b parent point objective outcome c)
    (hlimit : limit ≤ b.frontier.adjustedThreshold) (h : limit ≤ b.frontier.lowestRefused) :
    limit ≤ c.frontier.lowestRefused := by
  cases hb with
  | dropped => exact h
  | requeued => exact Frontier.le_lowestRefused_insert _ hlimit h
  | @split i v hv down up d hsplit =>
    have hids : b.frontier.SameLimits d.frontier := by
      rw [split_brancher hsplit]
      exact ⟨rfl, rfl, rfl⟩
    have hd : limit ≤ d.frontier.lowestRefused := by
      rw [split_brancher hsplit]
      exact h
    rw [← hids.adjustedThreshold] at hlimit
    -- the children are offered one after the other, under the same limits
    have hdown := Frontier.le_lowestRefused_insert down hlimit hd
    rw [← (d.frontier.sameLimits_insert down).adjustedThreshold] at hlimit
    exact Frontier.le_lowestRefused_insert up hlimit hdown

/-- The nodes that a lower threshold fathoms score at or above it. -/
theorem Frontier.Consistent.le_lowerThreshold {f : Frontier α} (hf : f.Consistent) {threshold : α}
    (hdef : Scalar.isNaN limit = false)
    (hlimit : limit ≤ (f.lowerThreshold threshold).2.adjustedThreshold) :
    limit ≤ (f.lowerThreshold threshold).1 := by
  by_cases hignored : Scalar.isNaN threshold = true ∨ f.threshold < threshold
  · rw [lowerThreshold_of_ignored hignored]
    exact Scalar.Ordered.le_infinity hdef
  · rw [lowerThreshold_of_not_ignored hignored] at hlimit ⊢
    rcases (hf.isLowest_fathomFrom threshold).attained with ⟨m, -, hdominates, heq⟩ | ⟨heq, -⟩
    · rw [← heq]
      exact Scalar.Ordered.le_trans hlimit (of_decide_eq_true hdominates)
    · rw [heq]
      exact Scalar.Ordered.le_infinity hdef

end Refused

namespace Search

variable {s t : Search α} {r : Report α} {solvers : Solvers σ α} {n : Node α}
  {Dropped : α → Prop}

/-- As long as the threshold of a search is not below a limit, neither is any score that the search
left unresolved, unless it is that of a dropped node. -/
structure Limited (s : Search α) (limit : α) (Dropped : α → Prop) : Prop where
  /-- The frontier fathoms against the cutoff of the search. -/
  agrees : s.Agrees
  /-- The threshold falls below the limit for good. -/
  descends : s.settings.DescendsPast limit
  /-- No node was refused that scores below the limit. -/
  refused : limit ≤ s.cutoff.threshold → limit ≤ s.brancher.frontier.lowestRefused
  /-- None was discarded that does, unless it was dropped. -/
  discarded : limit ≤ s.cutoff.threshold → limit ≤ s.discarded ∨ Dropped s.discarded

/-- The agreement of incumbent, threshold and cutoff does not depend on a score that is kept. -/
theorem Agrees.of_noteDiscarded {score : α} (h : (s.noteDiscarded score).Agrees) : s.Agrees :=
  h.of_eq (s.settings_noteDiscarded score).symm (incumbent_noteDiscarded score).symm
    (congrArg Brancher.frontier (brancher_noteDiscarded score)).symm

/-- What was left unresolved depends on the scores that are kept. -/
theorem Limited.of_eq (h : s.Limited limit Dropped) (hagrees : t.Agrees)
    (hsettings : t.settings = s.settings) (hincumbent : t.incumbent = s.incumbent)
    (hrefused : limit ≤ s.cutoff.threshold → limit ≤ s.brancher.frontier.lowestRefused →
      limit ≤ t.brancher.frontier.lowestRefused)
    (hdiscarded : t.discarded = s.discarded) : t.Limited limit Dropped := by
  have hcutoff : t.cutoff = s.cutoff := by rw [cutoff, cutoff, hincumbent, hsettings]
  refine ⟨hagrees, hsettings ▸ h.descends, fun hlimit => ?_, fun hlimit => ?_⟩ <;>
    rw [hcutoff] at hlimit
  · exact hrefused hlimit (h.refused hlimit)
  · rw [hdiscarded]
    exact h.discarded hlimit

/-- Keeping a score that is not below the limit, or is that of a dropped node. -/
theorem Limited.noteDiscarded (h : s.Limited limit Dropped) {score : α}
    (hscore : limit ≤ s.cutoff.threshold → limit ≤ score ∨ Dropped score) :
    (s.noteDiscarded score).Limited limit Dropped := by
  have hagrees := h.agrees.noteDiscarded score
  unfold Search.noteDiscarded at hagrees ⊢
  split
  · exact h
  · next hdef =>
    rw [if_neg hdef] at hagrees
    refine ⟨hagrees, h.descends, h.refused, fun hlimit => ?_⟩
    have hkept := h.discarded hlimit
    have hnoted := hscore hlimit
    -- the lowest score is one of the two
    show limit ≤ Scalar.least s.discarded score ∨ Dropped (Scalar.least s.discarded score)
    rcases Scalar.least_eq_or s.discarded score with heq | heq <;> rw [heq]
    · exact hkept
    · exact hnoted

/-- Counting a fathomed node, which scores at or above the limit if it was dominated. -/
theorem Limited.countFathomed (h : s.Limited limit Dropped)
    (hr : r.stage = .fathomed .valueDominated → limit ≤ s.cutoff.threshold →
      limit ≤ r.node.score) : (s.countFathomed r).Limited limit Dropped := by
  have hcounted :
      ({ s with stats.fathomed := s.stats.fathomed + 1 } : Search α).Limited limit Dropped :=
    h.of_eq (h.agrees.of_eq rfl rfl rfl) rfl rfl (fun _ hle => hle) rfl
  unfold Search.countFathomed
  dsimp only
  split
  · next hstage => exact hcounted.noteDiscarded fun hlimit => .inl (hr hstage hlimit)
  · exact hcounted

variable [Scalar.Congruent α]

/-- A node that is recorded as dominated scores at or above the limit. -/
theorem Limited.le_of_recorded (h : s.Limited limit Dropped) (hr : s.Recorded solvers n r)
    (hstage : r.stage = .fathomed .valueDominated) (hlimit : limit ≤ s.cutoff.threshold) :
    limit ≤ r.node.score := by
  obtain ⟨v, hv, hscore⟩ := hr.dominated hstage
  exact Scalar.Ordered.le_trans (h.descends hv hlimit) hscore

/-- Offering a point: the nodes it fathoms score at or above the limit, as long as the new threshold
does. -/
theorem Limited.offer (h : s.Limited limit Dropped) (c : Candidate α) :
    (s.offer c).2.Limited limit Dropped := by
  by_cases hlt : c.value < s.incumbent.value
  · have hagrees := h.agrees.offer c
    rw [offer_of_lt hlt] at hagrees ⊢
    have hbefore : limit ≤ (s.adopt c).cutoff.threshold → limit ≤ s.cutoff.threshold :=
      h.descends (Scalar.le_of_lt hlt)
    have hadopted : (s.adopt c).Agrees := Agrees.of_noteDiscarded hagrees
    have hadopt : (s.adopt c).Limited limit Dropped := by
      refine ⟨hadopted, h.descends, fun hlimit => ?_, fun hlimit => h.discarded (hbefore hlimit)⟩
      show limit ≤ (s.brancher.frontier.lowerThreshold c.value).2.lowestRefused
      rw [Frontier.lowestRefused_lowerThreshold]
      exact h.refused (hbefore hlimit)
    -- the scores that the new threshold fathoms are above it, and it is above the limit
    refine hadopt.noteDiscarded fun hlimit => .inl ?_
    have hthreshold := Scalar.Ordered.le_trans hlimit hadopted.same_threshold.2
    exact h.agrees.consistent.le_lowerThreshold (Scalar.Ordered.isNaN_left_of_le hlimit) hthreshold
  · rw [offer_of_not_lt hlt]
    exact h

/-- Recording a report. -/
theorem Limited.record (h : s.Limited limit Dropped) (r : Report α) :
    (s.record r).2.Limited limit Dropped := by
  have hcounted : (s.counted r).Limited limit Dropped :=
    h.of_eq (h.agrees.of_eq rfl rfl rfl) rfl rfl (fun _ hle => hle) rfl
  have haccount : (s.account r).Limited limit Dropped := by
    rw [account_eq]
    split
    · exact hcounted.offer _
    · exact hcounted
  have hfrontier := (confirm_frontier (s.account r).brancher r.node.id r.node).1
  refine haccount.of_eq (h.agrees.record r) rfl rfl (fun _ hle => ?_) rfl
  show limit ≤ ((s.account r).brancher.confirm r.node.id r.node).2.frontier.lowestRefused
  rw [hfrontier]
  exact hle

/-- Acting on a recorded report, whose node may be dropped. -/
theorem Limited.settle (h : s.Limited limit Dropped) (hr : s.Recorded solvers n r)
    (hscore : r.stage = .postprocessed → Scalar.isNaN r.node.score = false)
    (hdrops : (s.settle r).1 = .ok .dropped → Dropped r.node.score) :
    (s.settle r).2.Limited limit Dropped := by
  have hagrees := h.agrees.settle hscore
  rcases hsettle : s.settle r with ⟨e | stage, t⟩
  · rw [(settle_error hsettle).1]
    exact h
  · rw [hsettle] at hagrees hdrops
    cases settlement hsettle with
    | fathomed => exact h.countFathomed fun hstage hlimit => h.le_of_recorded hr hstage hlimit
    | twice => exact h.of_eq hagrees rfl rfl (fun _ hle => hle) rfl
    | @branched _ _ outcome b hb =>
      have hrefused : limit ≤ s.cutoff.threshold →
          limit ≤ s.brancher.frontier.lowestRefused → limit ≤ b.frontier.lowestRefused :=
        fun hlimit hle => (Brancher.branch_cases hb).2.le_lowestRefused
          (Scalar.Ordered.le_trans hlimit h.agrees.same_threshold.2) hle
      cases outcome with
      | requeued => exact h.of_eq hagrees rfl rfl hrefused rfl
      | split => exact h.of_eq hagrees rfl rfl hrefused rfl
      | dropped =>
        have hdropped : ({ s with brancher := b } : Search α).countDropped.Limited limit Dropped :=
          h.of_eq (Agrees.of_noteDiscarded hagrees) rfl rfl hrefused rfl
        -- the score of a dropped node is the only one that may be below the limit
        exact hdropped.noteDiscarded fun _ => .inr (hdrops rfl)

/-- A node that is recorded as one that has to be branched has a defined score. -/
theorem Recorded.defined (h : s.Recorded solvers n r) (hs : solvers.Tighten Node.KeepsDefined)
    (hstage : r.stage = .postprocessed) : Scalar.isNaN r.node.score = false := by
  obtain ⟨cutoff, memory, after, hreturns, -⟩ := h
  exact processNode_defined hs hreturns hstage

/-- The operations of the serial search, of which only acting on a report drops a node for its
score. -/
theorem Limited.perform (h : s.Limited limit Dropped) (hs : solvers.Tighten Node.KeepsDefined)
    {op : Op α} (hop : s.Grounded solvers op)
    (hdrops : ∀ r ∈ op.settled?, (s.settle r).1 = .ok .dropped → Dropped r.node.score) :
    (s.perform op).Limited limit Dropped := by
  cases op with
  | record r => exact h.record r
  | settle r =>
    obtain ⟨n, hr⟩ := hop
    exact h.settle hr (hr.defined hs) (hdrops r rfl)
  | countFathomed r =>
    obtain ⟨n, hr⟩ := hop
    exact h.countFathomed fun hstage hlimit => h.le_of_recorded hr hstage hlimit
  | offer | apply | cancel => exact hop.elim
  | atTime => exact h.of_eq (h.agrees.perform trivial) rfl rfl (fun _ hle => hle) rfl
  | countBranched => exact h.of_eq (h.agrees.perform trivial) rfl rfl (fun _ hle => hle) rfl
  | countDropped => exact h.of_eq (h.agrees.perform trivial) rfl rfl (fun _ hle => hle) rfl
  | next =>
    refine h.of_eq (h.agrees.perform trivial) rfl rfl (fun _ hle => ?_) rfl
    show limit ≤ s.brancher.next.2.frontier.lowestRefused
    rcases s.brancher.next_cases with ⟨-, hnext⟩ | ⟨m, f, hpop, hnext⟩ <;> rw [hnext]
    · exact hle
    · obtain ⟨slot, -, -, rfl⟩ := Frontier.pop?_eq_some hpop
      exact hle
  | strongChildren r =>
    refine h.of_eq (h.agrees.perform trivial) rfl rfl (fun _ hle => ?_) rfl
    obtain ⟨id, hfrontier, -⟩ := s.brancher.allChildren_frontier r.node r.point
    show limit ≤ (s.brancher.allChildren r.node r.point).2.frontier.lowestRefused
    rw [hfrontier]
    exact hle
  | insertEvaluated m =>
    -- the child has to be branched, so that its score is defined
    obtain ⟨n, r, hr, hstage, rfl⟩ := hop
    refine h.of_eq (h.agrees.perform (hr.defined hs hstage)) rfl rfl (fun hlimit hle => ?_) rfl
    rw [Search.perform]
    rcases s.insertEvaluated_cases r.node with hsame | hqueued
    · rw [hsame]
      exact hle
    · rw [hqueued]
      refine
        Frontier.le_lowestRefused_insert (f := s.brancher.frontier.reserveIds r.node.id) _ ?_ hle
      rw [(Frontier.sameLimits_reserveIds _ _).adjustedThreshold]
      exact Scalar.Ordered.le_trans hlimit h.agrees.same_threshold.2

/-- Nothing is left unresolved at the start of a search. -/
theorem Limited.new {vars : List (Variable α)} {settings : Settings α} {start : Search α}
    (hstart : Search.new vars settings = .ok start) (hdescends : settings.DescendsPast limit) :
    start.Limited limit Dropped := by
  have hagrees := Agrees.new hstart
  have hsettings := (new_frame hstart).2.2
  obtain ⟨valid, -, rfl⟩ := new_eq hstart
  have hbelow : ∀ {x : α}, limit ≤ x → limit ≤ Scalar.infinity := fun hle =>
    Scalar.Ordered.le_infinity (Scalar.Ordered.isNaN_left_of_le hle)
  refine ⟨hagrees, hsettings ▸ hdescends, fun hlimit => ?_, fun hlimit => .inl (hbelow hlimit)⟩
  have hthreshold := Scalar.Ordered.le_trans hlimit hagrees.same_threshold.2
  rw [(Frontier.sameLimits_insert _ _).adjustedThreshold] at hthreshold
  refine Frontier.le_lowestRefused_insert _ hthreshold ?_
  rw [Brancher.lowestRefused_opening]
  exact hbelow hlimit

end Search

/-! ## Searches that end with an empty tree -/

namespace Search

variable {s : Search α} {status : Status}

/-- A search is over with an exhausted status if no node is open, and then the status says whether a
point is known. -/
theorem size_of_exhausted (hcheck : s.check none = some status)
    (hstatus : status.isExhaustive = true) :
    s.brancher.frontier.size = 0 ∧ status = s.exhaustedStatus := by
  have hwarrants := warrants_of_check hcheck
  cases status with
  | globallyOptimal => exact ⟨hwarrants.1.1, (if_pos hwarrants.2).symm⟩
  | infeasible => exact ⟨hwarrants.1.1, (if_neg hwarrants.2).symm⟩
  | _ => cases hstatus

/-- The bound of a search whose tree is empty is not below a limit if its threshold is not and no
node was dropped. -/
theorem Limited.le_provenBound [Scalar.Ordered α] {Dropped : α → Prop}
    (h : s.Limited limit Dropped) (hsize : s.brancher.frontier.size = 0)
    (hdropped : ∀ score, ¬ Dropped score) (hlimit : limit ≤ s.cutoff.threshold) :
    limit ≤ s.provenBound none := by
  have hempty : s.brancher.frontier.toList = [] := by
    have hheap : s.brancher.frontier.heap = #[] := Array.size_eq_zero_iff.mp hsize
    rw [Frontier.toList, hheap]
    rfl
  have hopen : s.openBound none = Scalar.infinity := by
    show s.brancher.frontier.lowestScore = _
    rw [Frontier.lowestScore, hempty]
    rfl
  have hdiscarded := (h.discarded hlimit).resolve_right (hdropped _)
  refine Scalar.le_least (Scalar.le_least ?_ hdiscarded) (h.refused hlimit)
  rw [hopen]
  exact Scalar.Ordered.le_infinity (Scalar.Ordered.isNaN_left_of_le hlimit)

end Search

namespace Serial

variable {solvers : Solvers σ α} {run last : Run σ α}

/-- A search that ends with a status did so in its last round. -/
theorem exists_rounds_of_solve [Scalar.Ordered α] {vars : List (Variable α)}
    {settings : Settings α} {start : Search α} {memory left : σ} {solution : Solution α}
    (hstart : Search.new vars settings = .ok start)
    (hsolve : solve solvers vars settings memory = (.ok solution, left))
    (hstatus : solution.status ≠ .failed) :
    ∃ last : Run σ α, Rounds solvers ⟨start, memory⟩ last
      ∧ (now solvers last).check none = some solution.status
      ∧ solution = (now solvers last).solution solution.status .complete none := by
  obtain ⟨last, after, hrounds, hends⟩ := exists_last_round solvers ⟨start, memory⟩
  rw [solve_eq, hstart] at hsolve
  dsimp only at hsolve
  unfold outcome at hsolve
  -- a round that fails leaves the status of failure
  rcases hends with ⟨status, hround, hsearch⟩ | ⟨failure, -, hsearch⟩
  · rw [hsearch] at hsolve
    cases hsolve
    have hrounded := exec_round solvers last
    rw [hround] at hrounded
    cases hrounded with
    | ended hcheck => exact ⟨last, hrounds, hcheck, rfl⟩
  · rw [hsearch] at hsolve
    cases failure with
    | crash => cases hsolve
    | error e =>
      cases hsolve
      exact absurd rfl hstatus

/-- Rounds keep the settings. -/
theorem settings_rounds (h : Rounds solvers run last) :
    last.search.settings = run.search.settings := by
  induction h with
  | refl => rfl
  | @tail mid after _ hround ih =>
    have hlater := (later_round solvers mid).2
    rw [hround] at hlater
    exact hlater.trans ih

/-- A round leaves no node unresolved that scores below a limit, as long as the threshold does not,
apart from the node that it drops. -/
theorem limited_round [Scalar.Congruent α] {Dropped : α → Prop}
    (hs : solvers.Tighten Node.KeepsDefined) (hround : (round solvers).exec run = (.ok none, last))
    (hdrops : ∀ score, Drops solvers run score → Dropped score)
    (h : run.search.Limited limit Dropped) : last.search.Limited limit Dropped :=
  grounded_round (I := fun s => s.Limited limit Dropped)
    (fun s _ hlimited hop hsettles => hlimited.perform hs hop fun r hr hdropped =>
      hdrops _ ⟨s, r, hsettles r hr, hdropped, rfl⟩)
    hround h.agrees.consistent h.agrees.defined h

/-- So do any rounds, apart from the nodes that they drop. -/
theorem limited_rounds [Scalar.Congruent α] {Dropped : α → Prop}
    (hs : solvers.Tighten Node.KeepsDefined) (hrounds : Rounds solvers run last)
    (hdrops : ∀ score, DropsBetween solvers run last score → Dropped score)
    (h : run.search.Limited limit Dropped) : last.search.Limited limit Dropped := by
  induction hrounds with
  | refl => exact h
  | tail hmid hround ih =>
    refine limited_round hs hround (fun score hdropped => ?_)
      (ih fun score hdropped => hdrops score (hdropped.tail hround))
    exact hdrops score ⟨_, _, hmid, hdropped, hround, .refl⟩

/-- A search that ends as globally optimal and has dropped no node is optimal within its tolerances,
if the relative one is at most one: the best value is above the bound by no more than the greater of
the absolute tolerance and the relative one times its size. It does not matter what the solvers
answer as long as tightening a node leaves its score alone. -/
theorem value_sub_bound_le {K : Type} [Field K] [LinearOrder K] [FloorRing K]
    [IsStrictOrderedRing K] {solvers : Solvers σ (Extended K)} {vars : List (Variable (Extended K))}
    {settings : Settings (Extended K)} {memory left : σ} {solution : Solution (Extended K)}
    (hs : solvers.Tighten fun m n => m.score = n.score)
    (hsolve : solve solvers vars settings memory = (.ok solution, left))
    (hstatus : solution.status = .globallyOptimal) (hrel : settings.relTolerance ≤ 1)
    (hdropped : solution.stats.dropped = 0) (hvalue : Scalar.isFinite solution.value = true) :
    solution.value - solution.lowerBound
      ≤ Scalar.greatest settings.absTolerance
          (settings.relTolerance * Scalar.abs solution.value) := by
  cases hstart : Search.new vars settings with
  | error e =>
    rw [solve_eq, hstart] at hsolve
    cases hsolve
  | ok start =>
    have hvalid := Search.validate_of_new hstart
    obtain ⟨last, hrounds, hcheck, hsolution⟩ :=
      exists_rounds_of_solve hstart hsolve (by rw [hstatus]; decide)
    rw [hstatus] at hcheck
    have hfinal : last.search.settings = settings :=
      (settings_rounds hrounds).trans (Search.new_frame hstart).2.2
    have hincumbent : solution.value = last.search.incumbent.value :=
      congrArg Solution.value hsolution
    have hbound : solution.lowerBound
        = Scalar.least (last.search.provenBound none) last.search.incumbent.value :=
      congrArg Solution.lowerBound hsolution
    have hstats : solution.stats = last.search.stats := congrArg Solution.stats hsolution
    obtain ⟨v, hv⟩ := Extended.isFinite_iff.mp hvalue
    obtain ⟨rel, abs, hr, ha, hnonneg⟩ := Extended.exists_tolerances hvalid
    -- the limit is the threshold of the last incumbent
    have hagrees := Search.Agrees.new hstart
    have hlimited := limited_rounds (hs.mono fun _ _ => Node.keepsDefined_of_score) hrounds
      (fun _ hdrop => hdrop.dropped_pos hagrees.consistent hagrees.defined)
      (Search.Limited.new hstart (Extended.descendsPast_of_le_one hvalid hrel
        last.search.cutoff.threshold))
    have hthreshold : last.search.cutoff.threshold = .point (v - max abs (rel * |v|)) := by
      rw [Cutoff.threshold, Search.cutoff, hfinal, ← hincumbent, hv, hr, ha,
        Extended.toleranceAdjusted_point]
    have hproven : last.search.cutoff.threshold ≤ last.search.provenBound none :=
      hlimited.le_provenBound (Search.size_of_exhausted hcheck rfl).1
        (fun _ hpos => Nat.ne_of_gt hpos (hstats ▸ hdropped))
        (Scalar.Ordered.le_refl (by rw [hthreshold]; rfl))
    have hmax : 0 ≤ max abs (rel * |v|) := le_max_of_le_right (mul_nonneg hnonneg (abs_nonneg v))
    have hlow : Extended.point (v - max abs (rel * |v|)) ≤ solution.lowerBound := by
      rw [hthreshold] at hproven
      rw [hbound, ← hincumbent, hv]
      exact Scalar.le_least hproven (Extended.point_le_point.mpr (sub_le_self v hmax))
    have hhigh : solution.lowerBound ≤ Extended.point v := by
      rw [hbound, ← hincumbent, hv]
      exact Scalar.least_le_right rfl
    obtain ⟨l, hl⟩ := Extended.exists_point_of_between hlow hhigh
    rw [hl] at hlow ⊢
    rw [hv, hr, ha, Extended.sub_point]
    show Extended.point (v - l) ≤ Scalar.greatest (.point abs) (.point (rel * |v|))
    rw [Extended.greatest_point, Extended.point_le_point]
    have hle := Extended.point_le_point.mp hlow
    linarith

/-- Solvers that tighten the first child of the root to a box without a whole number, and solve the
second one. -/
def fractionalSolvers : Solvers Unit (Extended ℚ) where
  preprocess n _ :=
    pure (false, if n.id = 1 then { n with box := ⟨[.point (2 / 5)], [.point (3 / 5)]⟩ } else n)
  lower n _ := pure (.ofBound (if n.id = 2 then 1 else -1) [])
  upper n _ incumbent :=
    pure (if n.id = 2 then (UpperAnswer.ofPoint 1 [.point 2] incumbent).markConverged
      else .notFound)

/-- The nodes that are dropped cannot be left out, even if the size tolerance is zero: the box of
the first child holds no point, and yet its score stays in the bound. -/
theorem exceeds_fractionalSolvers :
    ∃ solution ∈ (solve fractionalSolvers Async.sampleVars Settings.standard ()).1.toOption,
      solution.status = .globallyOptimal ∧ solution.stats.dropped = 1
        ∧ solution.value = 1 ∧ solution.lowerBound = -1 := by
  decide +kernel

end Serial

end BranchBound
