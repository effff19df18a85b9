import BranchBound.Proofs.Frontier.Examining
import BranchBound.Proofs.Search.Tolerances

/-! # Thresholds that fall with the incumbent

A better incumbent is to fathom at least the nodes that a worse one does. The tolerances are taken
off the incumbent, though, and the relative one grows with its size: above one, it outweighs the
improvement of an incumbent that is large and positive. The threshold falls with the incumbent as
long as the relative tolerance is at most one, or stays below the absolute one.

* **`Settings.FallsFrom`** — the incumbents below which thresholds are lower.
* **`Cutoff.tightenAll`**, **`Frontier.Falls`** — what a run does to a cutoff and to a frontier.
* **`Extended.thresholds_fall`** — the incumbents are exactly these, and from them on no run takes
  back what was dominated.
* **`Extended.thresholds_rise_doubled`** — a node that a better incumbent does not dominate any
  more. -/

namespace BranchBound

variable {α : Type} [Scalar α]

/-! ## Runs -/

/-- A cutoff after some objective values. -/
def Cutoff.tightenAll (c : Cutoff α) (values : List α) : Cutoff α :=
  values.foldl (fun c value => (c.tighten value).2) c

/-- Objective values leave the tolerances alone, and the incumbent does not rise. -/
theorem Cutoff.tightenAll_eq [Scalar.Ordered α] {c : Cutoff α}
    (hdef : Scalar.isNaN c.incumbent = false) (values : List α) :
    ∃ v, v ≤ c.incumbent ∧ c.tightenAll values = { c with incumbent := v } := by
  induction values generalizing c with
  | nil => exact ⟨c.incumbent, Scalar.Ordered.le_refl hdef, rfl⟩
  | cons value rest ih =>
    show ∃ v, v ≤ c.incumbent ∧ (c.tighten value).2.tightenAll rest = _
    unfold tighten
    split
    · next hlt =>
      have hle := Scalar.le_of_lt hlt
      obtain ⟨v, hv, heq⟩ := @ih { c with incumbent := value }
        (Scalar.Ordered.isNaN_left_of_le hle)
      exact ⟨v, Scalar.Ordered.le_trans hv hle, heq⟩
    · exact ih hdef

namespace Frontier

variable {f g h : Frontier α} {op : Op α} {ops : List (Op α)}

/-- The request leaves the tolerances alone. -/
def Op.KeepsTolerances : Op α → Prop
  | .setTolerances _ _ => False
  | _ => True

/-- The tolerances are the same, and the threshold has not risen. -/
structure Falls (f g : Frontier α) : Prop where
  /-- The threshold is not higher. -/
  threshold : g.threshold ≤ f.threshold
  /-- The relative tolerance is the same. -/
  relTolerance : g.relTolerance = f.relTolerance
  /-- So is the absolute tolerance. -/
  absTolerance : g.absTolerance = f.absTolerance

variable [Scalar.Ordered α]

/-- What falls twice falls. -/
theorem Falls.trans (hfg : f.Falls g) (hgh : g.Falls h) : f.Falls h where
  threshold := Scalar.Ordered.le_trans hgh.threshold hfg.threshold
  relTolerance := hgh.relTolerance.trans hfg.relTolerance
  absTolerance := hgh.absTolerance.trans hfg.absTolerance

/-- Limits that do not change do not rise. -/
theorem SameLimits.falls (hfg : f.SameLimits g) (hdef : Scalar.isNaN f.threshold = false) :
    f.Falls g where
  threshold := by
    rw [hfg.threshold]
    exact Scalar.Ordered.le_refl hdef
  relTolerance := hfg.relTolerance
  absTolerance := hfg.absTolerance

/-- A request that leaves the tolerances alone does not raise the threshold. -/
theorem falls_step (hdef : Scalar.isNaN f.threshold = false) (hop : op.KeepsTolerances) :
    f.Falls (f.step op).2 := by
  rcases f.limits_step op with hsame | ⟨threshold, rfl, hsweeps, hsame⟩ | ⟨_, _, rfl⟩
  · exact hsame.falls hdef
  · obtain ⟨hdefined, hnot⟩ := not_or.mp hsweeps
    have hle : threshold ≤ f.threshold :=
      Scalar.le_of_not_lt hdef (Bool.eq_false_iff.mpr hdefined) hnot
    exact ⟨hsame.threshold ▸ hle, hsame.relTolerance, hsame.absTolerance⟩
  · exact hop.elim

/-- Neither do any such requests. -/
theorem falls_after (hdef : Scalar.isNaN f.threshold = false)
    (hops : ∀ op ∈ ops, op.KeepsTolerances) : f.Falls (f.after ops) := by
  induction ops generalizing f with
  | nil => exact (SameLimits.refl f).falls hdef
  | cons op rest ih =>
    have hstep := falls_step hdef (hops op List.mem_cons_self)
    refine hstep.trans (ih ?_ fun x hx => hops x (List.mem_cons_of_mem _ hx))
    exact Scalar.Ordered.isNaN_left_of_le hstep.threshold

end Frontier

/-! ## Tolerances -/

/-- The relative tolerance is at most one, or what it takes off an incumbent is at most what the
absolute one does. An incumbent that is no number is its own threshold. -/
def Settings.FallsFrom (settings : Settings α) (incumbent : α) : Prop :=
  settings.relTolerance ≤ 1 ∨ Scalar.isFinite incumbent = false
    ∨ settings.relTolerance * incumbent ≤ settings.absTolerance

/-- The cutoff of an incumbent under settings. -/
def Settings.cutoffFrom (settings : Settings α) (incumbent : α) : Cutoff α :=
  ⟨incumbent, settings.relTolerance, settings.absTolerance⟩

variable {K : Type} [Field K] [LinearOrder K] [IsStrictOrderedRing K]

/-- As long as the absolute tolerance outweighs the relative one, a lower number stays lower under
the tolerances. -/
theorem sub_max_mul_abs_le {rel abs q q' : K} (hrel : 0 ≤ rel) (hsmall : rel * q' ≤ abs)
    (hle : q ≤ q') : q - max abs (rel * |q|) ≤ q' - max abs (rel * |q'|) := by
  have hscaled : rel * |q'| ≤ max abs (rel * |q|) := by
    rcases le_total 0 q' with hpos | hneg
    · rw [abs_of_nonneg hpos]
      exact hsmall.trans (le_max_left _ _)
    · -- below zero, a lower number has the greater size
      refine le_trans (mul_le_mul_of_nonneg_left ?_ hrel) (le_max_right _ _)
      rw [abs_of_nonpos hneg, abs_of_nonpos (hle.trans hneg)]
      exact neg_le_neg hle
  have hmax : max abs (rel * |q'|) ≤ max abs (rel * |q|) := max_le (le_max_left _ _) hscaled
  linarith

/-- If the relative tolerance is above one and outweighs the absolute one, the number at which they
are equal is lower, and higher under the tolerances. -/
theorem sub_max_mul_abs_lt {rel abs q : K} (habs : 0 ≤ abs) (hone : 1 < rel)
    (hlarge : abs < rel * q) :
    abs / rel ≤ q ∧ q - max abs (rel * |q|) < abs / rel - max abs (rel * |abs / rel|) := by
  have hrel : 0 < rel := zero_lt_one.trans hone
  have hlt : abs / rel < q := (div_lt_iff₀' hrel).mpr hlarge
  have hnonneg : 0 ≤ abs / rel := div_nonneg habs hrel.le
  refine ⟨hlt.le, ?_⟩
  rw [abs_of_nonneg hnonneg, abs_of_pos (hnonneg.trans_lt hlt), mul_div_cancel₀ abs hrel.ne',
    max_self, max_eq_right hlarge.le]
  have hgrowth := mul_pos (sub_pos.mpr hone) (sub_pos.mpr hlt)
  have hsplit : (rel - 1) * (q - abs / rel) = rel * q - abs - (q - abs / rel) := by
    rw [sub_mul, one_mul, mul_sub, mul_div_cancel₀ abs hrel.ne']
  linarith

namespace Extended

variable [FloorRing K] {settings : Settings (Extended K)} {a b : Extended K}

omit [IsStrictOrderedRing K] in
/-- The absolute tolerance of valid settings is not negative. -/
theorem absTolerance_nonneg (hvalid : settings.validate = .ok ()) {abs : K}
    (habs : settings.absTolerance = point abs) : 0 ≤ abs := by
  refine not_lt.mp fun hneg => (Settings.tolerances_of_validate hvalid).1.2 ?_
  rw [habs]
  exact point_lt_point.mpr hneg

/-- Below such an incumbent, thresholds are lower. -/
theorem toleranceAdjusted_le_of_fallsFrom (hvalid : settings.validate = .ok ())
    (h : settings.FallsFrom b) (hab : a ≤ b) :
    toleranceAdjusted a settings.relTolerance settings.absTolerance
      ≤ toleranceAdjusted b settings.relTolerance settings.absTolerance := by
  obtain ⟨rel, abs, hrel, habs, hnonneg⟩ := exists_tolerances hvalid
  unfold Settings.FallsFrom at h
  rw [hrel, habs] at h ⊢
  rcases h with hone | hsmall
  · exact toleranceAdjusted_mono hnonneg (point_le_point.mp hone) hab
  · refine toleranceAdjusted_le_of_points hab fun q q' hb hle => ?_
    rw [hb] at hsmall
    have hpoints := hsmall.resolve_left nofun
    exact sub_max_mul_abs_le hnonneg (point_le_point.mp hpoints) hle

/-- Below any other incumbent there is one whose threshold is higher. -/
theorem exists_toleranceAdjusted_lt (hvalid : settings.validate = .ok ())
    (h : ¬ settings.FallsFrom b) :
    ∃ a ≤ b, toleranceAdjusted b settings.relTolerance settings.absTolerance
      < toleranceAdjusted a settings.relTolerance settings.absTolerance := by
  obtain ⟨rel, abs, hrel, habs, -⟩ := exists_tolerances hvalid
  have habs0 := absTolerance_nonneg hvalid habs
  unfold Settings.FallsFrom at h
  rw [hrel, habs, not_or, not_or, Bool.not_eq_false] at h
  obtain ⟨hone, hfinite, hlarge⟩ := h
  obtain ⟨q, rfl⟩ := isFinite_iff.mp hfinite
  have hone : 1 < rel := not_le.mp fun hle => hone (point_le_point.mpr hle)
  have hlarge : abs < rel * q := not_le.mp fun hle => hlarge (point_le_point.mpr hle)
  obtain ⟨hle, hlt⟩ := sub_max_mul_abs_lt habs0 hone hlarge
  refine ⟨point (abs / rel), point_le_point.mpr hle, ?_⟩
  rw [hrel, habs, toleranceAdjusted_point, toleranceAdjusted_point]
  exact point_lt_point.mpr hlt

omit [IsStrictOrderedRing K] in
/-- Tolerances of valid settings are taken as they are. -/
theorem setTolerances_of_valid (hvalid : settings.validate = .ok ())
    (f : Frontier (Extended K)) :
    f.setTolerances settings.relTolerance settings.absTolerance
      = { f with
          relTolerance := settings.relTolerance
          absTolerance := settings.absTolerance } := by
  obtain ⟨⟨habs, habs0⟩, hrel, hrel0⟩ := Settings.tolerances_of_validate hvalid
  unfold Frontier.setTolerances
  rw [eq_of_same (Scalar.same_greatest_zero hrel hrel0),
    eq_of_same (Scalar.same_greatest_zero habs habs0)]

/-- Under valid settings, thresholds fall with the incumbent from some incumbent on just if the
relative tolerance is at most one or takes off that incumbent at most what the absolute one does.
From there on no cutoff that is tightened, and no frontier whose threshold is lowered, has a higher
threshold than before, so that what they dominate stays dominated. -/
theorem thresholds_fall (hvalid : settings.validate = .ok ()) :
    (∀ b, settings.FallsFrom b ↔
      ∀ a ≤ b, toleranceAdjusted a settings.relTolerance settings.absTolerance
        ≤ toleranceAdjusted b settings.relTolerance settings.absTolerance)
    ∧ (∀ incumbent before later, Scalar.isNaN incumbent = false →
      let c := (settings.cutoffFrom incumbent).tightenAll before
      settings.FallsFrom c.incumbent → (c.tightenAll later).threshold ≤ c.threshold
        ∧ ∀ score, c.dominates score = true → (c.tightenAll later).dominates score = true)
    ∧ ∀ (f : Frontier (Extended K)) before later, Scalar.isNaN f.threshold = false →
      (∀ op ∈ before ++ later, op.KeepsTolerances) →
      let g := (f.setTolerances settings.relTolerance settings.absTolerance).after before
      settings.FallsFrom g.threshold → (g.after later).adjustedThreshold ≤ g.adjustedThreshold
        ∧ ∀ score, g.dominates score = true → (g.after later).dominates score = true := by
  refine ⟨fun b => ⟨fun h _ => toleranceAdjusted_le_of_fallsFrom hvalid h, fun hfalls => ?_⟩,
    ?_, ?_⟩
  · -- anywhere else, the incumbent at which the tolerances are equal has a higher threshold
    by_contra hrises
    obtain ⟨a, hab, hlt⟩ := exists_toleranceAdjusted_lt hvalid hrises
    exact Scalar.not_le_of_lt hlt (hfalls a hab)
  · -- a cutoff keeps its tolerances, and its incumbent only falls
    intro incumbent before later hdef c h
    obtain ⟨v, hv, hc⟩ := Cutoff.tightenAll_eq (show Scalar.isNaN
      (settings.cutoffFrom incumbent).incumbent = false from hdef) before
    have hc : c = settings.cutoffFrom v := hc
    rw [hc] at h ⊢
    obtain ⟨w, hw, hd⟩ := Cutoff.tightenAll_eq (show Scalar.isNaN
      (settings.cutoffFrom v).incumbent = false from Scalar.Ordered.isNaN_left_of_le hv) later
    rw [hd]
    have hle := toleranceAdjusted_le_of_fallsFrom hvalid h hw
    exact ⟨hle, fun score hdom =>
      decide_eq_true (Scalar.Ordered.le_trans hle (of_decide_eq_true hdom))⟩
  · -- so does a frontier with its threshold
    intro f before later hdef hops g h
    have hstart := setTolerances_of_valid hvalid f
    have hdef' : Scalar.isNaN
        (f.setTolerances settings.relTolerance settings.absTolerance).threshold = false := hdef
    have hbefore := Frontier.falls_after hdef' fun op hop => hops op (List.mem_append_left _ hop)
    have hlater := Frontier.falls_after (Scalar.Ordered.isNaN_left_of_le hbefore.threshold)
      fun op hop => hops op (List.mem_append_right _ hop)
    have hrel : g.relTolerance = settings.relTolerance := by rw [hbefore.relTolerance, hstart]
    have habs : g.absTolerance = settings.absTolerance := by rw [hbefore.absTolerance, hstart]
    have hle : (g.after later).adjustedThreshold ≤ g.adjustedThreshold := by
      unfold Frontier.adjustedThreshold
      rw [hlater.relTolerance, hlater.absTolerance, hrel, habs]
      exact toleranceAdjusted_le_of_fallsFrom hvalid h hlater.threshold
    exact ⟨hle, fun score hdom => Frontier.dominates_eq_true.mpr
      (Scalar.Ordered.le_trans hle (Frontier.dominates_eq_true.mp hdom))⟩

/-- The standard settings with a relative tolerance of two and no absolute one. -/
def doubledSettings : Settings (Extended ℚ) := Settings.standard.withTolerances (point 2) 0

/-- The settings are valid. -/
theorem validate_doubledSettings : doubledSettings.validate = .ok () := by
  have hfault : doubledSettings.fault?.isNone = true := by decide +kernel
  rw [Settings.validate, Option.isNone_iff_eq_none.mp hfault]

/-- A node without dimensions. -/
def scoredNode (score : ℚ) (id : ℕ) : OpenNode (Extended ℚ) :=
  ⟨⟨point score, ⟨[], []⟩, none, id, 0, false⟩, point (-score), .unsplit⟩

/-- Requests that lower the threshold to minus one while two nodes are open, one of which is
dominated then. -/
def loweringRequests : List (Frontier.Op (Extended ℚ)) :=
  [.insert (scoredNode (-4) 1), .lowerThreshold (point 2), .insert (scoredNode (-3) 2),
    .lowerThreshold (point (-1))]

/-- Requests after which the other one is dominated as well. -/
def loweringFurther : List (Frontier.Op (Extended ℚ)) :=
  [.insert (scoredNode (-2) 3), .lowerThreshold (point 0), .lowerThreshold (point (-2))]

/-- Below an incumbent of minus one, thresholds fall under these settings as well. A cutoff whose
incumbent is lowered to it, and a frontier whose threshold is, go on dominating a score of minus
three. -/
theorem thresholds_fall_doubled :
    let c := (doubledSettings.cutoffFrom (point 2)).tightenAll [point 1, point (-1)]
    let d := c.tightenAll [point 0, point (-2)]
    let f := (Frontier.new .bestBound).setTolerances doubledSettings.relTolerance
      doubledSettings.absTolerance
    let g := f.after loweringRequests
    let h := g.after loweringFurther
    doubledSettings.validate = .ok () ∧ ¬ doubledSettings.relTolerance ≤ 1
      ∧ doubledSettings.FallsFrom (point (-1))
      ∧ (∀ a ≤ point (-1), toleranceAdjusted a doubledSettings.relTolerance
        doubledSettings.absTolerance ≤ toleranceAdjusted (point (-1))
          doubledSettings.relTolerance doubledSettings.absTolerance)
      ∧ (c.incumbent = point (-1) ∧ d.threshold ≤ c.threshold
        ∧ c.dominates (point (-3)) = true ∧ d.dominates (point (-3)) = true)
      ∧ g.threshold = point (-1) ∧ g.size = 1 ∧ h.size = 0
      ∧ h.adjustedThreshold ≤ g.adjustedThreshold
      ∧ g.dominates (point (-3)) = true ∧ h.dominates (point (-3)) = true := by
  intro c d f g h
  obtain ⟨heverywhere, hcutoff, hfrontier⟩ := thresholds_fall validate_doubledSettings
  have hfalls : doubledSettings.FallsFrom (point (-1)) := .inr (.inr (by decide +kernel))
  have hc : c.incumbent = point (-1) := by decide +kernel
  have hg : g.threshold = point (-1) := by decide +kernel
  have hops : ∀ op ∈ loweringRequests ++ loweringFurther, op.KeepsTolerances := by
    simp [loweringRequests, loweringFurther, Frontier.Op.KeepsTolerances]
  obtain ⟨hlower, hkept⟩ : d.threshold ≤ c.threshold ∧ _ :=
    hcutoff (point 2) [point 1, point (-1)] [point 0, point (-2)] rfl (hc.symm ▸ hfalls)
  obtain ⟨hlowerOpen, hkeptOpen⟩ : h.adjustedThreshold ≤ g.adjustedThreshold ∧ _ :=
    hfrontier (Frontier.new .bestBound) loweringRequests loweringFurther rfl hops
      (hg.symm ▸ hfalls)
  have hdom : c.dominates (point (-3)) = true := by decide +kernel
  have hdomOpen : g.dominates (point (-3)) = true := by decide +kernel
  exact ⟨validate_doubledSettings, by decide +kernel, hfalls, (heverywhere _).mp hfalls,
    ⟨hc, hlower, hdom, hkept _ hdom⟩, hg, by decide +kernel, by decide +kernel, hlowerOpen,
    hdomOpen, hkeptOpen _ hdomOpen⟩

/-- An incumbent of two dominates a score that the better incumbent of one does not. -/
theorem thresholds_rise_doubled :
    doubledSettings.validate = .ok () ∧ point 1 ≤ point (2 : ℚ)
      ∧ toleranceAdjusted (point 2) doubledSettings.relTolerance doubledSettings.absTolerance
        < toleranceAdjusted (point 1) doubledSettings.relTolerance doubledSettings.absTolerance
      ∧ (doubledSettings.cutoffFrom (point 2)).dominates (point (-3 / 2)) = true
      ∧ ((doubledSettings.cutoffFrom (point 2)).tighten (point 1)).2.dominates (point (-3 / 2))
        = false :=
  ⟨validate_doubledSettings, by decide +kernel⟩

end Extended

end BranchBound
