import BranchBound.Proofs.Brancher.Choosing
import BranchBound.Proofs.Brancher.Means
import BranchBound.Proofs.Search.Start

/-! # The best dimension

The choice of the dimension to split goes through the dimensions that can be split and keeps one of
two at a time. Under pseudocosts the scores are compared as they are, and so the first of the best
dimensions is chosen. Under a rule by diameter a tie is decided by the relaxed values, which may
favour the dimension that scores a little less. One tie may follow another, and the dimension that
is chosen may fall short of the best one by more than a tie; it cannot by more than one tie for each
dimension that it is held against.

* **`Brancher.Eligible`**, **`Brancher.rating`** — the dimensions that can be split, and what they
  score.
* **`Brancher.FirstBest`** — the first of the best dimensions; `Brancher.firstBest_of_choose`.
* **`Brancher.choose_best`** — the dimension that is chosen, under every rule.
* **`Brancher.choose_chained`** — two ties in a row. -/

namespace BranchBound

namespace Brancher

section Ratings

variable {α : Type} [Scalar α]

/-- A dimension can be split: the box has a width in it and, under the rule by relative diameter, so
has the domain. -/
structure Eligible (b : Brancher α) (box : Box α) (i : ℕ) (v : Variable α) : Prop where
  /-- The dimension is that of a variable. -/
  variable_eq : b.vars[i]? = some v
  /-- The box has a width. -/
  wide : 0 < box.width i
  /-- The domain has a width, where it counts. -/
  domain : b.rule = .relativeDiameter → 0 < v.width

/-- What a dimension scores: its priority times the product score of the improvements that the
pseudocosts promise, times the width of the box, or times its width relative to the domain. -/
def rating (b : Brancher α) (box : Box α) (point : List α) (i : ℕ) (v : Variable α) : α :=
  match b.rule with
  | .pseudocost =>
      let (below, above) :=
        moves v.kind (relaxedValue box i point) (box.lowerAt i) (box.upperAt i)
      v.priority
        * productScore (b.pseudocosts.upEstimate i * above) (b.pseudocosts.downEstimate i * below)
  | .absoluteDiameter => v.priority * box.width i
  | .relativeDiameter => v.priority * box.width i / v.width

variable {b : Brancher α} {box : Box α} {point : List α} {i : ℕ}

/-- The dimensions are gone through in ascending order. -/
theorem pairwise_candidates (b : Brancher α) (box : Box α) (point : List α) :
    (b.candidates box point).Pairwise (·.1 < ·.1) := by
  have hindices : b.vars.zipIdx.Pairwise (·.2 < ·.2) := by
    rw [← List.pairwise_map, List.zipIdx_map_snd]
    exact List.pairwise_lt_range' 1
  refine hindices.filterMap _ fun x y hlt f hf g hg => ?_
  obtain ⟨_, -, rfl⟩ := Option.map_eq_some_iff.mp hf
  obtain ⟨_, -, rfl⟩ := Option.map_eq_some_iff.mp hg
  exact hlt

/-- No dimension is chosen just if none can be split. -/
theorem choose_eq_none_iff : b.choose box point = none ↔ b.candidates box point = [] := by
  constructor
  · intro hnone
    by_contra hsome
    obtain ⟨_, -, hchoose⟩ := exists_choose hsome
    rw [hnone] at hchoose
    cases hchoose
  · intro hnone
    rw [choose, hnone]
    rfl

/-! ## The first of the best dimensions -/

/-- No dimension scores more than this one, and those before it score less. -/
def FirstBest (found : List (ℕ × α)) (best : ℕ × α) : Prop :=
  ∃ before after, found = before ++ best :: after
    ∧ (∀ f ∈ before, ¬ best.2 ≤ f.2) ∧ ∀ f ∈ after, ¬ best.2 < f.2

variable [Scalar.Ordered α] {found : List (ℕ × α)} {best next : ℕ × α}

omit [Scalar.Ordered α] in
/-- It is one of them. -/
theorem FirstBest.mem (h : FirstBest found best) : best ∈ found := by
  obtain ⟨before, after, rfl, -⟩ := h
  exact List.mem_append_right _ List.mem_cons_self

/-- None scores more, wherever it comes. -/
theorem FirstBest.not_lt (h : FirstBest found best) {f : ℕ × α} (hf : f ∈ found) :
    ¬ best.2 < f.2 := by
  obtain ⟨before, after, rfl, hbefore, hafter⟩ := h
  rcases List.mem_append.mp hf with hf | hf
  · exact fun hlt => hbefore f hf (Scalar.le_of_lt hlt)
  · rcases List.mem_cons.mp hf with rfl | hf
    · exact fun hlt => Scalar.not_le_of_lt hlt (Scalar.le_of_lt hlt)
    · exact hafter f hf

omit [Scalar.Ordered α] in
/-- One that comes before it by its index scores less. -/
theorem FirstBest.not_le (h : FirstBest found best) (hsorted : found.Pairwise (·.1 < ·.1))
    {f : ℕ × α} (hf : f ∈ found) (hlt : f.1 < best.1) : ¬ best.2 ≤ f.2 := by
  obtain ⟨before, after, rfl, hbefore, -⟩ := h
  obtain ⟨-, htail, -⟩ := List.pairwise_append.mp hsorted
  rcases List.mem_append.mp hf with hf | hf
  · exact hbefore f hf
  · rcases List.mem_cons.mp hf with rfl | hf
    · exact absurd hlt (Nat.lt_irrefl _)
    · exact absurd hlt (List.rel_of_pairwise_cons htail hf).asymm

/-- One more dimension takes its place if it scores more. -/
theorem FirstBest.snoc (h : FirstBest found best) (next : ℕ × α) :
    FirstBest (found ++ [next]) (if best.2 < next.2 then next else best) := by
  split
  · next hlt =>
    -- one that reached the new dimension would have outscored the best one so far
    refine ⟨found, [], rfl, fun f hf hle => ?_, nofun⟩
    exact h.not_lt hf (Scalar.lt_of_lt_of_le hlt hle)
  · next hnot =>
    obtain ⟨before, after, rfl, hbefore, hafter⟩ := h
    refine ⟨before, after ++ [next], by rw [List.append_assoc, List.cons_append], hbefore, ?_⟩
    intro f hf
    rcases List.mem_append.mp hf with hf | hf
    · exact hafter f hf
    · rwa [List.mem_singleton.mp hf]

omit [Scalar.Ordered α] in
/-- Under pseudocosts a dimension takes the place of the best one if it scores more. -/
theorem better_pseudocost (best next : ℕ × α) :
    better .pseudocost box point (some best) next
      = some (if best.2 < next.2 then next else best) := by
  have hsupersedes : supersedes .pseudocost box point best next = decide (best.2 < next.2) :=
    if_neg fun htie => htie.1 rfl
  rw [better, hsupersedes]
  by_cases hlt : best.2 < next.2
  · rw [if_pos (decide_eq_true hlt), if_pos hlt]
  · rw [if_neg (fun htrue => hlt (of_decide_eq_true htrue)), if_neg hlt]

/-- Going through further dimensions finds the first of the best of all. -/
theorem FirstBest.foldl (h : FirstBest found best) (box : Box α) (point : List α)
    (rest : List (ℕ × α)) :
    ∃ kept, rest.foldl (better .pseudocost box point) (some best) = some kept
      ∧ FirstBest (found ++ rest) kept := by
  induction rest generalizing found best with
  | nil => exact ⟨best, rfl, by rwa [List.append_nil]⟩
  | cons next rest ih =>
    rw [List.foldl_cons, better_pseudocost, List.append_cons]
    exact ih (h.snoc next)

/-- Under pseudocosts the first of the best dimensions is chosen. -/
theorem firstBest_of_choose (hrule : b.rule = .pseudocost) (h : b.choose box point = some i) :
    ∃ score, FirstBest (b.candidates box point) (i, score) := by
  obtain ⟨best, rest, kept, hlist, rfl, hfold⟩ := exists_kept_of_choose h
  have hfirst : FirstBest [best] best := ⟨[], [], rfl, nofun, nofun⟩
  obtain ⟨last, hlast, hbest⟩ := hfirst.foldl box point rest
  rw [hrule, hlast] at hfold
  cases hfold
  exact ⟨kept.2, hlist ▸ hbest⟩

end Ratings

end Brancher

/-! ## Scores as points of the field -/

/-- All averages are finite. -/
def Pseudocosts.Finite {α : Type} [Scalar α] (p : Pseudocosts α) : Prop :=
  ∀ a ∈ p.up ++ p.down, Scalar.isFinite a.mean = true

variable {K : Type} [Field K] [LinearOrder K] [FloorRing K]

/-- The product score of points is a point. -/
theorem exists_productScore (up down : K) :
    ∃ q, productScore (.point up : Extended K) (.point down) = .point q := by
  unfold productScore
  rcases Scalar.greatest_eq_or (.point up : Extended K) (.point down) with hmax | hmax <;>
    rcases Scalar.least_eq_or (.point up : Extended K) (.point down) with hmin | hmin <;>
      rw [hmax, hmin] <;> exact ⟨_, rfl⟩

/-- The mean of finite averages is a point. -/
theorem Average.exists_meanOfTried {averages : List (Average (Extended K))}
    (h : ∀ a ∈ averages, Scalar.isFinite a.mean = true) :
    ∃ q, Average.meanOfTried averages = .point q := by
  -- the sum is generalized over what was added up before
  have hsum : ∀ (tried : List (Average (Extended K))) (q : K),
      (∀ a ∈ tried, Scalar.isFinite a.mean = true) →
      ∃ r, tried.foldl (fun sum a => sum + a.mean) (.point q) = .point r := by
    intro tried
    induction tried with
    | nil => exact fun q _ => ⟨q, rfl⟩
    | cons a rest ih =>
      intro q htried
      rw [List.forall_mem_cons] at htried
      obtain ⟨r, hr⟩ := Extended.isFinite_iff.mp htried.1
      rw [List.foldl_cons, hr]
      exact ih (q + r) htried.2
  unfold Average.meanOfTried
  dsimp only
  split
  · exact ⟨0, rfl⟩
  · next hnonempty =>
    obtain ⟨r, hr⟩ := hsum (averages.filter (0 < ·.trials)) 0 fun a ha =>
      h a (List.mem_filter.mp ha).1
    have hcount : ((averages.filter (0 < ·.trials)).length : K) ≠ 0 := by
      rw [Nat.cast_ne_zero, ne_eq, List.length_eq_zero_iff]
      exact fun hnil => hnonempty (List.isEmpty_iff.mpr hnil)
    refine ⟨r / (averages.filter (0 < ·.trials)).length, ?_⟩
    rw [← Extended.div_point r hcount, ← hr]
    rfl

/-- So is the estimate for a variable. -/
theorem Average.exists_estimate {averages : List (Average (Extended K))}
    (h : ∀ a ∈ averages, Scalar.isFinite a.mean = true) (i : ℕ) :
    ∃ q, Average.estimate averages i = .point q := by
  unfold Average.estimate
  dsimp only
  split
  · next htried =>
    rw [List.getD_eq_getElem?_getD] at htried ⊢
    cases ha : averages[i]? with
    | none =>
      rw [ha] at htried
      exact absurd htried (Nat.lt_irrefl 0)
    | some a => exact Extended.isFinite_iff.mp (h a (List.mem_of_getElem? ha))
  · exact Average.exists_meanOfTried h

namespace Brancher

variable {b : Brancher (Extended K)} {box : Box (Extended K)} {point : List (Extended K)} {i : ℕ}
  {v : Variable (Extended K)}

/-- The width of a domain in standard form is a point. -/
theorem width_eq_span (h : v.Standard) : v.width = .point v.span := by
  obtain ⟨l, hl⟩ := Extended.isFinite_iff.mp h.isFinite_lower
  obtain ⟨u, hu⟩ := Extended.isFinite_iff.mp h.isFinite_upper
  rw [Variable.span, Variable.width, hl, hu, Extended.sub_point]
  rfl

/-- A dimension has a score just if it can be split, and then it is this one. -/
theorem dimensionScore?_eq_some_iff (hbox : box.Finite b.vars.length)
    (hv : b.vars[i]? = some v) (hstandard : v.Standard) {score : Extended K} :
    b.dimensionScore? box point i v = some score
      ↔ b.Eligible box i v ∧ b.rating box point i v = score := by
  have hwide : ¬ box.width i ≤ 0 ↔ 0 < box.width i := by
    rw [hbox.width_eq (List.getElem?_eq_some_iff.mp hv).1]
    exact ⟨Scalar.lt_of_not_le rfl rfl, Scalar.not_le_of_lt⟩
  have hdomain : ¬ v.width ≤ 0 ↔ 0 < v.width := by
    rw [width_eq_span hstandard]
    exact ⟨Scalar.lt_of_not_le rfl rfl, Scalar.not_le_of_lt⟩
  unfold dimensionScore? rating
  dsimp only
  -- the first check is that of the width in the box, the second that of the domain
  by_cases hnarrow : box.width i ≤ 0
  · rw [if_pos hnarrow]
    exact ⟨nofun, fun h => absurd hnarrow (hwide.mpr h.1.wide)⟩
  · have heligible : b.Eligible box i v ↔ (b.rule = .relativeDiameter → 0 < v.width) :=
      ⟨fun h => h.domain, fun h => ⟨hv, hwide.mp hnarrow, h⟩⟩
    rw [if_neg hnarrow, heligible]
    cases b.rule with
    | pseudocost | absoluteDiameter => exact ⟨fun h => ⟨nofun, Option.some.inj h⟩,
        fun h => congrArg some h.2⟩
    | relativeDiameter =>
      dsimp only
      split
      · next hzero => exact ⟨nofun, fun h => absurd hzero (hdomain.mpr (h.1 rfl))⟩
      · next hpos => exact ⟨fun h => ⟨fun _ => hdomain.mp hpos, Option.some.inj h⟩,
          fun h => congrArg some h.2⟩

/-- The dimensions that the choice goes through are those that can be split, with their scores. -/
theorem mem_candidates_iff_eligible (hbox : box.Finite b.vars.length)
    (hvars : ∀ v ∈ b.vars, v.Standard) {found : ℕ × Extended K} :
    found ∈ b.candidates box point
      ↔ ∃ v, b.Eligible box found.1 v ∧ b.rating box point found.1 v = found.2 := by
  rw [mem_candidates_iff_score]
  refine exists_congr fun v => ⟨fun ⟨hv, hscore⟩ => ?_, fun h => ⟨h.1.variable_eq, ?_⟩⟩
  · exact (dimensionScore?_eq_some_iff hbox hv (hvars v (List.mem_of_getElem? hv))).mp hscore
  · have hv := h.1.variable_eq
    exact (dimensionScore?_eq_some_iff hbox hv (hvars v (List.mem_of_getElem? hv))).mpr h

/-- Every dimension that can be split is gone through. -/
theorem Eligible.mem_candidates (h : b.Eligible box i v) (hbox : box.Finite b.vars.length)
    (hvars : ∀ v ∈ b.vars, v.Standard) (point : List (Extended K)) :
    (i, b.rating box point i v) ∈ b.candidates box point :=
  (mem_candidates_iff_eligible hbox hvars).mpr ⟨v, h, rfl⟩

/-- Under pseudocosts the dimension that is chosen is the first of those that no other
outscores. -/
theorem first_of_choose (hbox : box.Finite b.vars.length) (hvars : ∀ v ∈ b.vars, v.Standard)
    (hrule : b.rule = .pseudocost) (h : b.choose box point = some i) :
    ∃ v, b.Eligible box i v ∧ ∀ j w, b.Eligible box j w →
      ¬ b.rating box point i v < b.rating box point j w
        ∧ (j < i → ¬ b.rating box point i v ≤ b.rating box point j w) := by
  obtain ⟨score, hbest⟩ := firstBest_of_choose hrule h
  obtain ⟨v, hv, hscore⟩ := (mem_candidates_iff_eligible hbox hvars).mp hbest.mem
  obtain rfl : b.rating box point i v = score := hscore
  refine ⟨v, hv, fun j w hw => ?_⟩
  have hlisted := hw.mem_candidates hbox hvars point
  exact ⟨hbest.not_lt hlisted, hbest.not_le (pairwise_candidates b box point) hlisted⟩

variable [IsStrictOrderedRing K]

/-- Under pseudocosts all scores are points if the averages are finite. -/
theorem Eligible.exists_rating (h : b.Eligible box i v) (hrule : b.rule = .pseudocost)
    (hbox : box.Finite b.vars.length) (hpriority : Scalar.isFinite v.priority = true)
    (hfinite : b.pseudocosts.Finite) : ∃ q, b.rating box point i v = .point q := by
  have hi := (List.getElem?_eq_some_iff.mp h.variable_eq).1
  have hlt := (hbox.not_width_le_zero_iff hi).mp (Scalar.not_le_of_lt h.wide)
  -- every factor of the score is a point
  obtain ⟨p, hp⟩ := Extended.isFinite_iff.mp hpriority
  obtain ⟨x, hx, -⟩ := relaxedValue_between hbox hi hlt.le point
  obtain ⟨up, hup⟩ := Average.exists_estimate (i := i) fun a ha =>
    hfinite a (List.mem_append_left _ ha)
  obtain ⟨down, hdown⟩ := Average.exists_estimate (i := i) fun a ha =>
    hfinite a (List.mem_append_right _ ha)
  obtain ⟨q, hq⟩ := exists_productScore (up * v.kind.moved .up x (box.low i) (box.high i))
    (down * v.kind.moved .down x (box.low i) (box.high i))
  refine ⟨p * q, ?_⟩
  unfold rating
  rw [hrule, hx, hbox.lowerAt_eq hi, hbox.upperAt_eq hi, Confirmation.moves_point]
  dsimp only
  rw [Pseudocosts.upEstimate, Pseudocosts.downEstimate, hup, hdown, hp]
  exact congrArg (Extended.point p * ·) hq

/-- Under a rule by diameter the score is the width times its weight, which is not negative. -/
theorem Eligible.rating_eq (h : b.Eligible box i v) (hrule : b.rule ≠ .pseudocost)
    (hbox : box.Finite b.vars.length) (hstandard : v.Standard)
    (hpriority : Scalar.isFinite v.priority = true ∧ ¬ v.priority < 0) :
    b.rating box point i v = .point (weight b.rule v * box.span i)
      ∧ 0 ≤ weight b.rule v * box.span i := by
  have hi := (List.getElem?_eq_some_iff.mp h.variable_eq).1
  have hwidth : box.width i = .point (box.span i) := by
    rw [Box.span, hbox.width_eq hi]
    rfl
  have hpos : 0 < box.span i := Extended.point_lt_point.mp (hwidth ▸ h.wide)
  obtain ⟨p, hp⟩ := Extended.isFinite_iff.mp hpriority.1
  have hnonneg : 0 ≤ p := not_lt.mp fun hneg =>
    hpriority.2 (hp ▸ Extended.point_lt_point.mpr hneg)
  unfold rating weight
  rw [hp, hwidth]
  -- the weight is the priority, divided by the width of the domain under the relative rule
  cases hcase : b.rule with
  | pseudocost => exact absurd hcase hrule
  | absoluteDiameter =>
    rw [if_neg (show BranchingRule.absoluteDiameter ≠ .relativeDiameter by decide)]
    exact ⟨rfl, mul_nonneg hnonneg hpos.le⟩
  | relativeDiameter =>
    have hdomain : 0 < v.span :=
      Extended.point_lt_point.mp (width_eq_span hstandard ▸ h.domain hcase)
    rw [if_pos rfl, width_eq_span hstandard]
    refine ⟨?_, mul_nonneg (div_nonneg hnonneg hdomain.le) hpos.le⟩
    show Extended.point (p * box.span i) / .point v.span = _
    rw [Extended.div_point _ hdomain.ne', mul_div_right_comm]
    rfl

/-- Under a rule by diameter the dimension that is chosen scores almost as much as any other, up to
one tie for each further dimension. -/
theorem nearly_best_of_choose (hbox : box.Finite b.vars.length)
    (hvars : ∀ v ∈ b.vars, v.Standard ∧ Scalar.isFinite v.priority = true ∧ ¬ v.priority < 0)
    (hrule : b.rule ≠ .pseudocost) (h : b.choose box point = some i) :
    ∃ v, b.Eligible box i v ∧ ∃ p, b.rating box point i v = .point p
      ∧ ∀ j w, b.Eligible box j w → ∃ q, b.rating box point j w = .point q
        ∧ nearness K ^ ((b.candidates box point).length - 1) * q ≤ p := by
  have hstandard := fun v hv => (hvars v hv).1
  -- ties only lower a score by a factor if scores are not negative
  have hrating : ∀ {j w}, b.Eligible box j w → ∃ q, b.rating box point j w = .point q ∧ 0 ≤ q := by
    intro j w hw
    obtain ⟨hdomain, hpriority⟩ := hvars w (List.mem_of_getElem? hw.variable_eq)
    exact ⟨_, hw.rating_eq hrule hbox hdomain hpriority⟩
  have hscored : ∀ f ∈ b.candidates box point, Scored f := by
    intro f hf
    obtain ⟨v, hv, hscore⟩ := (mem_candidates_iff_eligible hbox hstandard).mp hf
    obtain ⟨q, hq, hnonneg⟩ := hrating hv
    rw [Scored, ← hscore, hq]
    exact ⟨rfl, hnonneg⟩
  obtain ⟨kept, hkept, rfl, hall⟩ := exists_near_of_choose hscored h
  obtain ⟨v, hv, hscore⟩ := (mem_candidates_iff_eligible hbox hstandard).mp hkept
  obtain ⟨p, hp, -⟩ := hrating hv
  refine ⟨v, hv, p, hp, fun j w hw => ?_⟩
  obtain ⟨q, hq, -⟩ := hrating hw
  have hle := hall _ (hw.mem_candidates hbox hstandard point)
  rw [← hscore, hp, hq] at hle
  exact ⟨q, hq, hle⟩

/-- No dimension is chosen just if none can be split. The one that is chosen can be split. Under
pseudocosts it is the first of those that no other outscores, and all scores are points of the field
if the averages are. Under a rule by diameter they always are, and none outscores the chosen
dimension by more than one tie for each further dimension that can be split. -/
theorem choose_best {vars : List (Variable (Extended K))}
    (hvars : vars.mapM Variable.validated = .ok b.vars) (hbox : box.Finite b.vars.length)
    (point : List (Extended K)) :
    (b.choose box point = none ↔ ∀ j w, ¬ b.Eligible box j w)
    ∧ ∀ i, b.choose box point = some i → ∃ v, b.Eligible box i v
      ∧ (b.rule = .pseudocost →
        (∀ j w, b.Eligible box j w →
          ¬ b.rating box point i v < b.rating box point j w
            ∧ (j < i → ¬ b.rating box point i v ≤ b.rating box point j w))
        ∧ (b.pseudocosts.Finite →
          ∀ j w, b.Eligible box j w → ∃ q, b.rating box point j w = .point q))
      ∧ (b.rule ≠ .pseudocost → ∃ p, b.rating box point i v = .point p
        ∧ ∀ j w, b.Eligible box j w → ∃ q, b.rating box point j w = .point q
          ∧ nearness K ^ ((b.candidates box point).length - 1) * q ≤ p) := by
  have hchecked : ∀ v ∈ b.vars, v.Standard
      ∧ Scalar.isFinite v.priority = true ∧ ¬ v.priority < 0 := by
    intro v hv
    obtain ⟨u, -, hu⟩ := forall_mem_of_mapM hvars v hv
    exact ⟨Variable.standard_of_validated hu, (Variable.validated_ok hu).2.1⟩
  have hstandard := fun v hv => (hchecked v hv).1
  refine ⟨?_, fun i hchoose => ?_⟩
  · rw [choose_eq_none_iff, List.eq_nil_iff_forall_not_mem]
    refine ⟨fun hnone j w hw => hnone _ (hw.mem_candidates hbox hstandard point), ?_⟩
    intro hnone found hfound
    obtain ⟨v, hv, -⟩ := (mem_candidates_iff_eligible hbox hstandard).mp hfound
    exact hnone found.1 v hv
  · -- the score of a product is compared as it is, that of a diameter up to a tie
    by_cases hrule : b.rule = .pseudocost
    · obtain ⟨v, hv, hfirst⟩ := first_of_choose hbox hstandard hrule hchoose
      refine ⟨v, hv, fun _ => ⟨hfirst, fun hfinite j w hw => ?_⟩, fun hnot => absurd hrule hnot⟩
      exact hw.exists_rating hrule hbox
        (hchecked w (List.mem_of_getElem? hw.variable_eq)).2.1 hfinite
    · obtain ⟨v, hv, hnear⟩ := nearly_best_of_choose hbox hchecked hrule hchoose
      exact ⟨v, hv, fun hpseudocost => absurd hpseudocost hrule, fun _ => hnear⟩

deriving instance DecidableEq for Variable

/-- A brancher over three variables, of which each is narrower than the one before it by a little
less than a tie. -/
def chainedBrancher : Brancher (Extended ℚ) where
  vars := [⟨0, 1, .continuous, 1, "x"⟩, ⟨0, .point (1 - 9 / 10 ^ 13), .continuous, 1, "y"⟩,
    ⟨0, .point (1 - 18 / 10 ^ 13), .continuous, 1, "z"⟩]
  frontier := .new .bestBound
  pseudocosts := .new 3
  waiting := []
  rule := .absoluteDiameter
  scoring := .lowBoundFirst

/-- The values of a relaxation, each farther from the bounds than the one before it. -/
def chainedPoint : List (Extended ℚ) := [.point (1 / 10), .point (2 / 10), .point (3 / 10)]

/-- The box of the root. -/
def chainedBox : Box (Extended ℚ) := (Node.root chainedBrancher.vars).box

/-- The variables are in standard form. -/
theorem validated_chainedBrancher :
    chainedBrancher.vars.mapM Variable.validated = .ok chainedBrancher.vars := by
  have hvalid : ∃ vars ∈ (chainedBrancher.vars.mapM Variable.validated).toOption,
      vars = chainedBrancher.vars := by decide +kernel
  obtain ⟨_, hvalid, rfl⟩ := exists_eq_ok hvalid
  exact hvalid

/-- The root has finite bounds. -/
theorem finite_chainedBox : chainedBox.Finite chainedBrancher.vars.length := by
  refine ⟨rfl, fun i hi => ?_, fun i hi => ?_⟩ <;>
    · change i < 3 at hi
      interval_cases i <;> rfl

/-- The last dimension is chosen, and falls short of the first by no more than two ties. -/
theorem choose_best_chained :
    chainedBrancher.vars.mapM Variable.validated = .ok chainedBrancher.vars
      ∧ chainedBox.Finite chainedBrancher.vars.length
      ∧ chainedBrancher.choose chainedBox chainedPoint = some 2
      ∧ ∃ v p, chainedBrancher.rating chainedBox chainedPoint 2 v = .point p
        ∧ nearness ℚ ^ 2 ≤ p := by
  have hchoose : chainedBrancher.choose chainedBox chainedPoint = some 2 := by decide +kernel
  obtain ⟨v, -, -, hnear⟩ :=
    (choose_best validated_chainedBrancher finite_chainedBox chainedPoint).2 2 hchoose
  obtain ⟨p, hp, hothers⟩ := hnear (by decide)
  obtain ⟨q, hq, hle⟩ := hothers 0 ⟨0, 1, .continuous, 1, "x"⟩ ⟨rfl, by decide +kernel, nofun⟩
  have hcount : (chainedBrancher.candidates chainedBox chainedPoint).length = 3 := by
    decide +kernel
  have hone : q = 1 := Extended.point.inj (hq.symm.trans (by decide +kernel))
  rw [hcount, hone, mul_one] at hle
  exact ⟨validated_chainedBrancher, finite_chainedBox, hchoose, v, p, hp, hle⟩

/-- It falls short by more than one tie. -/
theorem choose_chained :
    chainedBrancher.vars.mapM Variable.validated = .ok chainedBrancher.vars
      ∧ chainedBox.Finite chainedBrancher.vars.length
      ∧ chainedBrancher.choose chainedBox chainedPoint = some 2
      ∧ ∃ v w, chainedBrancher.Eligible chainedBox 2 v ∧ chainedBrancher.Eligible chainedBox 0 w
        ∧ chainedBrancher.rating chainedBox chainedPoint 2 v
          < .point (nearness ℚ) * chainedBrancher.rating chainedBox chainedPoint 0 w := by
  refine ⟨validated_chainedBrancher, finite_chainedBox, by decide +kernel, _, _,
    ⟨rfl, by decide +kernel, nofun⟩, ⟨rfl, by decide +kernel, nofun⟩, ?_⟩
  rw [nearness_eq]
  decide +kernel

end Brancher

end BranchBound
