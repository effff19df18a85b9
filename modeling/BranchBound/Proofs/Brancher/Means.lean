import BranchBound.Proofs.Brancher.Averages
import BranchBound.Proofs.Brancher.Pedigree

/-! # What a brancher has learned

The averages of a brancher are updated when a node comes back, from what was remembered of the node
and from the threshold at that moment. Over a whole run they are the means of samples, one for each
node that came out of a split and was confirmed, and that counts: its variable moved, and its score
was finite when the node was handed out and when it came back. Nodes that were cancelled, or queued
once more, leave no trace.

* **`Confirmation.Counts`**, **`Confirmation.sample`** — which confirmed nodes count, and what as.
* **`Chronicle.Taught`** — the averages are updated by the samples one after the other;
  `Chronicle.Taught.run`.
* **`Chronicle.Averaged`**, **`Chronicle.AveragedIn`** — the averages are means of samples, in
  general and in the field if all nodes that were split have finite bounds;
  `Chronicle.means_run`. -/

namespace BranchBound

section Samples

variable {α : Type} [Scalar α]

namespace Confirmation

/-- What was remembered of the node. -/
def entry (r : Confirmation α) : HandedOut α := ⟨r.node.score, r.node.history⟩

/-- The score that the node has reached, at most the threshold. -/
def realized (r : Confirmation α) : α := Scalar.least r.processed r.threshold

/-- How far the variable of the split moved on a side. -/
def move (r : Confirmation α) (v : Variable α) (side : Side) : α :=
  Brancher.realizedMove v side r.node.history

/-- The distance to the threshold that was left when the node was handed out, if it is finite and
positive; one otherwise. -/
def left (r : Confirmation α) : α :=
  if Scalar.isFinite (r.threshold - r.node.score) ∧ 0 < r.threshold - r.node.score
  then r.threshold - r.node.score else 1

/-- The improvement of the score, per unit that the variable moved and relative to the distance that
was left. -/
def sample (r : Confirmation α) (v : Variable α) (side : Side) : α :=
  Scalar.greatest (r.realized - r.node.score) 0 / r.move v side / r.left

/-- A variable that moved by no more than this hardly moved. -/
def leastMove : α := Scalar.ofDecimal (.tenths 1 12)

/-- The variable moved, and the scores are finite. -/
def Counts (r : Confirmation α) (v : Variable α) (side : Side) : Prop :=
  ¬ r.move v side ≤ leastMove ∧ Scalar.isFinite r.node.score = true
    ∧ Scalar.isFinite r.realized = true

instance (r : Confirmation α) (v : Variable α) (side : Side) : Decidable (r.Counts v side) :=
  inferInstanceAs (Decidable (¬ _ ≤ _ ∧ _ = true ∧ _ = true))

/-- What the node was remembered by, and the score that it came back with. -/
def passage (r : Confirmation α) : HandedOut α × α := (r.entry, r.processed)

/-- A confirmed node that counts is learned from, and no other one is. -/
theorem sample?_eq (r : Confirmation α) (v : Variable α) (side : Side) :
    Brancher.sample? r.threshold (r.move v side) r.node.score r.processed
      = if r.Counts v side then some (r.sample v side) else none := by
  unfold Brancher.sample?
  by_cases hcounts : r.Counts v side
  · obtain ⟨hmoved, hscore, hrealized⟩ := id hcounts
    rw [if_pos hcounts, if_neg]
    · rfl
    · rintro (hle | hinfinite | hinfinite)
      · exact hmoved hle
      · rw [hscore] at hinfinite
        cases hinfinite
      · change (!Scalar.isFinite r.realized) = true at hinfinite
        rw [hrealized] at hinfinite
        cases hinfinite
  · -- each way of not counting is one of the three checks
    rw [if_neg hcounts, if_pos]
    by_contra hnone
    rw [not_or, not_or, Bool.not_eq_true', Bool.not_eq_true', Bool.not_eq_false,
      Bool.not_eq_false] at hnone
    exact hcounts hnone

/-- What a node teaches about one side of a variable if it comes back under a threshold. -/
def lesson? (threshold : α) (i : ℕ) (v : Variable α) (side : Side) (p : HandedOut α × α) :
    Option α :=
  if p.1.history.split? = some (i, side) then
    Brancher.sample? threshold (Brancher.realizedMove v side p.1.history) p.1.score p.2
  else none

/-- A confirmed node teaches its sample, if it counts and came out of a split of that variable. -/
theorem lesson?_passage (r : Confirmation α) (i : ℕ) (v : Variable α) (side : Side) :
    lesson? r.threshold i v side r.passage
      = if r.node.history.split? = some (i, side) ∧ r.Counts v side
        then some (r.sample v side) else none := by
  rw [lesson?, show r.passage.1.history.split? = r.node.history.split? from rfl]
  by_cases hsplit : r.node.history.split? = some (i, side)
  · rw [if_pos hsplit]
    refine (r.sample?_eq v side).trans ?_
    by_cases hcounts : r.Counts v side
    · rw [if_pos hcounts, if_pos ⟨hsplit, hcounts⟩]
    · rw [if_neg hcounts, if_neg fun h => hcounts h.2]
  · rw [if_neg hsplit, if_neg fun h => hsplit h.1]

end Confirmation

omit [Scalar α] in
/-- A node that came out of a split is on one of its sides. -/
theorem History.side_of_split? {h : History α} {p : ℕ × Side}
    (hsplit : h.split? = some p) : p.2 ≠ .unsplit := by
  unfold History.split? at hsplit
  split at hsplit
  · cases hsplit
  · next hside =>
    obtain ⟨i, -, rfl⟩ := Option.map_eq_some_iff.mp hsplit
    exact hside

namespace Brancher

variable {b : Brancher α} {i : ℕ} {v : Variable α} {side : Side}

/-- The table keeps its size, whatever is learned. -/
theorem sized_learned (h : b.pseudocosts.Sized b.vars.length) (entry : HandedOut α)
    (processed : α) : (b.learned entry processed).Sized b.vars.length := by
  unfold learned
  split
  · exact h
  · split
    · exact h
    · unfold learn
      dsimp only
      split
      · next sample _ =>
        cases hrecord : b.pseudocosts.record? _ _ sample with
        | none => exact h
        | some q => exact h.record? hrecord
      · exact h

/-- A node that no split made teaches nothing. -/
theorem learned_of_unsplit {r : Confirmation α} (h : r.node.history.split? = none) :
    b.learned r.entry r.processed = b.pseudocosts := by
  unfold learned
  rw [show r.entry.history.split? = none from h]

/-- A node that came out of a split adds its sample to the table, if it counts. -/
theorem learned_of_split {r : Confirmation α} (h : r.node.history.split? = some (i, side))
    (hv : b.vars[i]? = some v) (hthreshold : r.threshold = b.frontier.threshold) :
    b.learned r.entry r.processed = if r.Counts v side
      then (b.pseudocosts.record? i side (r.sample v side)).getD b.pseudocosts
      else b.pseudocosts := by
  have hsample := r.sample?_eq v side
  rw [hthreshold] at hsample
  unfold learned
  rw [show r.entry.history.split? = some (i, side) from h]
  dsimp only
  rw [hv]
  dsimp only [learn]
  rw [show realizedMove v side r.entry.history = r.move v side from rfl,
    show r.entry.score = r.node.score from rfl, hsample]
  by_cases hcounts : r.Counts v side
  · rw [if_pos hcounts, if_pos hcounts]
  · rw [if_neg hcounts, if_neg hcounts]

/-- What is learned from a confirmed node is its sample, if the node counts, and it concerns the
side and the variable of the split. -/
theorem average_learned (h : b.pseudocosts.Sized b.vars.length) (r : Confirmation α)
    (hthreshold : r.threshold = b.frontier.threshold) (hv : b.vars[i]? = some v) :
    (b.learned r.entry r.processed).average side i
      = if r.node.history.split? = some (i, side) ∧ r.Counts v side
        then (b.pseudocosts.average side i).push (r.sample v side)
        else b.pseudocosts.average side i := by
  have hi := (List.getElem?_eq_some_iff.mp hv).1
  cases hsplit : r.node.history.split? with
  | none =>
    rw [learned_of_unsplit hsplit]
    exact (if_neg fun hnone => nomatch hnone.1).symm
  | some p =>
    obtain ⟨j, other⟩ := p
    by_cases heq : j = i ∧ other = side
    · obtain ⟨rfl, rfl⟩ := heq
      rw [learned_of_split hsplit hv hthreshold]
      by_cases hcounts : r.Counts v other
      · rw [if_pos hcounts, if_pos ⟨rfl, hcounts⟩]
        cases hrecord : b.pseudocosts.record? j other (r.sample v other) with
        | none =>
          have hside := History.side_of_split? hsplit
          cases other <;> first | exact absurd rfl hside | cases hrecord
        | some q => exact (Pseudocosts.average_record? h hi hrecord).trans (if_pos ⟨rfl, rfl⟩)
      · rw [if_neg hcounts, if_neg fun hthis => hcounts hthis.2]
    · rw [if_neg]
      · -- another side or variable is concerned, or none
        cases hw : b.vars[j]? with
        | none =>
          unfold learned
          rw [show r.entry.history.split? = some (j, other) from hsplit]
          dsimp only
          rw [hw]
        | some w =>
          rw [learned_of_split hsplit hw hthreshold]
          split
          · cases hrecord : b.pseudocosts.record? j other (r.sample w other) with
            | none => rfl
            | some q => exact (Pseudocosts.average_record? h hi hrecord).trans (if_neg heq)
          · rfl
      · rintro ⟨hsame, -⟩
        cases hsame
        exact heq ⟨rfl, rfl⟩

end Brancher

/-! ## The averages of a run -/

namespace Chronicle

variable {s : Chronicle α} {b : Brancher α} {i : ℕ} {v : Variable α} {side : Side}
  {vars : List (Variable α)}

/-- The confirmed nodes that count for one side of a variable. -/
def counted (s : Chronicle α) (i : ℕ) (v : Variable α) (side : Side) : List (Confirmation α) :=
  s.confirmed.filter fun r => r.node.history.split? = some (i, side) ∧ r.Counts v side

/-- The samples for one side of a variable. -/
def samples (s : Chronicle α) (i : ℕ) (v : Variable α) (side : Side) : List α :=
  (s.counted i v side).map (·.sample v side)

/-- The averages of a brancher are updated by the samples of the confirmed nodes, one after the
other. -/
structure Taught (s : Chronicle α) : Prop where
  /-- There are averages for every variable. -/
  sized : s.brancher.pseudocosts.Sized s.brancher.vars.length
  /-- Each is updated by its own samples. -/
  average (i : ℕ) (v : Variable α) (side : Side) : s.brancher.vars[i]? = some v →
    s.brancher.pseudocosts.average side i
      = (s.samples i v side).foldr (fun x a => Average.push a x) .empty

/-- A new brancher has learned nothing. -/
theorem taught_start (h : Brancher.new vars = .ok b) : (start b).Taught := by
  obtain ⟨valid, -, rfl⟩ := Brancher.new_ok h
  exact ⟨⟨List.length_replicate, List.length_replicate⟩,
    fun i v side _ => Pseudocosts.average_new _ side i⟩

/-- A request that confirms no node leaves what was learned as it is. -/
theorem Taught.of_unchanged (h : s.Taught) {t : Chronicle α}
    (hvars : t.brancher.vars = s.brancher.vars)
    (hpseudocosts : t.brancher.pseudocosts = s.brancher.pseudocosts)
    (hconfirmed : t.confirmed = s.confirmed) : t.Taught where
  sized := by
    rw [hvars, hpseudocosts]
    exact h.sized
  average i v side hv := by
    rw [hvars] at hv
    rw [hpseudocosts, samples, counted, hconfirmed]
    exact h.average i v side hv

/-- A confirmed node adds its sample, if it counts. -/
theorem Taught.confirm (h : s.Taught) (hremembers : s.Remembers) (id : ℕ) (processed : Node α) :
    (s.perform (.confirm id processed)).Taught := by
  rcases perform_confirm hremembers id processed with ⟨-, hsame⟩ | ⟨n, -, -, hperform⟩
  · rw [hsame]
    exact h
  · rw [hperform]
    refine ⟨Brancher.sized_learned h.sized _ _, fun i v side hv => ?_⟩
    refine (Brancher.average_learned h.sized
      ⟨n, processed.score, s.brancher.frontier.threshold⟩ rfl hv).trans ?_
    rw [h.average i v side hv, samples, samples, counted, counted]
    simp only [List.singleton_append, List.filter_cons, decide_eq_true_eq]
    split <;> rfl

/-- Whatever is requested, the averages follow the samples. -/
theorem Taught.perform (h : s.Taught) (hremembers : s.Remembers) (request : Brancher.Request α) :
    (s.perform request).Taught := by
  obtain ⟨hvars, hpseudocosts | ⟨id, processed, rfl⟩⟩ := s.brancher.after_unchanged request
  · cases request with
    | confirm id processed => exact h.confirm hremembers id processed
    | _ => exact h.of_unchanged hvars hpseudocosts rfl
  · exact h.confirm hremembers id processed

/-- However often. -/
theorem Taught.run [Scalar.Ordered α] (h : s.Taught) (hfaithful : s.Faithful)
    (requests : List (Brancher.Request α)) : (s.run requests).Taught := by
  induction requests generalizing s with
  | nil => exact h
  | cons request rest ih =>
    exact ih (h.perform hfaithful.remembers request) (hfaithful.perform request)

/-- Under a constant threshold, the samples depend on what the nodes were remembered by and on the
scores that they came back with. -/
theorem samples_eq {threshold : α} (h : ∀ r ∈ s.confirmed, r.threshold = threshold) :
    s.samples i v side
      = (s.confirmed.map Confirmation.passage).filterMap
        (Confirmation.lesson? threshold i v side) := by
  unfold samples counted
  generalize s.confirmed = confirmed at h
  induction confirmed with
  | nil => rfl
  | cons r rest ih =>
    obtain ⟨rfl, hrest⟩ := List.forall_mem_cons.mp h
    rw [List.map_cons, List.filterMap_cons, r.lesson?_passage i v side, ← ih hrest,
      List.filter_cons]
    simp only [decide_eq_true_eq]
    split <;> rfl

/-- So the order of the confirmations does not matter to them. -/
theorem samples_perm {t : Chronicle α} {threshold : α}
    (hs : ∀ r ∈ s.confirmed, r.threshold = threshold)
    (ht : ∀ r ∈ t.confirmed, r.threshold = threshold)
    (hperm : (s.confirmed.map Confirmation.passage).Perm (t.confirmed.map Confirmation.passage))
    (i : ℕ) (v : Variable α) (side : Side) : (s.samples i v side).Perm (t.samples i v side) := by
  rw [samples_eq hs, samples_eq ht]
  exact hperm.filterMap _

end Chronicle

end Samples

variable {K : Type} [Field K] [LinearOrder K] [FloorRing K]

/-! ## Samples as points of the field -/

/-- How far a variable of a kind moves on a side, if it stands at `x` and is split between `l` and
`u`. -/
def VariableKind.moved (kind : VariableKind) (side : Side) (x l u : K) : K :=
  match side with
  | .unsplit => 0
  | .down => if kind.isDiscrete then Int.fract x else u - kind.cutBelow l u
  | .up => if kind.isDiscrete then 1 - Int.fract x else kind.cutAbove l u - l

namespace Confirmation

variable {r : Confirmation (Extended K)} {v : Variable (Extended K)} {side : Side} {a d t : K}

/-- The distance to the threshold that was left, as a point of the field. -/
def distance (r : Confirmation (Extended K)) : K :=
  match r.threshold with
  | .point t => if r.node.score.value < t then t - r.node.score.value else 1
  | _ => 1

/-- The sample as a point of the field. -/
def gain (r : Confirmation (Extended K)) (v : Variable (Extended K)) (side : Side) : K :=
  max (r.realized.value - r.node.score.value) 0 / (r.move v side).value / r.distance

omit [LinearOrder K] [FloorRing K] in
/-- The least movement is a point. -/
theorem leastMove_eq [LinearOrder K] [FloorRing K] :
    (leastMove : Extended K) = .point (10 ^ (-12 : ℤ)) := by
  show Extended.point (((1 : ℕ) : K) * 10 ^ (-12 : ℤ)) = _
  rw [Nat.cast_one, one_mul]

variable [IsStrictOrderedRing K]

/-- A variable moves by points of the field if it stands at one and is split at points. -/
theorem moves_point (kind : VariableKind) (x l u : K) :
    Brancher.moves kind (.point x : Extended K) (.point l) (.point u)
      = (.point (kind.moved .down x l u), .point (kind.moved .up x l u)) := by
  by_cases hdiscrete : kind.isDiscrete = true
  · have hfract : (.point x : Extended K) - Scalar.floor (.point x) = .point (Int.fract x) :=
      Extended.sub_point (.point x) (⌊x⌋ : K)
    dsimp only [Brancher.moves, VariableKind.moved]
    rw [if_pos hdiscrete, if_pos hdiscrete, if_pos hdiscrete, hfract, Extended.sub_point]
    rfl
  · obtain ⟨hbelow, habove⟩ := VariableKind.cuts_of_continuous hdiscrete l u
    dsimp only [Brancher.moves, VariableKind.moved]
    rw [if_neg hdiscrete, if_neg hdiscrete, if_neg hdiscrete, Extended.middle_point,
      Extended.sub_point, Extended.sub_point, hbelow, habove]
    rfl

/-- So it does on the side that a history tells of. -/
theorem move_eq {x l u : K} {i : ℕ}
    (h : r.node.history = ⟨some i, side, .point x, .point l, .point u⟩) :
    r.move v side = .point (v.kind.moved side x l u) := by
  rw [move, h, Brancher.realizedMove, moves_point]
  cases side <;> rfl

/-- The distance that was left is a positive point. -/
theorem left_eq (h : r.node.score = .point a) : r.left = .point r.distance ∧ 0 < r.distance := by
  unfold left distance
  rw [h, Extended.sub_point]
  cases r.threshold with
  | point t =>
    show _ = Extended.point (if a < t then t - a else 1) ∧ 0 < (if a < t then t - a else 1)
    by_cases hlt : a < t
    · rw [if_pos hlt]
      exact ⟨if_pos ⟨rfl, Extended.point_lt_point.mpr (sub_pos.mpr hlt)⟩, sub_pos.mpr hlt⟩
    · rw [if_neg hlt]
      refine ⟨if_neg ?_, one_pos⟩
      rintro ⟨-, hpos⟩
      exact hlt (sub_pos.mp (Extended.point_lt_point.mp hpos))
  | undefined | bottom | top => exact ⟨if_neg (fun h => nomatch h.1), one_pos⟩

/-- A node counts only if its variable moved by a positive distance. -/
theorem Counts.pos (hcounts : r.Counts v side) (hmove : r.move v side = .point d) : 0 < d := by
  obtain ⟨hmoved, -, -⟩ := hcounts
  rw [hmove, leastMove_eq, Extended.point_le_point, not_le] at hmoved
  exact lt_trans (by positivity) hmoved

/-- The sample of a node that counts is a point, if the variable moved by one. -/
theorem sample_eq (hcounts : r.Counts v side) (hmove : r.move v side = .point d) :
    r.sample v side = .point (r.gain v side) := by
  have hd := hcounts.pos hmove
  obtain ⟨-, hscore, hrealized⟩ := hcounts
  obtain ⟨a, ha⟩ := Extended.isFinite_iff.mp hscore
  obtain ⟨m, hm⟩ := Extended.isFinite_iff.mp hrealized
  obtain ⟨hleft, hpos⟩ := left_eq ha
  rw [sample, gain, hleft, hmove, hm, ha, Extended.sub_point]
  show Scalar.greatest (Extended.point (m - a)) (.point 0) / .point d / .point r.distance
    = .point (max (m - a) 0 / d / r.distance)
  rw [Extended.greatest_point, Extended.div_point _ hd.ne', Extended.div_point _ hpos.ne']

/-- Under a threshold above the score of the node, the sample is at most what it would be for the
whole distance. -/
theorem gain_le (hcounts : r.Counts v side) (hmove : r.move v side = .point d)
    (hthreshold : r.threshold = .point t) (hbelow : r.node.score < r.threshold) :
    r.gain v side ≤ 1 / d := by
  have hd := hcounts.pos hmove
  obtain ⟨-, hscore, hrealized⟩ := hcounts
  obtain ⟨a, ha⟩ := Extended.isFinite_iff.mp hscore
  obtain ⟨m, hm⟩ := Extended.isFinite_iff.mp hrealized
  -- the realized score is cut off at the threshold, so that no gain exceeds the distance to it
  have hreached : m ≤ t := by
    have hle : r.realized ≤ r.threshold := Scalar.least_le_right (by rw [hthreshold]; rfl)
    rw [hm, hthreshold] at hle
    exact Extended.point_le_point.mp hle
  rw [ha, hthreshold] at hbelow
  have hlt : a < t := Extended.point_lt_point.mp hbelow
  have hdistance : r.distance = t - a := by
    rw [distance, hthreshold, ha]
    exact if_pos hlt
  have himproved : max (m - a) 0 ≤ t - a :=
    max_le (sub_le_sub_right hreached a) (sub_pos.mpr hlt).le
  rw [gain, hdistance, hmove, hm, ha, div_le_iff₀ (sub_pos.mpr hlt), one_div_mul_eq_div]
  exact div_le_div_of_nonneg_right himproved hd.le

/-- A sample is not negative. -/
theorem sample_nonneg (hcounts : r.Counts v side) : ¬ r.sample v side < 0 := by
  obtain ⟨hmoved, hscore, -⟩ := hcounts
  obtain ⟨a, ha⟩ := Extended.isFinite_iff.mp hscore
  obtain ⟨hleft, hpos⟩ := left_eq ha
  have himproved : ¬ Scalar.greatest (r.realized - r.node.score) 0 < 0 :=
    fun hlt => Scalar.not_le_of_lt hlt (Scalar.le_greatest_right rfl)
  have hleastMove : (0 : Extended K) ≤ leastMove := by
    rw [leastMove_eq]
    exact Extended.point_le_point.mpr (by positivity)
  refine Extended.not_neg_div (Extended.not_neg_div himproved fun hle => ?_) fun hle => ?_
  · exact hmoved (Scalar.Ordered.le_trans hle hleastMove)
  · rw [hleft] at hle
    exact absurd (Extended.point_le_point.mp hle) (not_le.mpr hpos)

end Confirmation

/-! ## The averages of a run in the field -/

namespace Chronicle

variable {s : Chronicle (Extended K)} {i : ℕ} {v : Variable (Extended K)} {side : Side}
  {vars : List (Variable (Extended K))} {b : Brancher (Extended K)}

/-- The average on one side of a variable is the mean of the samples for it. -/
structure Averaged (s : Chronicle (Extended K)) (i : ℕ) (v : Variable (Extended K)) (side : Side) :
    Prop where
  /-- There are as many samples as confirmed nodes that count. -/
  trials : (s.brancher.pseudocosts.average side i).trials = (s.counted i v side).length
  /-- Where it is defined how far the variable moved, these are the nodes of finite scores whose
  variable moved by more than the least movement. -/
  counted : (∀ r ∈ s.confirmed, r.node.history.split? = some (i, side) →
      Scalar.isNaN (r.move v side) = false) →
    s.counted i v side = s.confirmed.filter fun r =>
      r.node.history.split? = some (i, side) ∧ Confirmation.leastMove < r.move v side
        ∧ Scalar.isFinite r.node.score = true ∧ Scalar.isFinite r.realized = true
  /-- The average is their mean. -/
  mean : (s.brancher.pseudocosts.average side i).mean = Extended.mean (s.samples i v side)
  /-- It is not negative. -/
  nonneg : ¬ (s.brancher.pseudocosts.average side i).mean < 0

/-- The average on one side of a variable is the mean of the samples in the field. -/
structure AveragedIn (s : Chronicle (Extended K)) (i : ℕ) (v : Variable (Extended K))
    (side : Side) : Prop where
  /-- The variable moved by a point of the field in every split. -/
  moved : ∀ r ∈ s.confirmed, r.node.history.split? = some (i, side) →
    ∃ x l u, l < u ∧ (l ≤ x ∧ x ≤ u)
      ∧ r.node.history = ⟨some i, side, .point x, .point l, .point u⟩
      ∧ r.move v side = .point (v.kind.moved side x l u)
  /-- The nodes that count are those of finite scores whose variable moved by more than the least
  movement. -/
  counted : s.counted i v side = s.confirmed.filter fun r =>
    r.node.history.split? = some (i, side) ∧ Extended.point (10 ^ (-12 : ℤ)) < r.move v side
      ∧ Scalar.isFinite r.node.score = true ∧ Scalar.isFinite r.realized = true
  /-- The average is the mean of their samples. -/
  mean : (s.brancher.pseudocosts.average side i).mean
    = .point (((s.counted i v side).map (·.gain v side)).sum / (s.counted i v side).length)
  /-- It is not negative. -/
  nonneg : 0 ≤ (s.brancher.pseudocosts.average side i).mean
  /-- A sample that was taken under a finite threshold above the score of the node is at most one
  unit per distance moved. -/
  bounded : ∀ r ∈ s.counted i v side, ∀ t, r.threshold = .point t → r.node.score < r.threshold →
    r.sample v side = .point (r.gain v side) ∧ r.sample v side ≤ 1 / r.move v side

variable [IsStrictOrderedRing K]

/-- What is learned sample by sample is the mean of the samples. -/
theorem Taught.averaged (h : s.Taught) (hv : s.brancher.vars[i]? = some v) (side : Side) :
    s.Averaged i v side := by
  have haverage := h.average i v side hv
  rw [Average.foldr_push] at haverage
  refine ⟨?_, fun hdefined => List.filter_congr fun r hr => decide_eq_decide.mpr ?_, ?_, ?_⟩
  · rw [haverage]
    exact List.length_map _
  · refine and_congr_right fun hsplit => and_congr_left fun _ => ⟨fun hmoved => ?_, ?_⟩
    · exact Scalar.lt_of_not_le (hdefined r hr hsplit) rfl hmoved
    · exact Scalar.not_le_of_lt
  · rw [haverage]
  · rw [haverage]
    refine Extended.not_neg_mean fun x hx => ?_
    obtain ⟨r, hr, rfl⟩ := List.mem_map.mp hx
    exact Confirmation.sample_nonneg (of_decide_eq_true (List.mem_filter.mp hr).2).2

/-- If all histories describe splits, it is a mean in the field. -/
theorem Averaged.averagedIn (h : s.Averaged i v side)
    (hdescribes : ∀ r ∈ s.confirmed, s.Describes r.node) : s.AveragedIn i v side := by
  -- a history that describes a split has points for bounds, so that the move is a point too
  have hmoved : ∀ r ∈ s.confirmed, r.node.history.split? = some (i, side) →
      ∃ x l u, l < u ∧ (l ≤ x ∧ x ≤ u)
        ∧ r.node.history = ⟨some i, side, .point x, .point l, .point u⟩
        ∧ r.move v side = .point (v.kind.moved side x l u) := by
    intro r hr hsplit
    obtain ⟨-, x, l, u, -, hwide, hbetween, hhistory⟩ := (hdescribes r hr).history hsplit
    exact ⟨x, l, u, hwide, hbetween, hhistory, Confirmation.move_eq hhistory⟩
  have hsample : ∀ r ∈ s.counted i v side, r.Counts v side
      ∧ ∃ d, r.move v side = .point d ∧ r.sample v side = .point (r.gain v side) := by
    intro r hr
    obtain ⟨hmem, hcounts⟩ := List.mem_filter.mp hr
    obtain ⟨hsplit, hcounts⟩ := of_decide_eq_true hcounts
    obtain ⟨x, l, u, -, -, -, hmove⟩ := hmoved r hmem hsplit
    exact ⟨hcounts, _, hmove, Confirmation.sample_eq hcounts hmove⟩
  have hmean : (s.brancher.pseudocosts.average side i).mean
      = .point (((s.counted i v side).map (·.gain v side)).sum / (s.counted i v side).length) := by
    have hsamples : s.samples i v side
        = ((s.counted i v side).map (·.gain v side)).map Extended.point := by
      rw [List.map_map]
      exact List.map_congr_left fun r hr => (hsample r hr).2.choose_spec.2
    rw [h.mean, hsamples, Extended.mean_map_point, List.length_map]
  refine ⟨hmoved, ?_, hmean, ?_, fun r hr t hthreshold hbelow => ?_⟩
  · rw [← Confirmation.leastMove_eq]
    refine h.counted fun r hr hsplit => ?_
    obtain ⟨x, l, u, -, -, -, hmove⟩ := hmoved r hr hsplit
    rw [hmove]
    rfl
  · have hnonneg := h.nonneg
    rw [hmean] at hnonneg ⊢
    exact Extended.point_le_point.mpr (not_lt.mp (mt Extended.point_lt_point.mpr hnonneg))
  · obtain ⟨hcounts, d, hmove, heq⟩ := hsample r hr
    refine ⟨heq, ?_⟩
    rw [heq, hmove]
    show Extended.point (r.gain v side) ≤ Extended.point 1 / .point d
    rw [Extended.div_point _ (hcounts.pos hmove).ne']
    exact Extended.point_le_point.mpr (Confirmation.gain_le hcounts hmove hthreshold hbelow)

/-- Whatever a brancher is asked for: its averages are the means of the samples of the confirmed
nodes, which are points of the field if all nodes that are split have finite bounds. Two runs that
confirm the same nodes with the same scores under a constant threshold leave the same table,
whatever the order of the confirmations. -/
theorem means_run (h : Brancher.new vars = .ok b)
    (requests : List (Brancher.Request (Extended K))) :
    (∀ i v side, b.vars[i]? = some v → ((start b).run requests).Averaged i v side)
      ∧ ((∀ request ∈ requests, ∀ box ∈ request.box?, box.Bounded) →
        ∀ i v side, b.vars[i]? = some v → ((start b).run requests).AveragedIn i v side)
      ∧ ∀ others threshold,
        (∀ r ∈ ((start b).run requests).confirmed ++ ((start b).run others).confirmed,
          r.threshold = threshold) →
        (((start b).run requests).confirmed.map Confirmation.passage).Perm
          (((start b).run others).confirmed.map Confirmation.passage) →
        ((start b).run requests).brancher.pseudocosts
          = ((start b).run others).brancher.pseudocosts := by
  have hfaithful := faithful_start h
  have htaught := taught_start h
  -- the averages are kept along the run of requests
  have haveraged : ∀ i v side, b.vars[i]? = some v →
      ((start b).run requests).Averaged i v side := by
    intro i v side hv
    refine (htaught.run hfaithful requests).averaged ?_ side
    rw [vars_run]
    exact hv
  refine ⟨haveraged, fun hbounded i v side hv => ?_, fun others threshold hconstant hperm => ?_⟩
  · refine (haveraged i v side hv).averagedIn fun r hr => ?_
    have hsiblings := siblings_run (s := start b) requests hbounded
      fun _ hpair => absurd hpair List.not_mem_nil
    rw [← vars_run (start b) requests] at hsiblings
    exact ((hfaithful.run requests).confirmed r hr).describes hsiblings
  · have hone := htaught.run hfaithful requests
    have hother := htaught.run hfaithful others
    rw [List.forall_mem_append] at hconstant
    have hsized := hone.sized
    have hsizedOther := hother.sized
    rw [vars_run] at hsized hsizedOther
    refine Pseudocosts.eq_of_average hsized hsizedOther fun i hi side => ?_
    have hv : b.vars[i]? = some b.vars[i] := List.getElem?_eq_getElem hi
    -- under one threshold a sample depends on the passage alone, and a mean not on the order
    have hsamples := samples_perm hconstant.1 hconstant.2 hperm i b.vars[i] side
    rw [hone.average i b.vars[i] side (by rw [vars_run]; exact hv),
      hother.average i b.vars[i] side (by rw [vars_run]; exact hv), Average.foldr_push,
      Average.foldr_push, Extended.mean_perm hsamples, hsamples.length_eq]

deriving instance DecidableEq for History, HandedOut

/-- A node is split twice over the same variable, the four children are handed out, and then some of
them come back under a threshold. -/
def pairedRequests (confirmations : List (Brancher.Request (Extended ℚ))) :
    List (Brancher.Request (Extended ℚ)) :=
  [.insertRoot Brancher.mixedNode,
    .branch Brancher.mixedNode [.point (5 / 2)] (.point (-2)) (.point (1 / 10)),
    .branch Brancher.mixedNode [.point (9 / 4)] (.point (-2)) (.point (1 / 10)),
    .next, .next, .next, .next, .next, .lowerThreshold 0] ++ confirmations

/-- A lower child whose variable moved by one half comes back half way to the threshold. -/
def nearReturn : Brancher.Request (Extended ℚ) :=
  .confirm 1 { Brancher.mixedNode with score := .point (-1) }

/-- So does the other one, whose variable moved by one quarter. -/
def farReturn : Brancher.Request (Extended ℚ) :=
  .confirm 3 { Brancher.mixedNode with score := .point (-1) }

/-- The samples are one and two, and so the average is three halves in either order. -/
theorem means_run_pairedRequests :
    Brancher.new Brancher.mixedBrancher.vars = .ok Brancher.mixedBrancher
      ∧ ((start Brancher.mixedBrancher).run (pairedRequests [nearReturn, farReturn])).AveragedIn 0
        ⟨0, .point 5, .integer, 1, "n"⟩ .down
      ∧ ((start Brancher.mixedBrancher).run
          (pairedRequests [nearReturn, farReturn])).brancher.pseudocosts
        = ((start Brancher.mixedBrancher).run
          (pairedRequests [farReturn, nearReturn])).brancher.pseudocosts
      ∧ (((start Brancher.mixedBrancher).run
          (pairedRequests [nearReturn, farReturn])).brancher.pseudocosts.average .down 0).mean
        = .point (3 / 2) := by
  have hnew : Brancher.new Brancher.mixedBrancher.vars = .ok Brancher.mixedBrancher := rfl
  obtain ⟨-, haveraged, hsame⟩ := means_run hnew (pairedRequests [nearReturn, farReturn])
  refine ⟨hnew, haveraged ?_ 0 _ .down rfl, hsame (pairedRequests [farReturn, nearReturn]) 0 ?_ ?_,
    ?_⟩ <;> decide +kernel

end Chronicle

end BranchBound
