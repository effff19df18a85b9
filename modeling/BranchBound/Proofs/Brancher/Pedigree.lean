import BranchBound.Proofs.Brancher.Chronicle
import BranchBound.Proofs.Brancher.Dividing

/-! # What histories say

The history of a node is written when a split makes the node, stays with it in the tree, is copied
when the node is handed out, and is read when the node comes back. Whatever happens in between, it
describes the split: under exact arithmetic the node is one of the two parts of an interval of a
variable, its history has the ends of that interval and a point between them, and so has the history
of the other part. A node that no split made has a history that says so. In particular no history
names a variable that does not exist.

* **`Brancher.Parted`** — two nodes as they come out of a split;
  `Brancher.parted_of_mem_made` finds them in what a request makes.
* **`Brancher.Siblings`** — what the histories of two children say.
* **`Chronicle.Describes`** — a history says how its node was made; `Chronicle.describes_run`. -/

namespace BranchBound

/-! ## Splits -/

section Splits

variable {α : Type} [Scalar α]

/-- The bounds that a box lists are finite. -/
def Box.Bounded (b : Box α) : Prop := ∀ x ∈ b.lower ++ b.upper, Scalar.isFinite x = true

instance (b : Box α) : Decidable b.Bounded := inferInstanceAs (Decidable (∀ x ∈ _, _ = true))

/-- If there are as many as there are variables, the box is finite. -/
theorem Box.Bounded.finite {b : Box α} (h : b.Bounded) {k : ℕ} (hdim : b.hasDimension k = true) :
    b.Finite k := by
  obtain ⟨hlower, hupper⟩ := hasDimension_iff.mp hdim
  refine ⟨hdim, fun i hi => h _ (List.mem_append_left _ ?_), fun i hi =>
    h _ (List.mem_append_right _ ?_)⟩
  · rw [lowerAt, List.getD_eq_getElem _ _ (hlower ▸ hi)]
    exact List.getElem_mem _
  · rw [upperAt, List.getD_eq_getElem _ _ (hupper ▸ hi)]
    exact List.getElem_mem _

namespace Brancher

/-- The box of the node that a request splits. -/
def Request.box? : Request α → Option (Box α)
  | .branch n .. | .allChildren n _ => some n.box
  | _ => none

/-- Two nodes as they come out of splitting a node of some box, in a dimension in which the box has
a width. -/
inductive Parted (vars : List (Variable α)) (box : Box α) (pair : OpenNode α × OpenNode α) : Prop
  /-- The lower child comes first. -/
  | intro {b c : Brancher α} {parent : Node α} {i : ℕ} {v : Variable α} {point : List α}
      (hv : vars[i]? = some v) (hwide : ¬ box.width i ≤ 0) (hbox : parent.box = box)
      (hsplit : b.split parent i v.kind point = (pair, c))

variable {b c : Brancher α} {parent n : Node α} {point : List α} {objective tolerance : α}
  {pair : OpenNode α × OpenNode α} {vars : List (Variable α)} {request : Request α}

/-- The histories of the children of a split have the bounds of the node in that dimension, and the
relaxed value. -/
theorem split_history {i : ℕ} {kind : VariableKind} (h : b.split parent i kind point = (pair, c)) :
    pair.1.history = ⟨some i, .down, relaxedValue parent.box i point, parent.box.lowerAt i,
        parent.box.upperAt i⟩
      ∧ pair.2.history = ⟨some i, .up, relaxedValue parent.box i point, parent.box.lowerAt i,
        parent.box.upperAt i⟩ := by
  cases h
  exact ⟨rfl, rfl⟩

/-- The pairs of children of a node come out of splitting it. -/
theorem parted_of_mem_pairs {dimensions : List (Variable α × ℕ)}
    (hdimensions : ∀ d ∈ dimensions, vars[d.2]? = some d.1)
    (h : pair ∈ pairs parent point b dimensions) : Parted vars parent.box pair := by
  induction dimensions generalizing b with
  | nil => exact absurd h List.not_mem_nil
  | cons d rest ih =>
    obtain ⟨v, i⟩ := d
    rw [List.forall_mem_cons] at hdimensions
    rw [pairs] at h
    split at h
    · exact ih hdimensions.2 h
    · next hwide =>
      rcases List.mem_cons.mp h with rfl | h
      · exact .intro hdimensions.1 hwide rfl rfl
      · exact ih hdimensions.2 h

/-- The children that branching makes come out of splitting the node whose discrete bounds were
moved to whole numbers. -/
theorem parted_of_branchPair? (h : b.branchPair? n point objective tolerance = some pair) :
    n.box.hasDimension b.vars.length = true ∧ Parted b.vars (roundDiscrete b.vars n.box) pair := by
  unfold branchPair? at h
  split at h
  · next i _ _ hanswer =>
    obtain ⟨v, hv, rfl⟩ := Option.map_eq_some_iff.mp h
    have hbranch : b.branch n point objective tolerance = (.ok (.split i _ _), _) :=
      Prod.ext hanswer rfl
    obtain ⟨-, -, hchoose⟩ := branch_justified hbranch
    obtain ⟨-, -, hwide⟩ := width_of_choose hchoose
    exact ⟨dimensionFault_eq_none_iff.mp (branch_cases hbranch).1, .intro hv hwide rfl rfl⟩
  · cases h

/-- The children in every dimension come out of splitting that node as well. -/
theorem parted_of_mem_childPairs (h : pair ∈ b.childPairs n point) :
    n.box.hasDimension b.vars.length = true ∧ Parted b.vars (roundDiscrete b.vars n.box) pair := by
  unfold childPairs at h
  split at h
  · exact absurd h List.not_mem_nil
  · next hguard =>
    rw [Bool.or_eq_true, not_or, Option.not_isSome_iff_eq_none] at hguard
    exact ⟨dimensionFault_eq_none_iff.mp hguard.1,
      parted_of_mem_pairs (fun d hd => List.mem_zipIdx_iff_getElem?.mp hd) h⟩

/-- The children that a request makes come out of splitting the node it is for. -/
theorem parted_of_mem_made (h : pair ∈ b.made request) :
    ∃ box, request.box? = some box ∧ box.hasDimension b.vars.length = true
      ∧ Parted b.vars (roundDiscrete b.vars box) pair := by
  cases request with
  | branch n => exact ⟨n.box, rfl, parted_of_branchPair? (Option.mem_toList.mp h)⟩
  | allChildren n => exact ⟨n.box, rfl, parted_of_mem_childPairs h⟩
  | _ => exact absurd h List.not_mem_nil

end Brancher

end Splits

variable {K : Type} [Field K] [LinearOrder K] [FloorRing K]

/-- A point that is clamped to an interval ends up in it. -/
theorem Extended.clamp_between {l u : K} (q : K) (hle : l ≤ u) :
    ∃ x, Scalar.clamp (.point q : Extended K) (.point l) (.point u) = .point x ∧ l ≤ x ∧ x ≤ u := by
  unfold Scalar.clamp
  by_cases hlow : q < l
  · rw [if_pos (point_lt_point.mpr hlow), if_neg (mt point_lt_point.mp (not_lt.mpr hle))]
    exact ⟨l, rfl, le_refl l, hle⟩
  · rw [if_neg (mt point_lt_point.mp hlow)]
    by_cases hhigh : u < q
    · rw [if_pos (point_lt_point.mpr hhigh)]
      exact ⟨u, rfl, hle, le_refl u⟩
    · rw [if_neg (mt point_lt_point.mp hhigh)]
      exact ⟨q, rfl, not_lt.mp hlow, not_lt.mp hhigh⟩

variable [IsStrictOrderedRing K]

namespace Brancher

/-! ## Siblings -/

/-- Two nodes are the lower and the upper part of the interval from `l` to `u` of a variable, and
their histories say so. -/
structure Siblings (vars : List (Variable (Extended K)))
    (pair : OpenNode (Extended K) × OpenNode (Extended K)) (i : ℕ) (v : Variable (Extended K))
    (x l u : K) : Prop where
  /-- The variable exists. -/
  variable_eq : vars[i]? = some v
  /-- The interval has a width. -/
  wide : l < u
  /-- The relaxed value of the variable is in the interval. -/
  between : l ≤ x ∧ x ≤ u
  /-- What the history of the lower part says. -/
  history_down : pair.1.history = ⟨some i, .down, .point x, .point l, .point u⟩
  /-- What the history of the upper part says. -/
  history_up : pair.2.history = ⟨some i, .up, .point x, .point l, .point u⟩
  /-- The lower part. -/
  box_down : pair.1.node.box.lowerAt i = .point l
    ∧ pair.1.node.box.upperAt i = .point (v.kind.cutBelow l u)
  /-- The upper part. -/
  box_up : pair.2.node.box.lowerAt i = .point (v.kind.cutAbove l u)
    ∧ pair.2.node.box.upperAt i = .point u

variable {vars : List (Variable (Extended K))} {box : Box (Extended K)} {k i : ℕ}
  {pair : OpenNode (Extended K) × OpenNode (Extended K)} {b : Brancher (Extended K)}
  {request : Request (Extended K)}

/-- The relaxed value of a variable is in its interval. -/
theorem relaxedValue_between (h : box.Finite k) (hi : i < k) (hle : box.low i ≤ box.high i)
    (point : List (Extended K)) :
    ∃ x, relaxedValue box i point = .point x ∧ box.low i ≤ x ∧ x ≤ box.high i := by
  have hmiddle : box.midpoint i = .point ((box.low i + box.high i) / 2) := by
    rw [Box.midpoint, h.lowerAt_eq hi, h.upperAt_eq hi, Extended.middle_point]
  unfold relaxedValue
  split
  · split
    · next hfinite =>
      obtain ⟨q, rfl⟩ := Extended.isFinite_iff.mp hfinite
      rw [h.lowerAt_eq hi, h.upperAt_eq hi]
      exact Extended.clamp_between q hle
    · exact ⟨_, hmiddle, by linarith, by linarith⟩
  · exact ⟨_, hmiddle, by linarith, by linarith⟩

/-- The children of a node of finite bounds that is split in a dimension in which it has a width are
siblings. -/
theorem siblings_split {c : Brancher (Extended K)} {parent : Node (Extended K)}
    {point : List (Extended K)} {v : Variable (Extended K)} (h : parent.box.Finite vars.length)
    (hv : vars[i]? = some v) (hwide : ¬ parent.box.width i ≤ 0)
    (hsplit : b.split parent i v.kind point = (pair, c)) :
    ∃ x, relaxedValue parent.box i point = .point x
      ∧ Siblings vars pair i v x (parent.box.low i) (parent.box.high i) := by
  obtain ⟨down, up⟩ := pair
  have hi := (List.getElem?_eq_some_iff.mp hv).1
  have hlt := (h.not_width_le_zero_iff hi).mp hwide
  -- the relaxed value is moved between the bounds before it is noted
  obtain ⟨x, hx, hbetween⟩ := relaxedValue_between h hi hlt.le point
  obtain ⟨hdown, hup⟩ := split_nodes hsplit
  obtain ⟨hhistoryDown, hhistoryUp⟩ := split_history hsplit
  obtain ⟨hlowDown, hhighDown, hlowUp, hhighUp⟩ := h.bounds_parts hi v.kind
  rw [hx, h.lowerAt_eq hi, h.upperAt_eq hi] at hhistoryDown hhistoryUp
  refine ⟨x, hx, hv, hlt, hbetween, hhistoryDown, hhistoryUp, ?_, ?_⟩
  · rw [hdown]
    exact ⟨hlowDown, hhighDown⟩
  · rw [hup]
    exact ⟨hlowUp, hhighUp⟩

/-- Two nodes that come out of splitting a box of finite bounds are siblings. -/
theorem Parted.siblings (h : Parted vars box pair) (hbox : box.Finite vars.length) :
    ∃ i v x l u, Siblings vars pair i v x l u := by
  obtain ⟨hv, hwide, rfl, hsplit⟩ := h
  obtain ⟨x, -, hsiblings⟩ := siblings_split hbox hv hwide hsplit
  exact ⟨_, _, x, _, _, hsiblings⟩

/-- So are the children that a request makes of a node of finite bounds. -/
theorem siblings_of_mem_made (hpair : pair ∈ b.made request)
    (hbounded : ∀ box ∈ request.box?, box.Bounded) :
    ∃ i v x l u, Siblings b.vars pair i v x l u := by
  obtain ⟨box, hbox, hdim, hparted⟩ := parted_of_mem_made hpair
  exact hparted.siblings ((hbounded box hbox).finite hdim).roundDiscrete

end Brancher

/-! ## Runs -/

namespace Chronicle

variable {s : Chronicle (Extended K)} {request : Brancher.Request (Extended K)}
  {vars : List (Variable (Extended K))} {b : Brancher (Extended K)}

/-- A node that no split made says so, and a node that a split made tells of that split, as its
sibling does. -/
def Describes (s : Chronicle (Extended K)) (n : OpenNode (Extended K)) : Prop :=
  n.history = .unsplit ∨ ∃ pair ∈ s.made, (n = pair.1 ∨ n = pair.2)
    ∧ ∃ i v x l u, Brancher.Siblings s.brancher.vars pair i v x l u

/-- The children that are made in the course of a run are siblings, if the nodes that are split have
finite bounds. -/
theorem siblings_run (requests : List (Brancher.Request (Extended K)))
    (hbounded : ∀ request ∈ requests, ∀ box ∈ request.box?, box.Bounded)
    (h : ∀ pair ∈ s.made, ∃ i v x l u, Brancher.Siblings s.brancher.vars pair i v x l u) :
    ∀ pair ∈ (s.run requests).made,
      ∃ i v x l u, Brancher.Siblings s.brancher.vars pair i v x l u := by
  induction requests generalizing s with
  | nil => exact h
  | cons request rest ih =>
    rw [List.forall_mem_cons] at hbounded
    have hvars : (s.perform request).brancher.vars = s.brancher.vars :=
      (s.brancher.after_unchanged request).1
    rw [← hvars]
    refine ih hbounded.2 fun pair hpair => ?_
    rw [hvars]
    rcases List.mem_append.mp hpair with hnew | hold
    · exact Brancher.siblings_of_mem_made (List.mem_reverse.mp hnew) hbounded.1
    · exact h pair hold

omit [IsStrictOrderedRing K] in
/-- What is on record is described. -/
theorem Records.describes {n : OpenNode (Extended K)} (hn : s.Records n)
    (h : ∀ pair ∈ s.made, ∃ i v x l u, Brancher.Siblings s.brancher.vars pair i v x l u) :
    s.Describes n :=
  hn.imp_right fun ⟨pair, hpair, hside⟩ => ⟨pair, hpair, hside, h pair hpair⟩

omit [IsStrictOrderedRing K] in
/-- What the history of a node says that came out of a split. -/
theorem Describes.history {n : OpenNode (Extended K)} (h : s.Describes n) {i : ℕ} {side : Side}
    (hsplit : n.history.split? = some (i, side)) :
    ∃ v x l u, s.brancher.vars[i]? = some v ∧ l < u ∧ (l ≤ x ∧ x ≤ u)
      ∧ n.history = ⟨some i, side, .point x, .point l, .point u⟩ := by
  obtain hunsplit | ⟨pair, -, hside, j, v, x, l, u, hsiblings⟩ := h
  · rw [hunsplit] at hsplit
    cases hsplit
  · have hhistory : ∃ other, n.history = ⟨some j, other, .point x, .point l, .point u⟩ := by
      obtain rfl | rfl := hside
      · exact ⟨_, hsiblings.history_down⟩
      · exact ⟨_, hsiblings.history_up⟩
    obtain ⟨other, hhistory⟩ := hhistory
    -- the history says on which side of which dimension the node came out
    have hsame : j = i ∧ other = side := by
      rw [hhistory, History.split?] at hsplit
      split at hsplit
      · cases hsplit
      · cases hsplit
        exact ⟨rfl, rfl⟩
    obtain ⟨rfl, rfl⟩ := hsame
    exact ⟨v, x, l, u, hsiblings.variable_eq, hsiblings.wide, hsiblings.between, hhistory⟩

omit [IsStrictOrderedRing K] in
/-- A history that describes a split names a variable. -/
theorem Describes.known {n : OpenNode (Extended K)} (h : s.Describes n) :
    n.history.Known s.brancher.vars.length := by
  rintro ⟨i, side⟩ hsplit
  obtain ⟨v, x, l, u, hv, -⟩ := h.history hsplit
  exact (List.getElem?_eq_some_iff.mp hv).1

/-- Whatever a brancher is asked for, as long as the nodes that are split have finite bounds: the
histories of the open nodes describe how these were made, what is remembered of a node is the score
and the history that it had when it was handed out last, and this history describes how the node was
made. So no confirmation fails over a history. -/
theorem describes_run (h : Brancher.new vars = .ok b)
    (requests : List (Brancher.Request (Extended K)))
    (hbounded : ∀ request ∈ requests, ∀ box ∈ request.box?, box.Bounded) :
    (∀ n ∈ ((start b).run requests).brancher.frontier.members, ((start b).run requests).Describes n)
      ∧ (∀ e ∈ ((start b).run requests).brancher.waiting,
        ∃ n, ((start b).run requests).lastOut? e.1 = some n ∧ e.2 = ⟨n.score, n.history⟩
          ∧ ((start b).run requests).Describes n)
      ∧ ∀ id processed fault, (((start b).run requests).brancher.confirm id processed).1
        ≠ .error (.invalidProblem fault) := by
  have hfaithful := (faithful_start h).run requests
  have hsiblings := siblings_run (s := start b) requests hbounded
    fun _ hpair => absurd hpair List.not_mem_nil
  rw [← vars_run (start b) requests] at hsiblings
  generalize (start b).run requests = s at hfaithful hsiblings ⊢
  -- a node that is waited for was handed out, and what is handed out is on record
  have hwaiting : ∀ e ∈ s.brancher.waiting,
      ∃ n, s.lastOut? e.1 = some n ∧ e.2 = ⟨n.score, n.history⟩ ∧ s.Describes n := by
    intro e he
    obtain ⟨n, hn, hentry⟩ := hfaithful.remembers e he
    exact ⟨n, hn, hentry, (Faithful.records_lastOut hfaithful.out hn).describes hsiblings⟩
  refine ⟨fun n hn => (hfaithful.opened n hn).describes hsiblings, hwaiting,
    fun id processed fault => ?_⟩
  -- histories that describe a split name variables, so that no confirmation is refused over them
  have hknown : ∀ e ∈ s.brancher.waiting, e.2.history.Known s.brancher.vars.length := by
    intro e he
    obtain ⟨n, -, hentry, hn⟩ := hwaiting e he
    rw [hentry]
    exact hn.known
  rcases Brancher.confirm_cases hknown id processed with ⟨-, _, hok⟩ | ⟨-, hunknown⟩
  · rw [hok]
    exact nofun
  · rw [hunknown]
    exact nofun

/-- A node is split, one of its children is handed out and split in every dimension, one of the new
children is confirmed, and another node is queued once more. -/
def mixedRequests : List (Brancher.Request (Extended ℚ)) :=
  [.insertRoot Brancher.mixedNode, .next,
    .confirm 0 { Brancher.mixedNode with score := .point (-2) },
    .branch Brancher.mixedNode [] (.point (-2)) (.point (1 / 10)), .next,
    .allChildren Brancher.mixedNode [.point 3, .point (1 / 4)],
    .confirm 3 { Brancher.mixedNode with score := .point (-1) },
    .insertNode Brancher.mixedNode]

/-- The nodes that are waited for came out of splits of both variables then. -/
theorem describes_run_mixedRequests :
    Brancher.new Brancher.mixedBrancher.vars = .ok Brancher.mixedBrancher
      ∧ (∀ request ∈ mixedRequests, ∀ box ∈ request.box?, box.Bounded)
      ∧ (∀ n ∈ ((start Brancher.mixedBrancher).run mixedRequests).brancher.frontier.members,
        ((start Brancher.mixedBrancher).run mixedRequests).Describes n)
      ∧ ((start Brancher.mixedBrancher).run mixedRequests).brancher.waiting.map
          (·.2.history.split?)
        = [some (1, .up), some (1, .down), some (0, .up), some (0, .down)] := by
  have hnew : Brancher.new Brancher.mixedBrancher.vars = .ok Brancher.mixedBrancher := rfl
  have hbounded : ∀ request ∈ mixedRequests, ∀ box ∈ request.box?, box.Bounded := by
    decide +kernel
  exact ⟨hnew, hbounded, (describes_run hnew mixedRequests hbounded).1, by decide +kernel⟩

end Chronicle

end BranchBound
