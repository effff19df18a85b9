import BranchBound.Proofs.Brancher.Offspring
import BranchBound.Proofs.Brancher.Pedigree

/-! # Children for a comparison

Branching splits a node in one dimension and queues the children; strong branching splits it in all
of them, to find out which dimension branching had better choose. The two go about it separately.
Under exact arithmetic they agree nevertheless: the pair of children that strong branching answers
with for a dimension is, apart from the ids, the one that branching queues if it chooses this
dimension, and the pairs come one after the other, in the order of the dimensions. Strong branching
hands its children out under the ids that follow and changes nothing else.

* **`Brancher.Parting`**, **`Brancher.forall₂_pairs`** — each pair comes out of a split in a
  dimension of its own.
* **`Brancher.HandsOut`**, **`Brancher.handsOut_allChildren`** — what handing out the children
  changes.
* **`Brancher.Previews`** — two children are what branching makes of a node in a dimension;
  `Brancher.allChildren_previews`. -/

namespace BranchBound

/-- Two open nodes are the same and were made in the same way, apart from their ids and from their
rank among the open nodes. -/
structure OpenNode.Matches {α : Type} (m n : OpenNode α) : Prop where
  /-- The nodes differ in the id at most. -/
  node : m.node = { n.node with id := m.id }
  /-- They were made in the same way. -/
  history : m.history = n.history

namespace Brancher

section Splits

variable {α : Type} [Scalar α] {b c d : Brancher α} {parent n : Node α} {point : List α}
  {vars : List (Variable α)} {i id : ℕ}

/-! ## The pairs -/

/-- Two nodes as they come out of splitting a node in a dimension in which it has a width. -/
inductive Parting (vars : List (Variable α)) (parent : Node α) (point : List α) (i : ℕ)
    (pair : OpenNode α × OpenNode α) : Prop
  /-- The lower child comes first. -/
  | intro {c d : Brancher α} {v : Variable α} (hvars : c.vars = vars) (hv : vars[i]? = some v)
      (hwide : ¬ parent.box.width i ≤ 0) (hsplit : c.split parent i v.kind point = (pair, d))

/-- Whoever splits a node in a dimension, the children are the same apart from their ids. -/
theorem Parting.matches_split {pair other : OpenNode α × OpenNode α} {v : Variable α}
    (h : Parting vars parent point i pair) (hv : vars[i]? = some v)
    (hsplit : c.split parent i v.kind point = (other, d)) :
    other.1.Matches pair.1 ∧ other.2.Matches pair.2 := by
  obtain ⟨-, hw, -, hpair⟩ := h
  cases hv.symm.trans hw
  cases hsplit
  cases hpair
  exact ⟨⟨rfl, rfl⟩, rfl, rfl⟩

/-- The children of a node in some dimensions are one pair for each of them in which the node has a
width, in their order. -/
theorem forall₂_pairs (parent : Node α) (point : List α) {dimensions : List (Variable α × ℕ)}
    (hdimensions : ∀ d ∈ dimensions, vars[d.2]? = some d.1) (hvars : b.vars = vars) :
    List.Forall₂ (Parting vars parent point)
      ((dimensions.map (·.2)).filter fun i => ¬ parent.box.width i ≤ 0)
      (pairs parent point b dimensions) := by
  induction dimensions generalizing b with
  | nil => exact .nil
  | cons d rest ih =>
    obtain ⟨v, i⟩ := d
    rw [List.forall_mem_cons] at hdimensions
    rw [List.map_cons, pairs]
    by_cases hnarrow : parent.box.width i ≤ 0
    · rw [if_pos hnarrow, List.filter_cons_of_neg (by simpa using hnarrow)]
      exact ih hdimensions.2 hvars
    · -- the next pair is made by the brancher that handed out this one, over the same variables
      rw [if_neg hnarrow, List.filter_cons_of_pos (by simpa using hnarrow)]
      exact .cons (.intro hvars hdimensions.1 hnarrow rfl) (ih hdimensions.2 hvars)

/-- The children in some dimensions take the ids that follow, as long as these do not run out. -/
theorem ids_pairs (dimensions : List (Variable α × ℕ))
    (hroom : b.frontier.nextId + 2 * (pairs parent point b dimensions).length < wordRange) :
    ((pairs parent point b dimensions).flatMap fun pair => [pair.1, pair.2]).map OpenNode.id
      = List.range' b.frontier.nextId (2 * (pairs parent point b dimensions).length) := by
  induction dimensions generalizing b with
  | nil => rfl
  | cons d rest ih =>
    obtain ⟨v, i⟩ := d
    rw [pairs] at hroom ⊢
    split at hroom
    · next hnarrow =>
      rw [if_pos hnarrow]
      exact ih hroom
    · next hwide =>
      rw [if_neg hwide]
      rcases hsplit : b.split parent i v.kind point with ⟨⟨down, up⟩, c⟩
      rw [hsplit] at hroom
      dsimp only [List.length_cons] at hroom ⊢
      -- the split takes two ids, and handing its children out takes none
      obtain ⟨hdown, hup, hc⟩ := split_ids hsplit (by omega)
      have hnext : ((c.handOut down).handOut up).frontier.nextId = b.frontier.nextId + 2 := by
        rw [hc]
        rfl
      have hrest := ih (b := (c.handOut down).handOut up) (by rw [hnext]; omega)
      rw [hnext] at hrest
      rw [List.flatMap_cons, List.map_append, hrest]
      show down.id :: up.id :: List.range' _ _ = List.range' _ (2 * List.length _ + 2)
      rw [hdown, hup]
      rfl

/-- So do the children in every dimension. -/
theorem ids_handed
    (hroom : b.frontier.nextId + (b.handed (.allChildren parent point)).length < wordRange) :
    (b.handed (.allChildren parent point)).map OpenNode.id
      = List.range' b.frontier.nextId (b.handed (.allChildren parent point)).length := by
  rw [handed, length_flatMap_pair] at hroom ⊢
  unfold childPairs at hroom ⊢
  split
  · rfl
  · next hfull =>
    rw [if_neg hfull] at hroom
    exact ids_pairs _ hroom

/-! ## Handing out -/

omit [Scalar α] in
/-- Handing out some nodes leaves what is remembered of others. -/
theorem lookup_foldl_handOut_of_notMem {nodes : List (OpenNode α)}
    (hid : id ∉ nodes.map OpenNode.id) :
    (nodes.foldl handOut b).waiting.lookup id = b.waiting.lookup id := by
  induction nodes generalizing b with
  | nil => rfl
  | cons m rest ih =>
    rw [List.map_cons, List.mem_cons, not_or] at hid
    rw [List.foldl_cons, ih hid.2]
    show ((m.id, _) :: Waiting.erase b.waiting m.id).lookup id = _
    rw [List.lookup_cons, beq_false_of_ne hid.1]
    exact Waiting.lookup_erase_of_ne hid.1

omit [Scalar α] in
/-- Nodes that are handed out are remembered with their scores and histories, unless two of them
share an id. -/
theorem lookup_foldl_handOut_of_mem {nodes : List (OpenNode α)}
    (hnodup : (nodes.map OpenNode.id).Nodup) {m : OpenNode α} (hm : m ∈ nodes) :
    (nodes.foldl handOut b).waiting.lookup m.id = some ⟨m.score, m.history⟩ := by
  induction nodes generalizing b with
  | nil => exact absurd hm List.not_mem_nil
  | cons first rest ih =>
    rw [List.map_cons, List.nodup_cons] at hnodup
    rw [List.foldl_cons]
    rcases List.mem_cons.mp hm with rfl | hm
    · rw [lookup_foldl_handOut_of_notMem hnodup.1]
      exact List.lookup_cons_self
    · exact ih hnodup.2 hm

/-- Some nodes were handed out under ids of their own. -/
structure HandsOut (b c : Brancher α) (nodes : List (OpenNode α)) : Prop where
  /-- The open nodes, the averages and the settings stay. -/
  unchanged : c = { b with frontier.nextId := c.frontier.nextId, waiting := c.waiting }
  /-- Nothing is added to what is remembered of other nodes. -/
  others : ∀ id, id ∉ nodes.map OpenNode.id → c.waiting.lookup id = b.waiting.lookup id
  /-- As long as the ids do not run out, the nodes take the next ones in ascending order. -/
  ids : b.frontier.nextId + nodes.length < wordRange →
    nodes.map OpenNode.id = List.range' b.frontier.nextId nodes.length
      ∧ c.frontier.nextId = b.frontier.nextId + nodes.length
  /-- Then each of them is remembered with its score and its history. -/
  remembered : b.frontier.nextId + nodes.length < wordRange →
    ∀ n ∈ nodes, c.waiting.lookup n.id = some ⟨n.score, n.history⟩

/-- The children of a node in every dimension are handed out. -/
theorem handsOut_allChildren {nodes : List (Node α)}
    (h : b.allChildren parent point = (.ok nodes, c)) :
    HandsOut b c (b.handed (.allChildren parent point)) := by
  obtain ⟨hnodes, id, hc⟩ := allChildren_eq h
  obtain ⟨waiting, hwaiting⟩ := foldl_handOut (b.handed (.allChildren parent point))
    { b with frontier.nextId := id }
  refine ⟨?_, fun other hother => ?_, fun hroom => ⟨ids_handed hroom, ?_⟩, fun hroom m hm => ?_⟩
  · rw [hc, hwaiting]
  · rw [hc, lookup_foldl_handOut_of_notMem hother]
  · rw [← List.length_map OpenNode.node, ← hnodes] at hroom ⊢
    exact (allChildren_twins h hroom).1
  · have hnodup : ((b.handed (.allChildren parent point)).map OpenNode.id).Nodup := by
      rw [ids_handed hroom]
      exact List.nodup_range'
    rw [hc, lookup_foldl_handOut_of_mem hnodup hm]

/-! ## The answer -/

/-- There are no children if the box is empty. -/
theorem allChildren_of_isEmpty (hdim : b.dimensionFault? parent = none)
    (hempty : (roundDiscrete b.vars parent.box).isEmpty = true) :
    b.allChildren parent point = (.ok [], b) := by
  rcases hall : b.allChildren parent point with ⟨answer, c⟩
  cases allChildren_exit hall with
  | misfit hfault => cases hdim.symm.trans hfault
  | empty => rfl
  | gathered _ hfull => cases hempty.symm.trans hfull

/-- Otherwise they are those in all the dimensions. -/
theorem exists_allChildren (point : List α) (hdim : b.dimensionFault? parent = none)
    (hfull : (roundDiscrete b.vars parent.box).isEmpty = false) :
    (∃ nodes c, b.allChildren parent point = (.ok nodes, c))
      ∧ b.childPairs parent point
        = pairs { parent with box := roundDiscrete b.vars parent.box } point b b.vars.zipIdx := by
  refine ⟨?_, by rw [childPairs, hdim, hfull]; rfl⟩
  rcases hall : b.allChildren parent point with ⟨answer, c⟩
  cases allChildren_exit hall with
  | misfit hfault => cases hdim.symm.trans hfault
  | empty _ hempty => cases hempty.symm.trans hfull
  | gathered => exact ⟨_, _, rfl⟩

end Splits

variable {K : Type} [Field K] [LinearOrder K] [FloorRing K] [IsStrictOrderedRing K]
  {b d : Brancher (Extended K)} {parent : Node (Extended K)} {point : List (Extended K)}
  {objective tolerance : Extended K} {i : ℕ} {pair : OpenNode (Extended K) × OpenNode (Extended K)}

/-! ## Agreement -/

/-- Two children are what branching makes of a node in a dimension: they share the node between
them, whose bounds were moved to whole numbers, and every brancher over these variables that chooses
to split the node there, under an objective value that does not raise its score, queues the same
children under ids of its own. -/
structure Previews (b : Brancher (Extended K)) (parent : Node (Extended K))
    (point : List (Extended K)) (i : ℕ) (pair : OpenNode (Extended K) × OpenNode (Extended K)) :
    Prop where
  /-- They are the two parts of an interval, and their histories say so. -/
  siblings : ∃ v x, relaxedValue (roundDiscrete b.vars parent.box) i point = .point x
    ∧ Siblings b.vars pair i v x ((roundDiscrete b.vars parent.box).low i)
      ((roundDiscrete b.vars parent.box).high i)
  /-- They share the points of the node between them and inherit the rest, one level deeper. -/
  divides : parent.depth + 1 < depthRange → ∃ v, b.vars[i]? = some v
    ∧ Divides b.vars { parent with box := roundDiscrete b.vars parent.box } i v pair.1.node
      pair.2.node
  /-- Branching queues the same children. -/
  queued : ∀ (d e : Brancher (Extended K)) (objective tolerance : Extended K) (k l : ℕ),
    d.vars = b.vars → objective ≤ parent.score ∨ Scalar.isNaN objective = true →
    d.branch parent point objective tolerance = (.ok (.split i k l), e) →
    ∃ down up : OpenNode (Extended K),
      (down.Matches pair.1 ∧ up.Matches pair.2) ∧ (down.id = k ∧ up.id = l)
        ∧ e = (({ d with
          frontier.nextId := ((d.frontier.nextId + 1) % wordRange + 1) % wordRange }.offer
            down).2.offer up).2

omit [IsStrictOrderedRing K] in
/-- An objective value that is not above the score of a node does not raise it. -/
theorem rounded_eq (hvars : d.vars = b.vars)
    (hobjective : objective ≤ parent.score ∨ Scalar.isNaN objective = true) :
    d.rounded parent objective = { parent with box := roundDiscrete b.vars parent.box } := by
  unfold rounded
  rw [hvars]
  split
  · rfl
  · next hdefined =>
    have hle := hobjective.resolve_right hdefined
    have hscore := Scalar.Ordered.isNaN_right_of_le hle
    rw [Extended.eq_of_same ⟨Scalar.greatest_le (Scalar.Ordered.le_refl hscore) hle,
      Scalar.le_greatest_left hscore⟩]

omit [IsStrictOrderedRing K] in
/-- Branching queues the children that come out of splitting the node whose bounds were moved to
whole numbers, if it chooses their dimension. -/
theorem Parting.queued {e : Brancher (Extended K)} {k l : ℕ}
    (h : Parting b.vars { parent with box := roundDiscrete b.vars parent.box } point i pair)
    (hvars : d.vars = b.vars)
    (hobjective : objective ≤ parent.score ∨ Scalar.isNaN objective = true)
    (hbranch : d.branch parent point objective tolerance = (.ok (.split i k l), e)) :
    ∃ down up : OpenNode (Extended K),
      (down.Matches pair.1 ∧ up.Matches pair.2) ∧ (down.id = k ∧ up.id = l)
        ∧ e = (({ d with
          frontier.nextId := ((d.frontier.nextId + 1) % wordRange + 1) % wordRange }.offer
            down).2.offer up).2 := by
  obtain ⟨-, hbranched⟩ := branch_cases hbranch
  cases hbranched with
  | @split _ w hw down up f hsplit =>
    -- the score is not raised, so that both have split the same node
    rw [hvars] at hw
    rw [rounded_eq hvars hobjective] at hsplit
    refine ⟨down, up, h.matches_split hw hsplit, ⟨rfl, rfl⟩, ?_⟩
    rw [split_brancher hsplit]

/-- So these children preview what branching makes of the node. -/
theorem Parting.previews (h : parent.box.Finite b.vars.length)
    (hfull : (roundDiscrete b.vars parent.box).isEmpty = false)
    (hparting : Parting b.vars { parent with box := roundDiscrete b.vars parent.box } point i
      pair) : b.Previews parent point i pair := by
  have hrounded : (roundDiscrete b.vars parent.box).Finite b.vars.length := h.roundDiscrete
  refine ⟨?_, fun hdepth => ?_, fun _ _ _ _ _ _ => hparting.queued⟩ <;>
    obtain @⟨c, _, v, hvars, hv, hwide, hsplit⟩ := hparting
  · obtain ⟨x, hx, hsiblings⟩ := siblings_split hrounded hv hwide hsplit
    exact ⟨v, x, hx, hsiblings⟩
  · have hwhole := h.wholeBounds_roundDiscrete
    have hordered := hrounded.isEmpty_iff.mp hfull
    refine ⟨v, hv, ?_⟩
    -- the split may be that of another brancher, which has the variables in common with this one
    generalize roundDiscrete b.vars parent.box = box at hrounded hwhole hordered hwide hsplit ⊢
    rw [← hvars] at hv hwhole hordered hrounded ⊢
    exact divides_split hrounded hwhole hordered hdepth hv hwide hsplit

/-- The dimensions in which a node has a width once its bounds were moved to whole numbers. -/
def wideDimensions (b : Brancher (Extended K)) (parent : Node (Extended K)) : List ℕ :=
  (List.range b.vars.length).filter fun i =>
    (roundDiscrete b.vars parent.box).low i < (roundDiscrete b.vars parent.box).high i

/-- They are those that strong branching does not pass over. -/
theorem wideDimensions_eq (h : parent.box.Finite b.vars.length) :
    b.wideDimensions parent = (b.vars.zipIdx.map (·.2)).filter fun i =>
      ¬ (roundDiscrete b.vars parent.box).width i ≤ 0 := by
  have hrounded : (roundDiscrete b.vars parent.box).Finite b.vars.length := h.roundDiscrete
  rw [List.zipIdx_map_snd, ← List.range_eq_range', wideDimensions]
  refine List.filter_congr fun i hi => ?_
  rw [decide_eq_decide, hrounded.not_width_le_zero_iff (List.mem_range.mp hi)]

/-- Strong branching of a node of finite bounds succeeds. It answers with no children if the box is
empty whose discrete bounds were moved to whole numbers. Otherwise it answers with two for each
dimension in which that box has a width, which preview what branching makes of the node there, and
hands these out. -/
theorem allChildren_previews (h : parent.box.Finite b.vars.length) (point : List (Extended K)) :
    ((∃ j < b.vars.length,
        (roundDiscrete b.vars parent.box).high j < (roundDiscrete b.vars parent.box).low j) →
      b.allChildren parent point = (.ok [], b))
    ∧ ((∀ j < b.vars.length,
        (roundDiscrete b.vars parent.box).low j ≤ (roundDiscrete b.vars parent.box).high j) →
      ∃ (ps : List (OpenNode (Extended K) × OpenNode (Extended K))) (c : Brancher (Extended K)),
        b.allChildren parent point
            = (.ok ((ps.flatMap fun pair => [pair.1, pair.2]).map OpenNode.node), c)
          ∧ List.Forall₂ (b.Previews parent point) (b.wideDimensions parent) ps
          ∧ HandsOut b c (ps.flatMap fun pair => [pair.1, pair.2])) := by
  have hrounded : (roundDiscrete b.vars parent.box).Finite b.vars.length := h.roundDiscrete
  have hdim : b.dimensionFault? parent = none := dimensionFault_eq_none_iff.mpr h.dimension
  refine ⟨fun ⟨j, hj, hlt⟩ => ?_, fun hordered => ?_⟩
  · refine allChildren_of_isEmpty hdim (Bool.eq_true_of_not_eq_false fun hfull => ?_)
    exact absurd (hrounded.isEmpty_iff.mp hfull j hj) (not_le.mpr hlt)
  · have hfull := hrounded.isEmpty_iff.mpr hordered
    obtain ⟨⟨nodes, c, hall⟩, hpairs⟩ := exists_allChildren point hdim hfull
    refine ⟨b.childPairs parent point, c, ?_, ?_, handsOut_allChildren hall⟩
    · obtain ⟨hnodes, -⟩ := allChildren_eq hall
      rw [hall, hnodes]
      rfl
    · -- dimension by dimension, the children are the parts that branching would make
      have hpartings := forall₂_pairs (b := b)
        { parent with box := roundDiscrete b.vars parent.box } point
        (fun d hd => List.mem_zipIdx_iff_getElem?.mp hd) rfl
      rw [hpairs, wideDimensions_eq h]
      exact hpartings.imp fun i pair hparting => hparting.previews h hfull

/-- A node without a whole number between its discrete bounds. -/
def hollowNode : Node (Extended ℚ) :=
  { mixedNode with box := ⟨[.point (1 / 4), 0], [.point (3 / 4), 1]⟩ }

/-- Such a node has no children. The node over both variables has four, and branching would queue
the first two of them. -/
theorem allChildren_previews_mixedNode :
    mixedBrancher.allChildren hollowNode [] = (.ok [], mixedBrancher)
      ∧ ∃ p q c, mixedBrancher.allChildren mixedNode [.point 3]
          = (.ok [p.1.node, p.2.node, q.1.node, q.2.node], c)
        ∧ mixedBrancher.Previews mixedNode [.point 3] 0 p
        ∧ mixedBrancher.Previews mixedNode [.point 3] 1 q
        ∧ [p.1.id, p.2.id, q.1.id, q.2.id] = [1, 2, 3, 4]
        ∧ c.waiting.lookup q.2.id = some ⟨q.2.score, q.2.history⟩
        ∧ c.waiting.lookup 5 = none
        ∧ ∃ down up : OpenNode (Extended ℚ), down.Matches p.1 ∧ up.Matches p.2
          ∧ (mixedBrancher.branch mixedNode [.point 3] (.point (-4)) (.point (1 / 10))).2.frontier
              = ((({ mixedBrancher with frontier.nextId := 3 }.offer down).2.offer up).2).frontier
            := by
  have hbox : mixedNode.box.Finite mixedBrancher.vars.length :=
    Box.Bounded.finite (by decide +kernel) rfl
  have hhollow : hollowNode.box.Finite mixedBrancher.vars.length :=
    Box.Bounded.finite (by decide +kernel) rfl
  refine ⟨(allChildren_previews hhollow []).1 (by decide +kernel), ?_⟩
  obtain ⟨ps, c, hall, hps, hout⟩ :=
    (allChildren_previews hbox [.point 3]).2 (by decide +kernel)
  have hwide : mixedBrancher.wideDimensions mixedNode = [0, 1] := by decide +kernel
  rw [hwide] at hps
  -- there is one pair for each of the two dimensions
  obtain ⟨p, _, hp, hrest, rfl⟩ := List.forall₂_cons_left_iff.mp hps
  obtain ⟨q, _, hq, hnil, rfl⟩ := List.forall₂_cons_left_iff.mp hrest
  obtain rfl := List.forall₂_nil_left_iff.mp hnil
  have hroom : mixedBrancher.frontier.nextId + [p.1, p.2, q.1, q.2].length < wordRange := by
    show 5 < wordRange
    decide
  have hids : [p.1.id, p.2.id, q.1.id, q.2.id] = [1, 2, 3, 4] := (hout.ids hroom).1
  -- branching would split in the first dimension
  have hbranch : (mixedBrancher.branch mixedNode [.point 3] (.point (-4))
      (.point (1 / 10))).1.toOption = some (.split 0 1 2) := by decide +kernel
  rcases hanswer : mixedBrancher.branch mixedNode [.point 3] (.point (-4)) (.point (1 / 10))
    with ⟨answer, e⟩
  rw [hanswer] at hbranch
  obtain ⟨outcome, rfl⟩ : ∃ outcome, answer = .ok outcome := by
    cases answer with
    | error => cases hbranch
    | ok outcome => exact ⟨outcome, rfl⟩
  cases hbranch
  obtain ⟨down, up, ⟨hdown, hup⟩, -, rfl⟩ :=
    hp.queued mixedBrancher e _ _ 1 2 rfl (.inl (by decide +kernel)) hanswer
  refine ⟨p, q, c, hall, hp, hq, hids, ?_, ?_, down, up, hdown, hup, rfl⟩
  · exact hout.remembered hroom q.2 (by simp)
  · refine (hout.others 5 ?_).trans rfl
    show 5 ∉ [p.1.id, p.2.id, q.1.id, q.2.id]
    rw [hids]
    decide

end Brancher

end BranchBound
