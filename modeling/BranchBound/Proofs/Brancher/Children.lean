import BranchBound.Proofs.Brancher.Branching

/-! # The children of a node in every dimension

A node is split in each of its dimensions that can be split, for a comparison. The two children of a
dimension come one after the other and are the halves of the node whose bounds were moved to whole
numbers.

* **`Brancher.Halves`** — two nodes are the halves of a box.
* **`Brancher.ChildrenExit`** — what asking for the children comes to; `allChildren_exit` says that
  there is nothing else, and `allChildren_induct` goes through the splits one by one.
* **`Brancher.allChildren_spec`** — the children are pairs of halves, and when there are none.
* **`Halves.encloses`** — no point is lost between two halves. -/

namespace BranchBound.Brancher

variable {α : Type} [Scalar α]

/-- Two nodes are the lower and the upper part of a box, split in the middle of a dimension. -/
inductive Halves (vars : List (Variable α)) (box : Box α) (down up : Node α) : Prop
  /-- The dimension is wide enough to be split. -/
  | intro (i : Nat) (v : Variable α) (hv : vars[i]? = some v) (hwide : ¬ box.width i ≤ 0)
      (hdown : down.box = (parts v.kind box i).1) (hup : up.box = (parts v.kind box i).2)

variable {b c : Brancher α} {parent down up : Node α} {point x : List α} {vars : List (Variable α)}
  {box : Box α} {nodes : List (Node α)}

/-! ## Adding the children in one dimension -/

/-- The node is split in the dimension and the two children are handed out, unless the dimension is
too narrow. -/
theorem addChildren_cases (parent : Node α) (point : List α) (found : List (Node α) × Brancher α)
    (v : Variable α) (i : Nat) :
    (parent.box.width i ≤ 0 ∧ addChildren parent point found (v, i) = found)
      ∨ ¬ parent.box.width i ≤ 0 ∧ ∃ down up d,
        found.2.split parent i v.kind point = ((down, up), d)
          ∧ addChildren parent point found (v, i)
            = (found.1 ++ [down.node, up.node], (d.handOut down).handOut up) := by
  unfold addChildren
  dsimp only
  split
  · next hnarrow => exact .inl ⟨hnarrow, rfl⟩
  · next hwide => exact .inr ⟨hwide, _, _, _, rfl, rfl⟩

/-- The children of a split are the halves of the node. -/
theorem halves_of_split {i : Nat} {v : Variable α} {down up : OpenNode α} (hv : vars[i]? = some v)
    (hwide : ¬ parent.box.width i ≤ 0) (h : b.split parent i v.kind point = ((down, up), c)) :
    Halves vars parent.box down.node up.node := by
  obtain ⟨hdown, hup⟩ := split_nodes h
  exact .intro i v hv hwide (by rw [hdown]; rfl) (by rw [hup]; rfl)

/-- Splitting a node and handing the children out changes the next id and what is waited for. -/
theorem handOut_split {i : Nat} {kind : VariableKind} {down up : OpenNode α}
    (h : b.split parent i kind point = ((down, up), c)) :
    (c.handOut down).handOut up = { b with
      frontier.nextId := ((b.frontier.nextId + 1) % wordRange + 1) % wordRange
      waiting := (b.waiting.insert down.id ⟨down.score, down.history⟩).insert up.id
        ⟨up.score, up.history⟩ } := by
  cases h
  rfl

/-! ## All children -/

/-- What asking for the children in every dimension comes to. -/
inductive ChildrenExit (b : Brancher α) (parent : Node α) (point : List α) :
    Except (Error α) (List (Node α)) → Brancher α → Prop
  /-- There are more or fewer bounds than variables. -/
  | misfit {e : Error α} (hfault : b.dimensionFault? parent = some e) :
      ChildrenExit b parent point (.error e) b
  /-- No point is left once the bounds were moved to whole numbers. -/
  | empty (hfits : b.dimensionFault? parent = none)
      (hempty : (roundDiscrete b.vars parent.box).isEmpty = true) :
      ChildrenExit b parent point (.ok []) b
  /-- The children are added dimension by dimension. -/
  | gathered {nodes : List (Node α)} {c : Brancher α} (hfits : b.dimensionFault? parent = none)
      (hfull : (roundDiscrete b.vars parent.box).isEmpty = false)
      (hfold : b.vars.zipIdx.foldl
        (addChildren { parent with box := roundDiscrete b.vars parent.box } point) ([], b)
          = (nodes, c)) :
      ChildrenExit b parent point (.ok nodes) c

/-- It comes to nothing else. -/
theorem allChildren_exit {answer : Except (Error α) (List (Node α))}
    (h : b.allChildren parent point = (answer, c)) : ChildrenExit b parent point answer c := by
  unfold allChildren at h
  split at h
  · next hfault =>
    cases h
    exact .misfit hfault
  · next hfits =>
    dsimp only at h
    split at h
    · next hempty =>
      cases h
      exact .empty hfits hempty
    · next hfull =>
      cases h
      exact .gathered hfits (Bool.eq_false_iff.mpr hfull) rfl

/-- What is true before the node was split anywhere, and stays true when it is split in one more
dimension, is true of all its children and of the brancher that made them. -/
theorem allChildren_induct {motive : List (Node α) → Brancher α → Prop}
    (h : b.allChildren parent point = (.ok nodes, c)) (hnone : motive [] b)
    (hsplit : (roundDiscrete b.vars parent.box).isEmpty = false →
      ∀ found d i v (down up : OpenNode α) e, b.vars[i]? = some v →
        ¬ (roundDiscrete b.vars parent.box).width i ≤ 0 →
        d.split { parent with box := roundDiscrete b.vars parent.box } i v.kind point
          = ((down, up), e) →
        motive found d → motive (found ++ [down.node, up.node]) ((e.handOut down).handOut up)) :
    motive nodes c := by
  cases allChildren_exit h with
  | empty => exact hnone
  | gathered hfits hfull hfold =>
    -- each dimension adds the two halves or nothing, so that the fold keeps what one step keeps
    have hstep : ∀ found : List (Node α) × Brancher α, motive found.1 found.2 →
        ∀ d ∈ b.vars.zipIdx, motive
          (addChildren { parent with box := roundDiscrete b.vars parent.box } point found d).1
          (addChildren { parent with box := roundDiscrete b.vars parent.box } point found d).2 := by
      rintro found hfound ⟨v, i⟩ hd
      rcases addChildren_cases { parent with box := roundDiscrete b.vars parent.box } point found
        v i with ⟨-, hsame⟩ | ⟨hwide, down, up, e, hparts, hadded⟩
      · rw [hsame]
        exact hfound
      · rw [hadded]
        exact hsplit hfull _ _ i v _ _ _ (List.mem_zipIdx_iff_getElem?.mp hd) hwide hparts hfound
    have hall := List.foldlRecOn
      (motive := fun found : List (Node α) × Brancher α => motive found.1 found.2)
      (b := ([], b)) b.vars.zipIdx _ hnone hstep
    rw [hfold] at hall
    exact hall

/-- What stays true of a brancher when it splits the node in one dimension stays true when it splits
it in every dimension, even if it cannot. -/
theorem allChildren_frame {motive : Brancher α → Prop} (parent : Node α) (point : List α)
    (hb : motive b)
    (hsplit : ∀ d i v (down up : OpenNode α) e, b.vars[i]? = some v →
      d.split { parent with box := roundDiscrete b.vars parent.box } i v.kind point
        = ((down, up), e) →
      motive d → motive ((e.handOut down).handOut up)) :
    motive (b.allChildren parent point).2 := by
  rcases hall : b.allChildren parent point with ⟨e | nodes, c⟩
  · cases allChildren_exit hall
    exact hb
  · exact allChildren_induct (motive := fun _ d => motive d) hall hb
      fun _ _ d i v down up e hv _ hparts => hsplit d i v down up e hv hparts

/-- A node whose children cannot be made leaves the brancher as it is. -/
theorem allChildren_error {e : Error α} (h : b.allChildren parent point = (.error e, c)) :
    c = b := by
  cases allChildren_exit h
  rfl

/-- Adding the children in some dimensions adds pairs of halves, one for each dimension that is wide
enough. -/
theorem foldl_addChildren (parent : Node α) (point : List α) {dimensions : List (Variable α × Nat)}
    (hdimensions : ∀ d ∈ dimensions, vars[d.2]? = some d.1) (found : List (Node α) × Brancher α) :
    ∃ ps : List (Node α × Node α),
      (dimensions.foldl (addChildren parent point) found).1
          = found.1 ++ ps.flatMap (fun p => [p.1, p.2])
        ∧ (∀ p ∈ ps, Halves vars parent.box p.1 p.2)
        ∧ (ps = [] ↔ ∀ d ∈ dimensions, parent.box.width d.2 ≤ 0) := by
  -- the pairs are found from the first dimension on
  induction dimensions generalizing found with
  | nil => exact ⟨[], by simp, by simp, by simp⟩
  | cons d rest ih =>
    obtain ⟨v, i⟩ := d
    obtain ⟨ps, heq, hps, hnone⟩ := ih (fun e he => hdimensions e (List.mem_cons_of_mem _ he))
      (addChildren parent point found (v, i))
    rcases addChildren_cases parent point found v i
      with ⟨hnarrow, hsame⟩ | ⟨hwide, down, up, e, hsplit, hadded⟩
    · refine ⟨ps, ?_, hps, ?_⟩
      · rw [List.foldl_cons, heq, hsame]
      · rw [hnone, List.forall_mem_cons]
        exact (and_iff_right hnarrow).symm
    · refine ⟨(down.node, up.node) :: ps, ?_, ?_, ?_⟩
      · rw [List.foldl_cons, heq, hadded, List.flatMap_cons, List.append_assoc]
      · rw [List.forall_mem_cons]
        exact ⟨halves_of_split (hdimensions _ List.mem_cons_self) hwide hsplit, hps⟩
      · rw [List.forall_mem_cons]
        exact ⟨fun h => absurd h (List.cons_ne_nil _ _), fun h => absurd h.1 hwide⟩

/-- The children of a node in every dimension are pairs of halves. There are none if no point is
left once the bounds were moved to whole numbers, or only one in each dimension. -/
theorem allChildren_spec (h : b.allChildren parent point = (.ok nodes, c)) :
    b.dimensionFault? parent = none ∧ ∃ ps : List (Node α × Node α),
      nodes = ps.flatMap (fun p => [p.1, p.2])
        ∧ (∀ p ∈ ps, Halves b.vars (roundDiscrete b.vars parent.box) p.1 p.2)
        ∧ (ps = [] ↔ (roundDiscrete b.vars parent.box).isEmpty = true
          ∨ ∀ i < b.vars.length, (roundDiscrete b.vars parent.box).width i ≤ 0) := by
  cases allChildren_exit h with
  | empty hfits hempty => exact ⟨hfits, [], rfl, by simp, by simp [hempty]⟩
  | gathered hfits hfull hfold =>
    have hmem : ∀ d ∈ b.vars.zipIdx, b.vars[d.2]? = some d.1 :=
      fun d hd => List.mem_zipIdx_iff_getElem?.mp hd
    obtain ⟨ps, heq, hps, hnone⟩ := foldl_addChildren
      { parent with box := roundDiscrete b.vars parent.box } point hmem ([], b)
    rw [hfold] at heq
    refine ⟨hfits, ps, heq, hps, ?_⟩
    -- the box is not empty here, so that only its widths matter
    rw [hnone, or_iff_right (Bool.eq_false_iff.mp hfull)]
    constructor
    · intro hnarrow i hi
      exact hnarrow (b.vars[i], i)
        (List.mem_zipIdx_iff_getElem?.mpr (List.getElem?_eq_getElem hi))
    · intro hnarrow d hd
      exact hnarrow d.2 (List.getElem?_eq_some_iff.mp (hmem d hd)).1

/-- A point of a box of finite bounds is in one of its halves, if it is whole where it has to be. -/
theorem Halves.encloses [Scalar.Rounding α] (h : Halves vars box down up) (hbox : box.Contains x)
    (hlength : x.length = vars.length) (hx : Integral vars x) :
    down.box.Encloses x ∨ up.box.Encloses x := by
  obtain ⟨i, v, hv, -, hdown, hup⟩ := h
  have hi : i < x.length := hlength ▸ (List.getElem?_eq_some_iff.mp hv).1
  rw [hdown, hup]
  exact encloses_parts v.kind hbox.toEncloses hi
    (Scalar.Rounding.isNaN_middle (hbox.isFinite_lower i hi) (hbox.isFinite_upper i hi)) (hx i v hv)

end BranchBound.Brancher
