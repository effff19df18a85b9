import BranchBound.Proofs.Node.Barren
import BranchBound.Proofs.Search.Delving
import BranchBound.Proofs.Search.Neglecting

/-! # Strong branching below any depth

Strong branching keeps the pair of children that promises most, in whichever dimension. A continuous
and an integer variable of the same width are given to solvers that refute the upper half of every
node in the continuous dimension: that dimension is split for ever, and the integer one is left as
it is. Once the solvers cut a hair off the integer dimension, the node is within the size tolerance
and not branched strongly any more; moving the bounds to whole numbers undoes the cut, and the node
is split as it would be without strong branching, however deep it is.

* **`Serial.Delves`** — one node is open, which so many splits led to.
* **`Delves.step`** — it is branched strongly, and one part of it is open afterwards.
* **`Delves.splits`** — in the end it is split like any other node.
* **`Serial.not_exists_depth_strong`** — there is no depth below which nodes are not split. -/

namespace BranchBound

/-- Lowering an upper bound shrinks a box. -/
theorem Box.shrunk_setUpper {α : Type} [Scalar α] {b : Box α} {i : ℕ} {x : α}
    (h : x ≤ b.upperAt i) : (b.setUpper i x).Shrunk b := by
  refine ⟨rfl, List.length_set, fun j => .inl rfl, fun j => ?_⟩
  by_cases hset : i = j ∧ i < b.upper.length
  · obtain ⟨rfl, hi⟩ := hset
    refine .inr ?_
    rwa [Box.upperAt, Box.setUpper, List.getD_eq_getElem _ _ (by rwa [List.length_set]),
      List.getElem_set_self]
  · refine .inl ?_
    rw [Box.upperAt, Box.upperAt, Box.setUpper, List.getD_eq_getElem?_getD,
      List.getD_eq_getElem?_getD, List.getElem?_set]
    by_cases hij : i = j
    · have hlength : b.upper.length ≤ i := not_lt.mp fun hi => hset ⟨hij, hi⟩
      rw [if_pos hij, if_neg (not_lt.mpr hlength), List.getElem?_eq_none (hij ▸ hlength)]
    · rw [if_neg hij]

namespace Serial

open Search (sliver Fruitless)

/-! ## The problem and its solvers -/

/-- A continuous and an integer variable between zero and one. -/
def slabVars : List (Variable (Extended ℚ)) :=
  [⟨0, 1, .continuous, 1, "x"⟩, ⟨0, 1, .integer, 1, "y"⟩]

/-- Less than what a bound of a discrete variable may miss a whole number by. -/
def hair : Extended ℚ := .point (1 / 10 ^ 10)

/-- What is left of the unit once a hair was cut off. -/
theorem one_sub_hair : (1 - hair : Extended ℚ) = .point (1 - 1 / 10 ^ 10) :=
  Extended.sub_point _ _

/-- It is less than the unit. -/
theorem one_sub_hair_lt : (1 - hair : Extended ℚ) < 1 := by
  rw [one_sub_hair]
  exact Extended.point_lt_point.mpr (by norm_num)

/-- It is positive. -/
theorem one_sub_hair_pos : (0 : Extended ℚ) < 1 - hair := by
  rw [one_sub_hair]
  exact Extended.point_lt_point.mpr (by norm_num)

/-- Settings under which the widest dimension is split, unless the node may be branched strongly, as
long as the node is wider than the domain less a hair. -/
def delvingSettings (rounds : ℕ) : Settings (Extended ℚ) :=
  { Settings.standard with
    rule := .absoluteDiameter
    sizeTolerance := 1 - hair
    strongDepth := depthRange
    maxNodes := 5 * rounds + 1 }

/-- Cuts a hair off the integer dimension of a box whose continuous one is narrow enough. -/
def trimBox (narrow : ℚ) (b : Box (Extended ℚ)) : Box (Extended ℚ) :=
  if b.upperAt 0 ≤ .point narrow ∧ 1 ≤ b.upperAt 1 then b.setUpper 1 (1 - hair) else b

/-- Solvers that refute the upper part of the continuous dimension, and cut a hair off the integer
one after so many rounds. -/
def delvingSolvers (rounds : ℕ) : Solvers Unit (Extended ℚ) :=
  .barren (fun n => { n with box := trimBox ((1 / 2) ^ rounds) n.box })
    fun n => if 0 < n.box.lowerAt 0 then none else some 0

/-- They do nothing but shrink boxes. -/
theorem shrunk_delvingSolvers (rounds : ℕ) : (delvingSolvers rounds).Tighten Node.Shrunk := by
  refine shrunk_barren fun n => ⟨rfl, rfl, rfl, ?_⟩
  show (trimBox _ n.box).Shrunk n.box
  unfold trimBox
  split
  · next hcut =>
    refine Box.shrunk_setUpper ?_
    exact Scalar.Ordered.le_trans (Scalar.le_of_lt one_sub_hair_lt) hcut.2
  · exact .refl n.box

/-- The variables are in standard form. -/
theorem validated_slabVars : slabVars.mapM Variable.validated = .ok slabVars := rfl

/-- The variables and the settings start a search. -/
theorem exists_delvingStart (rounds : ℕ) :
    ∃ start, Search.new slabVars (delvingSettings rounds) = .ok start := by
  obtain ⟨_, hvalid, -⟩ := exists_eq_ok (P := fun _ => True)
    (show ∃ valid ∈ (delvingSettings 0).validate.toOption, True by decide +kernel)
  exact Search.exists_new hvalid validated_slabVars

/-! ## Boxes -/

section Boxes

variable {w narrow : ℚ} {b : Box (Extended ℚ)}

/-- The continuous dimension is not cut. -/
theorem upperAt_trimBox : (trimBox narrow b).upperAt 0 = b.upperAt 0 := by
  unfold trimBox
  split
  · show (b.upper.set 1 (1 - hair)).getD 0 0 = b.upper.getD 0 0
    rw [List.getD_eq_getElem?_getD, List.getElem?_set_ne Nat.one_ne_zero,
      ← List.getD_eq_getElem?_getD]
  · rfl

/-- Nothing is cut off a box that is not narrow yet. -/
theorem trimBox_of_lt (hupper : b.upperAt 0 = .point w) (hw : narrow < w) :
    trimBox narrow b = b := by
  rw [trimBox, hupper]
  exact if_neg fun h => absurd (Extended.point_le_point.mp h.1) (not_le.mpr hw)

/-- A hair is cut off the sliver that is narrow enough. -/
theorem trimBox_sliver : trimBox w (sliver w) = ⟨[0, 0], [.point w, 1 - hair]⟩ := by
  rw [trimBox, if_pos ⟨Extended.point_le_point.mpr le_rfl, Extended.point_le_point.mpr le_rfl⟩]
  rfl

/-- Nothing is cut off a second time. -/
theorem trimBox_trimBox (hw : narrow ≤ w) :
    trimBox narrow (trimBox narrow (sliver w)) = trimBox narrow (sliver w) := by
  rcases hw.lt_or_eq with hlt | rfl
  · have hsame : trimBox narrow (sliver w) = sliver w := trimBox_of_lt rfl hlt
    rw [hsame, hsame]
  · rw [trimBox_sliver, trimBox]
    exact if_neg fun h => Scalar.not_le_of_lt one_sub_hair_lt h.2

/-- A part of the sliver in the integer dimension is not empty. -/
theorem isEmpty_part_sliver {l u : Extended ℚ} (hw : 0 < w) (hlu : ¬ u < l) :
    (⟨[0, l], [.point w, u]⟩ : Box (Extended ℚ)).isEmpty = false :=
  Search.isEmpty_rectangle
    (fun hlt => absurd (Extended.point_lt_point.mp hlt) (not_lt.mpr hw.le)) hlu

/-- The sliver is not empty even if a hair was cut off it. -/
theorem isEmpty_trimBox (hw : narrow ≤ w) (hpos : 0 < w) :
    (trimBox narrow (sliver w)).isEmpty = false := by
  rcases hw.lt_or_eq with hlt | rfl
  · rw [trimBox_of_lt rfl hlt]
    exact Search.isEmpty_sliver hpos
  · rw [trimBox_sliver]
    exact isEmpty_part_sliver hpos fun hlt =>
      Scalar.not_le_of_lt hlt (Scalar.le_of_lt one_sub_hair_pos)

/-- The upper half of the sliver in the continuous dimension is not empty. -/
theorem isEmpty_upper_sliver (hw : 0 < w) :
    ((sliver w).setLower 0 (.point (w / 2))).isEmpty = false :=
  Search.isEmpty_rectangle
    (fun hlt => absurd (Extended.point_lt_point.mp hlt) (not_lt.mpr (half_lt_self hw).le))
    (by decide)

/-- Cutting the integer dimension leaves as many bounds as there were. -/
theorem length_trimBox : (trimBox narrow b).lower.length = b.lower.length
    ∧ (trimBox narrow b).upper.length = b.upper.length := by
  unfold trimBox
  split
  · exact ⟨rfl, List.length_set⟩
  · exact ⟨rfl, rfl⟩

/-- Cutting the integer dimension raises no lower bound. -/
theorem lowerAt_trimBox (i : ℕ) : (trimBox narrow b).lowerAt i = b.lowerAt i := by
  unfold trimBox
  split <;> rfl

/-- Where the bounds of the integer variable are moved to. -/
theorem ends_slab : Scalar.ceil ((0 : Extended ℚ) - Scalar.slack) = 0
    ∧ ∀ height ∈ [(1 : Extended ℚ), 1 - hair], Scalar.floor (height + Scalar.slack) = 1 := by
  decide +kernel

/-- Moving the bounds of the integer variable to whole numbers undoes a cut. -/
theorem roundDiscrete_slab {height : Extended ℚ} (hheight : height ∈ [1, 1 - hair]) :
    Brancher.roundDiscrete slabVars ⟨[0, 0], [.point w, height]⟩ = sliver w := by
  show (⟨[0, Scalar.ceil (0 - Scalar.slack)], [.point w, Scalar.floor (height + Scalar.slack)]⟩ :
    Box (Extended ℚ)) = _
  rw [ends_slab.1, ends_slab.2 height hheight]
  rfl

/-- Once a hair was cut off the sliver, it is not a single point. -/
theorem isPoint_trimmed : (⟨[0, 0], [.point w, 1 - hair]⟩ : Box (Extended ℚ)).isPoint = false := by
  show ((0 : Extended ℚ) == .point w && ((0 : Extended ℚ) == 1 - hair && true)) = false
  have hside : ((0 : Extended ℚ) == .point (1 - 1 / 10 ^ 10)) = false :=
    decide_eq_false (by norm_num)
  rw [one_sub_hair, hside]
  exact Bool.and_false _

/-- By diameter some dimension of the sliver is chosen. -/
theorem exists_choose_sliver {b : Brancher (Extended ℚ)} (hvars : b.vars = slabVars)
    (hrule : b.rule = .absoluteDiameter) (point : List (Extended ℚ)) :
    ∃ i v, b.choose (sliver w) point = some i ∧ b.vars[i]? = some v := by
  -- the integer variable has a width of one, so that there is a candidate
  have hscore : b.dimensionScore? (sliver w) point 1 ⟨0, 1, .integer, 1, "y"⟩
      = some (1 * (1 - 0)) := by
    have hwide : ¬ (1 - 0 : Extended ℚ) ≤ 0 := by
      rw [Search.unit_width]
      decide
    unfold Brancher.dimensionScore?
    rw [hrule]
    exact if_neg hwide
  have hmem : (1, 1 * (1 - 0)) ∈ b.candidates (sliver w) point := by
    unfold Brancher.candidates
    rw [hvars]
    refine List.mem_filterMap.mpr ⟨(⟨0, 1, .integer, 1, "y"⟩, 1),
      List.mem_cons_of_mem _ List.mem_cons_self, ?_⟩
    dsimp only
    rw [hscore]
    rfl
  obtain ⟨found, hfound, hchoose⟩ := Brancher.exists_choose (List.ne_nil_of_mem hmem)
  obtain ⟨v, hv, -⟩ := Brancher.mem_candidates hfound
  exact ⟨found.1, v, hchoose, hv⟩

/-- The sliver is not within the size tolerance. -/
theorem isBelowTolerance_sliver {b : Brancher (Extended ℚ)} (hvars : b.vars = slabVars) :
    b.isBelowTolerance (sliver w) (1 - hair) = false := by
  rw [Brancher.isBelowTolerance, hvars, List.all_eq_false]
  exact ⟨(⟨0, 1, .integer, 1, "y"⟩, 1), List.mem_cons_of_mem _ List.mem_cons_self,
    Search.not_within_of_unit (Scalar.not_le_of_lt one_sub_hair_lt)⟩

/-- Once a hair was cut off it, it is. -/
theorem isBelowTolerance_trimBox {b : Brancher (Extended ℚ)} (hvars : b.vars = slabVars)
    (hw : w ≤ 1 / 2) : b.isBelowTolerance (trimBox w (sliver w)) (1 - hair) = true := by
  -- the width of a part of a dimension is compared with the unit
  have hwithin : ∀ p : ℚ, p ≤ 1 - 1 / 10 ^ 10 →
      decide ((if (0 : Extended ℚ) < 1 - 0 then (Extended.point p - 0) / (1 - 0) else 0)
        ≤ .point (1 - 1 / 10 ^ 10)) = true := by
    intro p hp
    have hwidth : (Extended.point p - 0) / 1 = .point p := by
      show (Extended.point p - .point 0) / .point 1 = _
      rw [Extended.sub_point]
      show Extended.point (p - 0) / .point 1 = _
      rw [Extended.div_point _ one_ne_zero, sub_zero, div_one]
    rw [Search.unit_width, if_pos (by decide), hwidth]
    exact decide_eq_true (Extended.point_le_point.mpr hp)
  rw [Brancher.isBelowTolerance, hvars, trimBox_sliver, one_sub_hair, List.all_eq_true]
  intro d hd
  rcases List.mem_cons.mp hd with rfl | hd
  · exact hwithin w (hw.trans (by norm_num))
  · rw [List.mem_singleton.mp hd]
    exact hwithin _ le_rfl

end Boxes

/-! ## Children -/

section Children

variable {w : ℚ} {n : Node (Extended ℚ)} {b : Brancher (Extended ℚ)}

/-- The halves of the sliver in the integer dimension. -/
theorem parts_integer : Brancher.parts .integer (sliver w) 1
    = ((sliver w).setUpper 1 0, (sliver w).setLower 1 1) := by
  have hfloor : Scalar.floor (Scalar.middle (0 : Extended ℚ) 1) = 0 := by
    have hmiddle := Extended.middle_point (0 : ℚ) 1
    show (Scalar.middle (Extended.point 0) (.point 1)).map (fun q : ℚ => (⌊q⌋ : ℚ)) = .point 0
    rw [hmiddle]
    exact congrArg Extended.point (by norm_num)
  have hnext : (0 + 1 : Extended ℚ) = 1 :=
    (Extended.add_point _ _).trans (congrArg Extended.point (zero_add 1))
  show ((sliver w).setUpper 1 (Scalar.floor (Scalar.middle 0 1)),
    (sliver w).setLower 1 (Scalar.floor (Scalar.middle 0 1) + 1)) = _
  rw [hfloor, hnext]

/-- The upper half of the sliver in the continuous dimension. -/
theorem upper_parts_sliver :
    (Brancher.parts .continuous (sliver w) 0).2 = (sliver w).setLower 0 (.point (w / 2)) := by
  have hmiddle : (sliver w).midpoint 0 = .point (w / 2) := by
    show Scalar.middle (Extended.point 0) (.point w) = _
    rw [Extended.middle_point, zero_add]
  show (sliver w).setLower 0 ((sliver w).midpoint 0) = _
  rw [hmiddle]

/-- The children of a node whose box is the sliver, which have their own ids and are waited for. -/
theorem allChildren_sliver (hvars : b.vars = slabVars) (hbox : n.box = sliver w) (hw : 0 < w) :
    ∃ i j k l c, b.allChildren n [] = (.ok
        [Brancher.child n (sliver (w / 2)) i,
          Brancher.child n ((sliver w).setLower 0 (.point (w / 2))) j,
          Brancher.child n ((sliver w).setUpper 1 0) k,
          Brancher.child n ((sliver w).setLower 1 1) l], c)
      ∧ [i, j, k, l].Nodup ∧ ∀ id ∈ [i, j, k, l], id ∈ c.waiting.ids := by
  have hfault : b.dimensionFault? n = none :=
    Brancher.dimensionFault_eq_none (by rw [hbox, hvars]; rfl) (by rw [hbox, hvars]; rfl)
  have hrounded : Brancher.roundDiscrete b.vars n.box = sliver w := by
    rw [hvars, hbox]
    exact roundDiscrete_slab List.mem_cons_self
  have hfirst : ¬ (sliver w).width 0 ≤ 0 := by
    show ¬ Extended.point w - .point 0 ≤ .point 0
    rw [Extended.sub_point]
    exact fun hle => absurd (Extended.point_le_point.mp hle) (not_le.mpr (sub_pos.mpr hw))
  have hsecond : ¬ (sliver w).width 1 ≤ 0 := by
    show ¬ (1 - 0 : Extended ℚ) ≤ 0
    rw [Search.unit_width]
    decide
  -- two halves of the continuous dimension, then two of the integer one
  obtain ⟨c, hc, hcnext, hcids⟩ := b.addChildren_ok { n with box := sliver w } [] []
    (v := ⟨0, 1, .continuous, 1, "x"⟩) hfirst
  obtain ⟨d, hd, -, hdids⟩ := c.addChildren_ok { n with box := sliver w } []
    ([] ++ [Brancher.child n (sliver (w / 2)) b.frontier.nextId,
      Brancher.child n ((sliver w).setLower 0 (.point (w / 2)))
        ((b.frontier.nextId + 1) % wordRange)])
    (v := ⟨0, 1, .integer, 1, "y"⟩) hsecond
  dsimp only at hc hd
  rw [Search.parts_sliver, upper_parts_sliver] at hc
  rw [parts_integer, hcnext] at hd
  refine ⟨b.frontier.nextId, (b.frontier.nextId + 1) % wordRange,
    ((b.frontier.nextId + 1) % wordRange + 1) % wordRange,
    (((b.frontier.nextId + 1) % wordRange + 1) % wordRange + 1) % wordRange, d, ?_, ?_,
    fun id hid => ?_⟩
  · rcases hall : b.allChildren n [] with ⟨answer, e⟩
    cases Brancher.allChildren_exit hall with
    | misfit hmisfit => cases hfault.symm.trans hmisfit
    | empty _ hempty =>
      rw [hrounded, Search.isEmpty_sliver hw] at hempty
      cases hempty
    | gathered _ _ hfold =>
      rw [hrounded, hvars] at hfold
      simp only [slabVars, List.zipIdx_cons, List.zipIdx_nil, List.foldl_cons, List.foldl_nil,
        zero_add] at hfold
      rw [hc] at hfold
      obtain ⟨rfl, rfl⟩ := Prod.mk.inj (hfold.symm.trans hd)
      rfl
  · simp only [List.nodup_cons, List.mem_cons, List.not_mem_nil, or_false, not_or, wordRange,
      not_false_eq_true, List.nodup_nil, and_true]
    omega
  · simp only [List.mem_cons, List.not_mem_nil, or_false] at hid
    rw [hdids, hcnext, hcids]
    tauto

end Children

/-! ## Reports -/

/-- A score that is not above zero. -/
abbrev Flat (score : Extended ℚ) : Prop := Scalar.greatest score 0 = 0

section Reports

variable {s : Search (Extended ℚ)} {n : Node (Extended ℚ)} {rounds : ℕ} {w : ℚ}

/-- A node at the lower end of the continuous dimension has to be branched. -/
theorem exists_open (hs : s.Fruitless Flat) (hscore : Flat n.score)
    (hlower : n.box.lowerAt 0 = 0)
    (hfull : (trimBox ((1 / 2) ^ rounds) n.box).isEmpty = false) :
    ∃ r, Vain (delvingSolvers rounds) s.cutoff n r ∧ r.stage = .postprocessed
      ∧ r.node.box = trimBox ((1 / 2) ^ rounds) n.box ∧ r.node.score = 0
      ∧ r.node.depth = n.depth ∧ r.point = [] := by
  -- the bound below a node at the lower end is zero, like its score
  have hbound : (if 0 < (trimBox ((1 / 2) ^ rounds) n.box).lowerAt 0 then none
      else some (0 : Extended ℚ)) = some 0 := by
    rw [lowerAt_trimBox, hlower]
    exact if_neg (by decide)
  have hlive :=
    (hs.live (show ¬ Scalar.infinity ≤ Scalar.greatest n.score 0 by rw [hscore]; decide)).2
  obtain ⟨r, hreturns, hstage, hnode, hpoint, -, hnone⟩ := returns_barren_open
    (fun n => { n with box := trimBox ((1 / 2) ^ rounds) n.box })
    (fun n => if 0 < n.box.lowerAt 0 then none else some 0) hfull hbound
    (by decide) hlive
  exact ⟨r, ⟨hreturns, by rw [hnode], hnone⟩, hstage, by rw [hnode], by rw [hnode]; exact hscore,
    by rw [hnode], hpoint⟩

/-- A node above it is refuted. -/
theorem exists_refuted (hlower : 0 < n.box.lowerAt 0)
    (hfull : (trimBox ((1 / 2) ^ rounds) n.box).isEmpty = false) (cutoff : Cutoff (Extended ℚ)) :
    ∃ r, Vain (delvingSolvers rounds) cutoff n r ∧ r.stage = .fathomed .infeasible
      ∧ r.node.score = Scalar.infinity := by
  obtain ⟨r, hreturns, hstage, hnode, hnone⟩ := returns_barren_infeasible
    (fun n => { n with box := trimBox ((1 / 2) ^ rounds) n.box })
    (fun n => if 0 < n.box.lowerAt 0 then none else some (0 : Extended ℚ))
    hfull (if_pos (by rw [lowerAt_trimBox]; exact hlower))
  exact ⟨r, ⟨hreturns, by rw [hnode], hnone⟩, hstage, by rw [hnode]⟩

/-- The pair in the continuous dimension promises most if its upper half was refuted. -/
theorem bestPair_refuted {down up first second : Report (Extended ℚ)}
    (hdown : down.node.score = 0) (hup : up.node.score = Scalar.infinity)
    (hfirst : first.node.score = 0) (hsecond : second.node.score = 0) :
    bestPair Scalar.infinity 0 (pairs [down, up, first, second]) = some (down, up) := by
  have hlater : ¬ productScore (gain Scalar.infinity 0 up) (gain Scalar.infinity 0 down)
      < productScore (gain Scalar.infinity 0 second) (gain Scalar.infinity 0 first) := by
    simp only [gain, hdown, hup, hfirst, hsecond]
    decide +kernel
  rw [bestPair_eq_foldl]
  simp only [pairs, List.map_cons, List.map_nil, List.foldl_cons, List.foldl_nil, better,
    Option.elim, if_neg hlater, Option.map_some]

/-- A node whose box is a sliver that is not narrow yet is branched strongly, and the lower half of
it in the continuous dimension becomes open. -/
theorem exec_strongBranch_sliver {t : Search (Extended ℚ)} {r : Report (Extended ℚ)}
    (ht : t.Fruitless Flat) (hid : r.node.id ∈ t.brancher.waiting.ids) (hnone : r.candidate = none)
    (hvars : t.brancher.vars = slabVars) (hbox : r.node.box = sliver w) (hscore : r.node.score = 0)
    (hpoint : r.point = []) (hw : 0 < w) (hwide : (1 / 2) ^ rounds ≤ w / 2) :
    ∃ m u, (strongBranch (delvingSolvers rounds) r).exec ⟨t, ()⟩ = (.ok .branched, ⟨u, ()⟩)
      ∧ u.Fruitless Flat ∧ t.Alike u
      ∧ u.brancher.frontier.nodes = m ::ₘ t.brancher.frontier.nodes
      ∧ u.stats.processed = t.stats.processed + 5
      ∧ m.box = trimBox ((1 / 2) ^ rounds) (sliver (w / 2)) ∧ m.depth < depthRange := by
  have hwider : (1 / 2) ^ rounds < w := hwide.trans_lt (half_lt_self hw)
  have hP : Flat r.node.score := by rw [hscore]; decide
  -- the four children
  obtain ⟨i, k, l, q, c, hchildren, hnodup, hids⟩ := allChildren_sliver (n := r.node)
    ((t.alike_record r).vars.trans hvars) hbox hw
  obtain ⟨down, hdown, hdownStage, hdownBox, hdownScore, hdownDepth, -⟩ :=
    exists_open (n := Brancher.child r.node (sliver (w / 2)) i) ht hP rfl
      (isEmpty_trimBox hwide (half_pos hw))
  obtain ⟨up, hup, hupStage, hupScore⟩ := exists_refuted
    (n := Brancher.child r.node ((sliver w).setLower 0 (.point (w / 2))) k)
    (Extended.point_lt_point.mpr (half_pos hw))
    (by rw [trimBox_of_lt rfl hwider]; exact isEmpty_upper_sliver hw) t.cutoff
  obtain ⟨first, hfirst, -, -, hfirstScore, -⟩ :=
    exists_open (n := Brancher.child r.node ((sliver w).setUpper 1 0) l)
      ht hP rfl (by rw [trimBox_of_lt rfl hwider]; exact isEmpty_part_sliver hw (by decide))
  obtain ⟨second, hsecond, -, -, hsecondScore, -⟩ :=
    exists_open (n := Brancher.child r.node ((sliver w).setLower 1 1) q)
      ht hP rfl (by rw [trimBox_of_lt rfl hwider]; exact isEmpty_part_sliver hw (by decide))
  rw [← hpoint] at hchildren
  -- the lower one in the continuous dimension is kept
  have hbest : bestPair Scalar.infinity r.node.score (pairs [down, up, first, second])
      = some (down, up) := by
    rw [hscore]
    exact bestPair_refuted hdownScore hupScore hfirstScore hsecondScore
  obtain ⟨u, hstrong, hu, halike, hnodes, hprocessed⟩ := exec_strongBranch
    (show (⟨t, ()⟩ : Run Unit (Extended ℚ)).search.Fruitless Flat from ht) hid
    hnone hP hchildren (fun d hd => hids d.id (List.mem_map_of_mem hd))
    hnodup (.cons hdown (.cons hup (.cons hfirst (.cons hsecond .nil)))) hbest hdownStage
    (by rw [hdownScore]; decide)
    (Brancher.dimensionFault_eq_none (by rw [hdownBox, hvars, length_trimBox.1]; rfl)
      (by rw [hdownBox, hvars, length_trimBox.2]; rfl))
    (by rw [hdownScore]; decide) hupStage
  exact ⟨down.node, u, hstrong, hu, halike, hnodes, hprocessed, hdownBox, by
    rw [hdownDepth]
    exact Nat.mod_lt _ (by decide)⟩

end Reports

/-! ## Rounds -/

/-- After so many rounds, one node is open, which is cut off at as many halves of the continuous
dimension. -/
structure Delves (rounds j : ℕ) (run : Run Unit (Extended ℚ)) (n : Node (Extended ℚ)) : Prop where
  /-- The variables. -/
  vars : run.search.brancher.vars = slabVars
  /-- The settings. -/
  settings : run.search.settings = delvingSettings rounds
  /-- The widest dimension is split. -/
  rule : run.search.brancher.rule = .absoluteDiameter
  /-- No point was found, and scores are not above zero. -/
  fruitless : run.search.Fruitless Flat
  /-- The node is the only one. -/
  alone : run.search.brancher.frontier.nodes = {n}
  /-- Its box. -/
  box : n.box = trimBox ((1 / 2) ^ rounds) (sliver ((1 / 2) ^ j))
  /-- Its depth is a machine word. -/
  depth : n.depth < depthRange
  /-- Few nodes were processed. -/
  processed : run.search.stats.processed ≤ 5 * j

section Rounds

variable {rounds j : ℕ} {run : Run Unit (Extended ℚ)} {n : Node (Extended ℚ)}

/-- The halves are positive. -/
theorem half_pow_pos (j : ℕ) : (0 : ℚ) < (1 / 2) ^ j := by positivity

/-- The search goes on. -/
theorem Delves.check (h : Delves rounds j run n) (hj : j ≤ rounds) :
    (now (delvingSolvers rounds) run).check none = none := by
  have hsize : run.search.brancher.frontier.size = 1 := by
    rw [← h.fruitless.consistent.card_nodes, h.alone]
    rfl
  have hprocessed := h.processed
  simp [now, Search.atTime, Search.check, hsize, h.settings, delvingSettings, Settings.standard,
    resourceLimit?, Duration.reaches]
  omega

/-- The node is handed out, and has to be branched. -/
theorem Delves.next (h : Delves rounds j run n) (hj : j ≤ rounds) :
    ∃ t r, (now (delvingSolvers rounds) run).next = (.ok n, t)
      ∧ Vain (delvingSolvers rounds) run.search.cutoff n r ∧ r.stage = .postprocessed
      ∧ r.node.box = n.box ∧ r.node.score = 0 ∧ r.node.depth = n.depth ∧ r.point = []
      ∧ t.Fruitless Flat ∧ r.node.id ∈ t.brancher.waiting.ids ∧ run.search.Alike t
      ∧ t.brancher.frontier.nodes = 0 ∧ t.stats = run.search.stats := by
  have hw : ((1 / 2 : ℚ)) ^ rounds ≤ (1 / 2) ^ j :=
    pow_le_pow_of_le_one (by norm_num) (by norm_num) hj
  have hnow : (now (delvingSolvers rounds) run).Fruitless Flat :=
    ⟨⟨h.fruitless.consistent, h.fruitless.opened, h.fruitless.waited⟩, h.fruitless.incumbent,
      h.fruitless.threshold⟩
  obtain ⟨m, t, hnext⟩ := Async.exists_next hnow.consistent
    (Search.isEmpty_eq_false (h.check hj))
  obtain ⟨-, hscore, hid, hnodes, -⟩ := hnow.toRecalls.next hnext
  obtain ⟨rfl, hempty⟩ := Multiset.singleton_eq_cons_iff _ |>.mp (h.alone.symm.trans hnodes)
  -- tightening a box that is not narrow does nothing that was not done before
  have hbox : trimBox ((1 / 2) ^ rounds) n.box = n.box := by rw [h.box, trimBox_trimBox hw]
  obtain ⟨r, hvain, hstage, hrbox, hrscore, hdepth, hpoint⟩ := exists_open hnow
    hscore (by rw [h.box, lowerAt_trimBox]; rfl)
    (by rw [hbox, h.box]; exact isEmpty_trimBox hw (half_pow_pos j))
  obtain ⟨-, -, -, hstats⟩ := Search.next_frame hnext
  have halike := (now (delvingSolvers rounds) run).alike_perform .next
  rw [Search.perform, hnext] at halike
  exact ⟨t, r, hnext, hvain, hstage, hrbox.trans hbox, hrscore, hdepth, hpoint, hnow.next hnext,
    by rw [hvain.id]; exact hid, ⟨halike.vars, halike.rule, halike.settings⟩, hempty, hstats⟩

/-- As long as the node is not narrow, it is branched strongly, and the lower half of it in the
continuous dimension is open afterwards. -/
theorem Delves.step (h : Delves rounds j run n) (hj : j < rounds) :
    ∃ after m, SplitsStrongly (delvingSolvers rounds) run n after
      ∧ Delves rounds (j + 1) after m := by
  have hnext_w : ((1 / 2 : ℚ)) ^ j / 2 = (1 / 2) ^ (j + 1) := by rw [pow_succ]; ring
  have hnarrower : ((1 / 2 : ℚ)) ^ rounds ≤ (1 / 2) ^ j / 2 :=
    hnext_w ▸ pow_le_pow_of_le_one (by norm_num) (by norm_num) hj
  obtain ⟨t, r, hnext, hvain, hstage, hbox, hscore, -, hpoint, ht, hid, halike, hempty, hstats⟩ :=
    h.next hj.le
  have hsliver : r.node.box = sliver ((1 / 2) ^ j) := by
    rw [hbox, h.box]
    exact trimBox_of_lt rfl (hnarrower.trans_lt (half_lt_self (half_pow_pos j)))
  have hvars : t.brancher.vars = slabVars := halike.vars.trans h.vars
  have hsettings : t.settings = delvingSettings rounds := halike.settings.trans h.settings
  obtain ⟨m, u, hstrong, hu, hualike, hnodes, hprocessed, hmbox, hmdepth⟩ :=
    exec_strongBranch_sliver ht hid hvain.candidate hvars hsliver hscore hpoint (half_pow_pos j)
      hnarrower
  -- the sliver is wide in the integer dimension, hence above the tolerance
  have hwants : wantsStrong t r = true := by
    rw [wantsStrong, Report.needsBranching, hstage, hsliver, Search.isPoint_sliver, hsettings]
    show (decide True && !false && !t.brancher.isBelowTolerance _ (1 - hair)) = true
    rw [isBelowTolerance_sliver hvars]
    rfl
  have hround := exec_round_conclude (h.check hj.le) hnext
    hvain.returns ((exec_conclude_strong (by rw [hsettings]; exact h.depth)
      hwants).trans hstrong)
  refine ⟨⟨u, ()⟩, m,
    .conclude hnext hvain.returns (by rw [hsettings]; exact h.depth) hstage hstrong hround,
    hualike.vars.trans hvars, hualike.settings.trans hsettings,
    hualike.rule.trans (halike.rule.trans h.rule), hu, ?_, ?_, hmdepth, ?_⟩
  · rw [hnodes, hempty]
    rfl
  · rw [hmbox, ← hnext_w]
  · have hbefore := h.processed
    rw [hprocessed, hstats]
    show run.search.stats.processed + 5 ≤ _
    omega

/-- In the end the node is within the size tolerance before the bounds of the integer variable are
moved to whole numbers, but not after that: it is split like any other. -/
theorem Delves.splits (h : Delves rounds rounds run n) (hpos : 0 < rounds) :
    ∃ after, Splits (delvingSolvers rounds) run n after := by
  have hw := half_pow_pos rounds
  have hhalf : ((1 / 2 : ℚ)) ^ rounds ≤ 1 / 2 := by
    have hle := pow_le_pow_of_le_one (a := (1 / 2 : ℚ)) (by norm_num) (by norm_num)
      (Nat.succ_le_of_lt hpos)
    rwa [pow_one] at hle
  obtain ⟨t, r, hnext, hvain, hstage, hbox, hscore, hdepth, hpoint, ht, hid, halike, hempty,
    hstats⟩ := h.next le_rfl
  have hvars : t.brancher.vars = slabVars := halike.vars.trans h.vars
  have hsettings : t.settings = delvingSettings rounds := halike.settings.trans h.settings
  have htrimmed : r.node.box = trimBox ((1 / 2) ^ rounds) (sliver ((1 / 2) ^ rounds)) :=
    hbox.trans h.box
  -- the trimmed box is within the tolerance, so that its children are not tried
  have hwants : wantsStrong t r = false := by
    rw [wantsStrong, htrimmed, hsettings]
    show (_ && _ && !t.brancher.isBelowTolerance _ (1 - hair)) = false
    rw [isBelowTolerance_trimBox hvars hhalf]
    exact Bool.and_false _
  obtain ⟨hrecord, -⟩ := ht.toRecalls.record_ok hid
  have halikeRecord := t.alike_record r
  have hrecordVars : (t.record r).2.brancher.vars = slabVars := halikeRecord.vars.trans hvars
  -- moved to whole numbers, the bounds are those of the sliver again
  have hrounded : Brancher.roundDiscrete (t.record r).2.brancher.vars r.node.box
      = sliver ((1 / 2) ^ rounds) := by
    rw [hrecordVars, htrimmed, trimBox_sliver]
    exact roundDiscrete_slab (List.mem_cons_of_mem _ List.mem_cons_self)
  obtain ⟨i, v, hchoose, hv⟩ := exists_choose_sliver (w := (1 / 2) ^ rounds) hrecordVars
    (halikeRecord.rule.trans (halike.rule.trans h.rule)) r.point
  obtain ⟨k, l, b, hbranch⟩ := Brancher.exists_split (b := (t.record r).2.brancher)
    r.point r.lowerBound (t.record r).2.settings.sizeTolerance
    (Brancher.dimensionFault_eq_none (by rw [htrimmed, hrecordVars, length_trimBox.1]; rfl)
      (by rw [htrimmed, hrecordVars, length_trimBox.2]; rfl))
    (by rw [hrounded]; exact Search.isEmpty_sliver hw)
    (by rw [hrounded]; exact Search.isPoint_sliver)
    (by
      rw [hrounded, halikeRecord.settings, hsettings]
      exact isBelowTolerance_sliver hrecordVars)
    (by rw [hrounded]; exact hchoose) hv
  have happly := Search.apply_eq_branched hrecord hstage
    (by rw [htrimmed, trimBox_sliver]; exact isPoint_trimmed) hbranch
  exact ⟨_, .apply hnext hvain.returns happly (exec_round_conclude (h.check le_rfl) hnext
    hvain.returns (exec_conclude_apply hwants happly))⟩

/-- At the start the root is the only node, and nothing is cut off it. -/
theorem delves_new {start : Search (Extended ℚ)} (hpos : 0 < rounds)
    (hstart : Search.new slabVars (delvingSettings rounds) = .ok start) :
    Delves rounds 0 ⟨start, ()⟩ (.root start.brancher.vars) := by
  obtain ⟨-, -, hsettings⟩ := Search.new_frame hstart
  obtain ⟨hvalid, hrule⟩ := Search.new_brancher hstart
  have hvars : start.brancher.vars = slabVars :=
    (Except.ok.inj (validated_slabVars.symm.trans hvalid)).symm
  refine ⟨hvars, hsettings, hrule, .new hstart (by decide), (Search.nodes_new hstart).1, ?_,
    show 0 < depthRange by decide, ?_⟩
  · have hwide : ((1 / 2 : ℚ)) ^ rounds < 1 := pow_lt_one₀ (by norm_num) (by norm_num) hpos.ne'
    rw [pow_zero, trimBox_of_lt rfl hwide, hvars]
    rfl
  · show start.stats.processed ≤ _
    rw [(Search.new_ok hstart).2.1]

/-- The node of the next round was not open before, because it is narrower. -/
theorem Delves.notMem {m : Node (Extended ℚ)} {after : Run Unit (Extended ℚ)}
    (h : Delves rounds j run n) (hm : Delves rounds (j + 1) after m) :
    m ∉ run.search.brancher.frontier.nodes := by
  rw [h.alone, Multiset.mem_singleton]
  rintro rfl
  have hupper : Extended.point ((1 / 2 : ℚ) ^ j) = .point ((1 / 2) ^ (j + 1)) := by
    have heq := congrArg (Box.upperAt · 0) (h.box.symm.trans hm.box)
    simp only [upperAt_trimBox] at heq
    exact heq
  have hlt : ((1 / 2 : ℚ)) ^ (j + 1) < (1 / 2) ^ j :=
    pow_lt_pow_right_of_lt_one₀ (by norm_num) (by norm_num) (Nat.lt_succ_self j)
  exact hlt.ne' (Extended.point.inj hupper)

end Rounds

/-- After so many strong splits, a node is open that so many splits led to. -/
theorem exists_delves {rounds : ℕ} {start : Search (Extended ℚ)} (hpos : 0 < rounds)
    (hstart : Search.new slabVars (delvingSettings rounds) = .ok start) (j : ℕ) (hj : j < rounds) :
    ∃ run n after m, Descent (delvingSolvers rounds) start j run n after
      ∧ Delves rounds (j + 1) after m ∧ m ∉ run.search.brancher.frontier.nodes := by
  induction j with
  | zero =>
    have hroot := delves_new hpos hstart
    obtain ⟨after, m, hsplit, hm⟩ := hroot.step hpos
    exact ⟨_, _, after, m, .root .refl (.inr hsplit), hm, hroot.notMem hm⟩
  | succ j ih =>
    obtain ⟨run, n, after, m, hdescent, hm, hnew⟩ := ih (Nat.lt_of_succ_lt hj)
    obtain ⟨last, c, hsplit, hc⟩ := hm.step hj
    have hopen : m ∈ after.search.brancher.frontier.nodes := by
      rw [hm.alone]
      exact Multiset.mem_singleton_self m
    exact ⟨after, m, last, c, .child hdescent hopen hnew .refl (.inr hsplit), hc, hm.notMem hc⟩

/-- With strong branching, no depth bounds how deep nodes are split by diameter like any others: it
need not split the dimension that is wide. -/
theorem not_exists_depth_strong :
    ¬ ∃ depth : ℕ, ∀ (solvers : Solvers Unit (Extended ℚ)) settings start,
      solvers.Tighten Node.Shrunk → settings.rule = .absoluteDiameter →
      settings.sizeTolerance = 1 - hair → Search.new slabVars settings = .ok start →
        ∀ k run n after, Descent solvers start k run n after → Splits solvers run n after →
          k ≤ depth := by
  rintro ⟨depth, hdepth⟩
  -- solvers that delve one node deeper than the bound
  obtain ⟨start, hstart⟩ := exists_delvingStart (depth + 1)
  obtain ⟨run, n, after, m, hdescent, hm, hnew⟩ :=
    exists_delves (Nat.succ_pos depth) hstart depth (Nat.lt_succ_self depth)
  obtain ⟨last, hsplit⟩ := hm.splits (Nat.succ_pos depth)
  have hopen : m ∈ after.search.brancher.frontier.nodes := by
    rw [hm.alone]
    exact Multiset.mem_singleton_self m
  have hle := hdepth (delvingSolvers (depth + 1)) (delvingSettings (depth + 1)) start
    (shrunk_delvingSolvers _) rfl rfl hstart (depth + 1) after m last
    (.child hdescent hopen hnew .refl (.inl hsplit)) hsplit
  omega

end Serial

end BranchBound
