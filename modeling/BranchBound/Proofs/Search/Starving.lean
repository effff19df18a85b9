import BranchBound.Proofs.Search.Confining
import BranchBound.Proofs.Search.Neglecting

/-! # What a search splits before some dimension is narrow

Under pseudocosts the dimension is split whose splits promise most, and one that is as wide as at
the start may never be the one. Still, a split takes a halving off the domain as long as every
continuous dimension is wider than the size tolerance, whichever dimension is chosen, and a discrete
one that is split is wide. So only nodes that are within the tolerance in some continuous dimension
are split below a depth that depends on the variables and the tolerance alone.

* **`Box.Narrow`** — some continuous dimension is within the tolerance.
* **`Search.descends_roomy`** — below a depth, all nodes are narrow.
* **`Search.exists_depth_narrow`** — so are all nodes that are split there. -/

namespace BranchBound

/-- Some continuous dimension of a box, relative to that of the domain, is at most as wide as a
tolerance. -/
def Box.Narrow {α : Type} [Scalar α] (vars : List (Variable α)) (tolerance : α) (b : Box α) :
    Prop :=
  ∃ i v, vars[i]? = some v ∧ v.kind.isDiscrete = false ∧ 0 < v.width
    ∧ b.width i / v.width ≤ tolerance

variable {K : Type} [Field K] [LinearOrder K] [FloorRing K] [IsStrictOrderedRing K]
  {vars : List (Variable (Extended K))} {a b : Box (Extended K)} {m n : Node (Extended K)}
  {v : Variable (Extended K)} {tolerance : K} {limit i k : ℕ}

/-- A box inside the domain is narrow if a continuous dimension is at most that part of the
domain. -/
theorem Box.Inside.narrow_iff (h : b.Inside vars) (hvars : ∀ v ∈ vars, v.Standard) :
    b.Narrow vars (.point tolerance) ↔ ∃ i v, vars[i]? = some v ∧ v.kind.isDiscrete = false
      ∧ 0 < v.span ∧ b.span i ≤ tolerance * v.span := by
  refine exists_congr fun i => exists_congr fun v => and_congr_right fun hv => and_congr_right
    fun _ => ?_
  obtain ⟨hwidth, hdomain, -, -⟩ := h.spans hvars hv
  rw [hwidth, hdomain]
  constructor
  · rintro ⟨hpos, hle⟩
    have hpos' : 0 < v.span := Extended.point_lt_point.mp hpos
    rw [Extended.div_point _ hpos'.ne', Extended.point_le_point, div_le_iff₀ hpos'] at hle
    exact ⟨hpos', hle⟩
  · rintro ⟨hpos, hle⟩
    refine ⟨Extended.point_lt_point.mpr hpos, ?_⟩
    rw [Extended.div_point _ hpos.ne', Extended.point_le_point, div_le_iff₀ hpos]
    exact hle

omit [IsStrictOrderedRing K] in
/-- Moving the bounds of discrete variables to whole numbers leaves the continuous ones alone. -/
theorem Brancher.span_roundDiscrete_of_continuous (h : b.Inside vars)
    (hvars : ∀ v ∈ vars, v.Standard) (hv : vars[i]? = some v)
    (hcontinuous : v.kind.isDiscrete = false) : (roundDiscrete vars b).span i = b.span i := by
  obtain ⟨-, l, u, -, -, hl, hu, -⟩ := h.exists_points hvars hv
  rw [span_roundDiscrete h hv hl hu, if_neg (by rw [hcontinuous]; exact Bool.false_ne_true),
    Box.span_eq hl hu]

/-- A box that is no wider than a narrow one in its continuous dimensions is narrow. -/
theorem Box.Narrow.of_span_le (hb : b.Narrow vars (.point tolerance)) (hinside : b.Inside vars)
    (ha : a.Inside vars) (hvars : ∀ v ∈ vars, v.Standard)
    (hle : ∀ i v, vars[i]? = some v → v.kind.isDiscrete = false → a.span i ≤ b.span i) :
    a.Narrow vars (.point tolerance) := by
  obtain ⟨i, v, hv, hcontinuous, hpos, hnarrow⟩ := (hinside.narrow_iff hvars).mp hb
  exact (ha.narrow_iff hvars).mpr
    ⟨i, v, hv, hcontinuous, hpos, (hle i v hv hcontinuous).trans hnarrow⟩

/-- What a dimension that is split is wider than as long as no continuous one is narrow. -/
def Variable.grain (tolerance : K) (v : Variable (Extended K)) : K :=
  if v.kind.isDiscrete then 1 / 2 else if 0 < v.span then tolerance * v.span else 1

/-- It is positive. -/
theorem Variable.grain_pos (htolerance : 0 < tolerance) (v : Variable (Extended K)) :
    0 < grain tolerance v := by
  unfold grain
  split
  · exact one_half_pos
  · split
    · next hpos => exact mul_pos htolerance hpos
    · exact one_pos

/-- A dimension that has a width after the bounds of discrete variables were moved to whole numbers
is wider than its grain, unless the box is narrow. -/
theorem Brancher.grain_lt_span (h : b.Inside vars) (hvars : ∀ v ∈ vars, v.Standard)
    (hfull : (roundDiscrete vars b).isEmpty = false) (hv : vars[i]? = some v)
    (hwide : ¬ (roundDiscrete vars b).width i ≤ 0) (hroomy : ¬ b.Narrow vars (.point tolerance)) :
    Variable.grain tolerance v < (roundDiscrete vars b).span i := by
  obtain ⟨hinside, -⟩ := inside_roundDiscrete h hvars hfull
  obtain ⟨hwidth, -, -, hle⟩ := hinside.spans hvars hv
  have hpos : 0 < (roundDiscrete vars b).span i := by
    rw [hwidth] at hwide
    exact not_le.mp fun hnone => hwide (Extended.point_le_point.mpr hnone)
  unfold Variable.grain
  split
  · next hdiscrete =>
    -- the width is a whole number
    obtain ⟨-, l, u, -, -, hl, hu, -⟩ := h.exists_points hvars hv
    rw [span_roundDiscrete h hv hl hu, if_pos hdiscrete, ← Int.cast_sub] at hpos ⊢
    have hone : (1 : K) ≤ ((⌊u + 10 ^ (-9 : ℤ)⌋ - ⌈l - 10 ^ (-9 : ℤ)⌉ : ℤ) : K) := by
      exact_mod_cast Int.cast_pos.mp hpos
    exact one_half_lt_one.trans_le hone
  · next hcontinuous =>
    rw [Bool.not_eq_true] at hcontinuous
    rw [if_pos (hpos.trans_le hle)]
    refine not_le.mp fun hnarrow => hroomy ((h.narrow_iff hvars).mpr
      ⟨i, v, hv, hcontinuous, hpos.trans_le hle, ?_⟩)
    rwa [span_roundDiscrete_of_continuous h hvars hv hcontinuous] at hnarrow

/-- A node inside the domain that is narrow, or has room for splits. -/
def Node.Roomy (vars : List (Variable (Extended K))) (tolerance : K) (limit k : ℕ)
    (n : Node (Extended K)) : Prop :=
  n.Confined vars (Variable.grain tolerance) 0 limit k
    ∨ n.box.Inside vars ∧ n.box.Narrow vars (.point tolerance)

namespace Node.Roomy

variable (htolerance : 0 < tolerance) (hvars : ∀ v ∈ vars, v.Standard)

include htolerance hvars

/-- Tightening a node leaves it narrow or leaves it room. -/
theorem tightened (h : n.Roomy vars tolerance limit k) (hm : m.Tightened n)
    (hfull : m.box.isEmpty = false) : m.Roomy vars tolerance limit k := by
  rcases h with h | ⟨hinside, hnarrow⟩
  · exact .inl (h.tightened (fun v _ => Variable.grain_pos htolerance v) hvars hm hfull)
  · have hm' := hinside.shrunk hm.box hfull
    refine .inr ⟨hm', hnarrow.of_span_le hinside hm' hvars fun i v hv hcontinuous => ?_⟩
    have hle := Brancher.span_roundDiscrete_le hm' hinside hm.box hfull hvars hv
    rwa [Brancher.span_roundDiscrete_of_continuous hm' hvars hv hcontinuous,
      Brancher.span_roundDiscrete_of_continuous hinside hvars hv hcontinuous] at hle

/-- A split leaves parts of a narrow node narrow, and takes a halving off the room of another. -/
theorem split (h : n.Roomy vars tolerance limit k) (hm : m.SplitFrom vars i n) :
    m.Roomy vars tolerance limit (k + 1) := by
  have hinside : n.box.Inside vars := h.elim (fun h => h.inside) fun h => h.1
  by_cases hnarrow : n.box.Narrow vars (.point tolerance)
  · have hhalf := hm.isHalf hinside hvars
    refine .inr ⟨hhalf.inside, hnarrow.of_span_le hinside hhalf.inside hvars
      fun j v hv hcontinuous => ?_⟩
    rw [← Brancher.span_roundDiscrete_of_continuous hinside hvars hv hcontinuous]
    exact hhalf.span_le j
  · have hconfined := h.resolve_right fun h => hnarrow h.2
    exact .inl (hconfined.split (fun v _ => Variable.grain_pos htolerance v) hvars hm fun v hv =>
      Brancher.grain_lt_span hinside hvars hm.full hv hm.wide hnarrow)

end Node.Roomy

namespace Search

variable {start : Search (Extended K)}

/-- Without strong branching, nodes are narrow once they have used up the halvings of the domain. -/
theorem descends_roomy (htolerance : 0 < tolerance)
    (hstandard : ∀ v ∈ start.brancher.vars, v.Standard) (hstrong : start.settings.strongDepth = 0) :
    start.DescendsStrongly (Node.Roomy start.brancher.vars tolerance
      (start.depthLeft (Variable.grain tolerance))) where
  root := .inl (.root hstandard 0)
  tightened hn hm hfull := hn.tightened htolerance hstandard hm hfull
  split hn _ hm := hn.split htolerance hstandard hm
  strong _ hdepth _ := absurd hdepth (by rw [hstrong]; exact Nat.not_lt_zero _)

/-- For variables and a positive size tolerance there is a depth such that no search without strong
branching splits a node below it unless the node is narrow in some continuous dimension, under
pseudocosts or another rule and whatever its solvers answer, if they do nothing but shrink boxes
when they tighten a node. -/
theorem exists_depth_narrow (vars : List (Variable (Extended K))) (htolerance : 0 < tolerance) :
    ∃ depth : ℕ, ∀ {σ : Type} (solvers : Solvers σ (Extended K)) settings start,
      solvers.Tighten Node.Shrunk → settings.strongDepth = 0 →
      settings.sizeTolerance = .point tolerance → Search.new vars settings = .ok start →
        (∀ k s n t, Async.Descent solvers start k s n t →
          k ≤ depth ∨ n.box.Narrow start.brancher.vars settings.sizeTolerance)
        ∧ ∀ k run n after, Serial.Descent solvers start k run n after →
          k ≤ depth ∨ n.box.Narrow start.brancher.vars settings.sizeTolerance := by
  cases hvalid : vars.mapM Variable.validated with
  | error e =>
    refine ⟨0, fun solvers settings start _ _ _ hstart => ?_⟩
    cases hvalid.symm.trans (new_brancher hstart).1
  | ok valid =>
    refine ⟨Brancher.depthLeft valid (Variable.grain tolerance) (Node.root valid).box,
      fun solvers settings start hs hstrong hsize hstart => ?_⟩
    obtain ⟨hnone, -, hsettings⟩ := new_frame hstart
    cases hvalid.symm.trans (new_brancher hstart).1
    rw [hsize]
    have hcontinues := Continues.new hstart
    have hdescends := descends_roomy htolerance (standard_new hstart)
      (by rw [hsettings, hstrong])
    -- as long as no continuous dimension is narrow, every split takes one of the halvings
    have hroomy : ∀ {k} {n : Node (Extended K)}, n.Roomy start.brancher.vars tolerance
        (start.depthLeft (Variable.grain tolerance)) k →
        k ≤ start.depthLeft (Variable.grain tolerance)
          ∨ n.box.Narrow start.brancher.vars (.point tolerance) := by
      rintro k n (hconfined | ⟨-, hnarrow⟩)
      · have hroom := hconfined.room
        rw [Nat.sub_zero] at hroom
        exact .inl ((Nat.le_add_right _ _).trans hroom)
      · exact .inr hnarrow
    have hdef : Scalar.isNaN start.incumbent.value = false := by
      rw [hnone]
      rfl
    exact ⟨fun k s n t hdescent =>
        hroomy (Async.descends hcontinues hdescends.toDescends hs hdescent),
      fun k run n after hdescent => hroomy (Serial.descends hcontinues hdef hdescends hs hdescent)⟩

/-- Of two continuous variables the second one starves. Nodes are split below any depth then, and
they are narrow in the first dimension. -/
theorem exists_depth_narrow_squareVars : ∃ start depth,
    Search.new squareVars pseudocostSettings = .ok start
      ∧ (∀ k s n t, Async.Descent ignorantSolvers start k s n t →
        k ≤ depth ∨ n.box.Narrow start.brancher.vars (.point (1 / 2)))
      ∧ (∀ k run n after, Serial.Descent ignorantSolvers start k run n after →
        k ≤ depth ∨ n.box.Narrow start.brancher.vars (.point (1 / 2)))
      ∧ ∃ k s n t, Async.Descent ignorantSolvers start k s n t ∧ depth < k
        ∧ n.box.Narrow start.brancher.vars (.point (1 / 2)) := by
  obtain ⟨start, hstart, -⟩ := exists_eq_ok exists_squareStart
  obtain ⟨depth, hdepth⟩ := exists_depth_narrow squareVars (show (0 : ℚ) < 1 / 2 by norm_num)
  obtain ⟨hasynchronous, hserial⟩ := hdepth ignorantSolvers pseudocostSettings start
    (shrunk_barren fun n => ⟨rfl, rfl, rfl, .refl n.box⟩) rfl rfl hstart
  obtain ⟨s, n, t, hdescent, -⟩ := exists_descent hstart (depth + 1)
  exact ⟨start, depth, hstart, hasynchronous, hserial, depth + 1, s, n, t, hdescent,
    depth.lt_succ_self, (hasynchronous _ s n t hdescent).resolve_left depth.not_succ_le_self⟩

end Search

end BranchBound
