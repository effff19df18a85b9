import BranchBound.Proofs.Box.Halving
import BranchBound.Proofs.Search.Lineage

/-! # Room for splits

A split in a dimension that is wider than a grain takes a halving off what is left of a node, so the
number of splits that led to a node and the halvings that are left of it keep within a limit. Strong
branching splits nodes in any dimension, but only nodes of a small depth.

* **`Node.Confined`** — splits and halvings keep within a limit, but for splits that strong
  branching may have made.
* **`Confined.tightened`**, **`Confined.split`**, **`Confined.strong`** — so it is of what comes of
  the node.
* **`Search.Coarse`** — a search splits nodes only where they are wider than some grains. -/

namespace BranchBound

variable {K : Type} [Field K] [LinearOrder K] [FloorRing K] [IsStrictOrderedRing K]
  {vars : List (Variable (Extended K))} {grains : Variable (Extended K) → K}
  {m n : Node (Extended K)} {strongDepth limit i k : ℕ}

/-- A part in the dimension of a split is a half. -/
theorem Node.SplitFrom.isHalf (h : m.SplitFrom vars i n) (hn : n.box.Inside vars)
    (hvars : ∀ v ∈ vars, v.Standard) :
    Brancher.IsHalf vars i m.box (Brancher.roundDiscrete vars n.box) := by
  obtain ⟨hinside, hwhole⟩ := Brancher.inside_roundDiscrete hn hvars h.full
  obtain ⟨v, hv, hbox⟩ := h.part
  obtain ⟨hbelow, habove⟩ := Brancher.isHalf_parts hinside hvars hwhole hv h.wide
  rcases hbox with hbox | hbox <;> rw [hbox]
  · exact hbelow
  · exact habove

/-- A node inside the domain, such that the number of splits that led to it beyond those that strong
branching may make and the halvings that are left of it keep within a limit. -/
structure Node.Confined (vars : List (Variable (Extended K))) (grains : Variable (Extended K) → K)
    (strongDepth limit k : ℕ) (n : Node (Extended K)) : Prop where
  /-- The node is inside the domain. -/
  inside : n.box.Inside vars
  /-- Splits and halvings keep within the limit. -/
  room : k - strongDepth + Brancher.depthLeft vars grains n.box ≤ limit

namespace Node.Confined

variable (hgrains : ∀ v ∈ vars, 0 < grains v) (hvars : ∀ v ∈ vars, v.Standard)

include hvars in
/-- No split led to the root. -/
theorem root (strongDepth : ℕ) : (Node.root vars).Confined vars grains strongDepth
    (Brancher.depthLeft vars grains (Node.root vars).box) 0 :=
  ⟨Box.inside_root hvars, by rw [Nat.zero_sub, Nat.zero_add]⟩

include hgrains hvars

/-- Tightening a node leaves no more of it. -/
theorem tightened (h : n.Confined vars grains strongDepth limit k) (hm : m.Tightened n)
    (hfull : m.box.isEmpty = false) : m.Confined vars grains strongDepth limit k :=
  ⟨h.inside.shrunk hm.box hfull, (Nat.add_le_add_left (Brancher.depthLeft_le_of_shrunk
    (fun v hv => (hgrains v hv).le) hvars h.inside hm.box hfull) _).trans h.room⟩

/-- A split in a dimension that is wider than its grain takes a halving off. -/
theorem split (h : n.Confined vars grains strongDepth limit k) (hm : m.SplitFrom vars i n)
    (hwide : ∀ v, vars[i]? = some v → grains v < (Brancher.roundDiscrete vars n.box).span i) :
    m.Confined vars grains strongDepth limit (k + 1) := by
  have hhalf := hm.isHalf h.inside hvars
  obtain ⟨v, hv, -⟩ := hm.part
  have hlt := hhalf.depthLeft_lt (fun v hv => (hgrains v hv).le) hvars hv
    (hgrains v (List.mem_of_getElem? hv)) (hwide v hv)
  have hroom := h.room
  exact ⟨hhalf.inside, by omega⟩

/-- A split that strong branching may have made takes nothing off. -/
theorem strong (h : n.Confined vars grains strongDepth limit k) (hm : m.SplitFrom vars i n)
    (hk : k < strongDepth) : m.Confined vars grains strongDepth limit (k + 1) := by
  have hhalf := hm.isHalf h.inside hvars
  have hle := hhalf.depthLeft_le (fun v hv => (hgrains v hv).le) hvars
  have hroom := h.room
  exact ⟨hhalf.inside, by omega⟩

end Node.Confined

namespace Search

/-- A search splits boxes inside the domain only in dimensions that are wider than their grains. -/
structure Coarse (start : Search (Extended K)) (grains : Variable (Extended K) → K) : Prop where
  /-- The variables are in standard form. -/
  standard : ∀ v ∈ start.brancher.vars, v.Standard
  /-- The grains are positive. -/
  pos : ∀ v ∈ start.brancher.vars, 0 < grains v
  /-- The dimension that is chosen is wider than its grain. -/
  wide : ∀ {box point i v}, box.Inside start.brancher.vars → start.Chooses box point i →
    start.brancher.vars[i]? = some v →
    grains v < (Brancher.roundDiscrete start.brancher.vars box).span i

variable {start : Search (Extended K)}

/-- How many splits may follow one another below the root. -/
def depthLeft (start : Search (Extended K)) (grains : Variable (Extended K) → K) : ℕ :=
  Brancher.depthLeft start.brancher.vars grains (Node.root start.brancher.vars).box

/-- Without strong branching, the nodes keep within the halvings of the domain. -/
theorem Coarse.descends (h : start.Coarse grains) :
    start.Descends (Node.Confined start.brancher.vars grains 0 (start.depthLeft grains)) where
  root := .root h.standard 0
  tightened hn hm hfull := hn.tightened h.pos h.standard hm hfull
  split hn hchooses hm := hn.split h.pos h.standard hm fun _ hv => h.wide hn.inside hchooses hv

/-- With strong branching, they keep within the depth for it and the halvings of the domain, as long
as depths do not run out. -/
theorem Coarse.descendsStrongly (h : start.Coarse grains) {strongDepth : ℕ}
    (hstrong : start.settings.strongDepth = strongDepth)
    (hdepths : strongDepth = 0 ∨ strongDepth + start.depthLeft grains < depthRange) :
    start.DescendsStrongly fun k n =>
      n.Confined start.brancher.vars grains strongDepth (start.depthLeft grains) k
        ∧ (strongDepth = 0 ∨ n.depth = k) where
  root := ⟨.root h.standard strongDepth, .inr rfl⟩
  tightened hn hm hfull :=
    ⟨hn.1.tightened h.pos h.standard hm hfull, hn.2.imp_right fun hdepth => hm.depth.trans hdepth⟩
  split {k i m n point} hn hchooses hm := by
    have hm' := hn.1.split h.pos h.standard hm fun _ hv => h.wide hn.1.inside hchooses hv
    have hroom := hm'.room
    refine ⟨hm', ?_⟩
    rcases hdepths with hzero | hdepths
    · exact .inl hzero
    · refine hn.2.imp_right fun hdepth => ?_
      rw [hm.depth, hdepth, Nat.mod_eq_of_lt (by omega)]
  strong {k i m n} hn hdepth hm := by
    rw [hstrong] at hdepth
    -- the depth of a node is that of the walk to it, as long as depths do not wrap
    have hk : n.depth = k := hn.2.resolve_left (by omega)
    refine ⟨hn.1.strong h.pos h.standard hm (by omega), .inr ?_⟩
    rw [hm.depth, hk, Nat.mod_eq_of_lt (by omega)]

end Search

end BranchBound
