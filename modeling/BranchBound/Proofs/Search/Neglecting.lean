import BranchBound.Proofs.Node.Barren
import BranchBound.Proofs.Search.Lineage
import BranchBound.Proofs.Search.Recalling

/-! # A dimension that is never split

Two continuous dimensions of the same width and priority, and solvers that know no bound: nothing is
learned of splits, both dimensions promise the same under pseudocosts, and the first one is split
for ever although the second one is as wide as at the start.

* **`Async.exists_emptied`** — all nodes that are open may be handed out.
* **`Search.Untaught`** — a search of the two dimensions that has learned nothing.
* **`Search.Lopsided`** — in such a search, a node is out whose second dimension was not split.
* **`Search.not_exists_depth`** — there is no depth below which no node is split. -/

namespace BranchBound

/-! ## Handing out all nodes -/

/-- All nodes that are open may be handed out, one after the other. -/
theorem Async.exists_emptied {σ α : Type} [Scalar α] [Scalar.Ordered α] (solvers : Solvers σ α)
    {I : Search α → Prop} {P : α → Prop}
    (hI : ∀ {s n t}, I s → s.next = (.ok n, t) → I t) {s : Async α} (hs : I s.search)
    (hfruitless : s.search.Fruitless P) :
    ∃ t, Run solvers s t ∧ I t.search ∧ t.search.Fruitless P
      ∧ t.search.brancher.frontier.nodes = 0
      ∧ ∀ m ∈ s.search.brancher.frontier.nodes,
        m ∈ t.out ∧ m.id ∈ t.search.brancher.waiting.ids ∧ P m.score := by
  -- the nodes that are out from the beginning are carried along
  suffices hall : ∀ out : Multiset (Node α), (∀ m ∈ out, m ∈ s.out
        ∧ m.id ∈ s.search.brancher.waiting.ids ∧ P m.score) →
      ∃ t, Run solvers s t ∧ I t.search ∧ t.search.Fruitless P
        ∧ t.search.brancher.frontier.nodes = 0
        ∧ ∀ m ∈ out + s.search.brancher.frontier.nodes,
          m ∈ t.out ∧ m.id ∈ t.search.brancher.waiting.ids ∧ P m.score by
    simpa only [Multiset.zero_add] using hall 0 fun m hm => absurd hm (Multiset.notMem_zero m)
  induction hcard : s.search.brancher.frontier.nodes.card generalizing s with
  | zero =>
    intro out hout
    have hempty := Multiset.card_eq_zero.mp hcard
    refine ⟨s, .refl, hs, hfruitless, hempty, fun m hm => ?_⟩
    rw [hempty, Multiset.add_zero] at hm
    exact hout m hm
  | succ c ih =>
    intro out hout
    have hopen : s.search.brancher.frontier.isEmpty = false := by
      rw [← Bool.not_eq_true]
      intro hempty
      have hlist := hfruitless.consistent.isEmpty_iff.mp hempty
      rw [Frontier.nodes, hlist] at hcard
      cases hcard
    obtain ⟨n, t, hnext⟩ := exists_next hfruitless.consistent hopen
    obtain ⟨-, hscore, hid, hnodes, hids⟩ := hfruitless.toRecalls.next hnext
    rw [hnodes, Multiset.card_cons] at hcard
    obtain ⟨u, hrun, hu, hlast, hempty, hmem⟩ := ih (s := ⟨t, n :: s.out⟩) (hI hs hnext)
      (hfruitless.next hnext)
      (Nat.succ_injective hcard) (n ::ₘ out) fun m hm => by
        rcases Multiset.mem_cons.mp hm with rfl | hm
        · exact ⟨List.mem_cons_self, hid, hscore⟩
        · obtain ⟨hout, hwaiting, hP⟩ := hout m hm
          exact ⟨List.mem_cons_of_mem _ hout, hids _ hwaiting, hP⟩
    refine ⟨u, .head (.next hnext) hrun, hu, hlast, hempty, fun m hm => hmem m ?_⟩
    rwa [hnodes, Multiset.add_cons, ← Multiset.cons_add] at hm

namespace Search

/-- Two continuous variables between zero and one. -/
def squareVars : List (Variable (Extended ℚ)) :=
  [⟨0, 1, .continuous, 1, "x"⟩, ⟨0, 1, .continuous, 1, "y"⟩]

/-- Settings under which nodes are split under pseudocosts, down to half the width of the domain. -/
def pseudocostSettings : Settings (Extended ℚ) :=
  { Settings.standard with sizeTolerance := .point (1 / 2) }

/-- Solvers that know no bound. -/
def ignorantSolvers : Solvers Unit (Extended ℚ) := .barren id fun _ => some (-Scalar.infinity)

/-- They are settings for the two variables. -/
theorem exists_squareStart : ∃ start ∈ (Search.new squareVars pseudocostSettings).toOption,
    start.brancher.waiting = [] := by
  decide +kernel

/-- The variables are in standard form. -/
theorem validated_squareVars : squareVars.mapM Variable.validated = .ok squareVars := by
  rfl

variable {start s t : Search (Extended ℚ)} {n : Node (Extended ℚ)} {r : Report (Extended ℚ)}

/-- A search of the two variables that has learned nothing. -/
structure Untaught (s : Search (Extended ℚ)) : Prop where
  /-- The variables. -/
  vars : s.brancher.vars = squareVars
  /-- Nodes are split under pseudocosts. -/
  rule : s.brancher.rule = .pseudocost
  /-- The size tolerance. -/
  sizeTolerance : s.settings.sizeTolerance = .point (1 / 2)
  /-- Nothing was learned. -/
  pseudocosts : s.brancher.pseudocosts = .new 2

/-- The score of a node of which no bound is known. -/
abbrev Unbounded (score : Extended ℚ) : Prop := score = -Scalar.infinity

/-- Handing out a node teaches nothing. -/
theorem Untaught.next (h : s.Untaught) (hnext : s.next = (.ok n, t)) : t.Untaught := by
  obtain ⟨m, f, hpop, -, rfl⟩ := Async.next_ok hnext
  exact ⟨h.vars, h.rule, h.sizeTolerance, h.pseudocosts⟩

/-- Nothing is learned of a node of which no bound was known. -/
theorem learn_unbounded {b : Brancher (Extended ℚ)} {v : Variable (Extended ℚ)} {i : ℕ}
    {side : Side} {entry : HandedOut (Extended ℚ)} {processed : Extended ℚ}
    (h : Unbounded entry.score) :
    b.learn v i side entry processed = b.pseudocosts := by
  have hnone : Brancher.sample? b.frontier.threshold (Brancher.realizedMove v side entry.history)
      entry.score processed = none := by
    unfold Brancher.sample?
    rw [h]
    exact if_pos (.inr (.inl rfl))
  unfold Brancher.learn
  dsimp only
  rw [hnone]

/-- Recording a report teaches nothing if no bound was known of the nodes that are out. -/
theorem pseudocosts_record (hfruitless : s.Fruitless Unbounded) (hnone : r.candidate = none) :
    (s.record r).2.brancher.pseudocosts = s.brancher.pseudocosts := by
  have haccount : (s.account r).brancher = s.brancher := by
    rw [account_eq, hnone]
    rfl
  show ((s.account r).brancher.confirm r.node.id r.node).2.pseudocosts = _
  rw [haccount]
  rcases hconfirm : s.brancher.confirm r.node.id r.node with ⟨answer, c⟩
  cases Brancher.confirm_exit hconfirm with
  | unknown | unsplit | stray => rfl
  | learned hlookup =>
    have hmem := Brancher.mem_of_lookup hlookup
    exact learn_unbounded (hfruitless.waited _ hmem).1

/-- Recording a report that brings no point teaches nothing. -/
theorem Untaught.record (h : s.Untaught) (hfruitless : s.Fruitless Unbounded)
    (hnone : r.candidate = none) : (s.record r).2.Untaught := by
  have halike := s.alike_record r
  refine ⟨halike.vars.trans h.vars, halike.rule.trans h.rule, ?_, ?_⟩
  · rw [halike.settings, h.sizeTolerance]
  · rw [pseudocosts_record hfruitless hnone, h.pseudocosts]

/-! ## The dimension that is chosen -/

/-- Without samples all estimates are zero. -/
theorem estimate_new (i : ℕ) :
    Average.estimate (List.replicate 2 (.empty : Average (Extended ℚ))) i = 0 := by
  match i with
  | 0 | 1 | _ + 2 => rfl

/-- As long as nothing was learned, all continuous dimensions promise the same. -/
theorem dimensionScore_untaught {b : Brancher (Extended ℚ)} (hrule : b.rule = .pseudocost)
    (hpseudocosts : b.pseudocosts = .new 2) {box : Box (Extended ℚ)} {v : Variable (Extended ℚ)}
    {i : ℕ} {l u : ℚ} (hv : v.kind.isDiscrete = false) (hlower : box.lowerAt i = .point l)
    (hupper : box.upperAt i = .point u) (hlt : l < u) (point : List (Extended ℚ)) :
    b.dimensionScore? box point i v = some (v.priority * productScore 0 0) := by
  have hwidth : ¬ box.width i ≤ 0 := by
    rw [Box.width, hlower, hupper, Extended.sub_point]
    exact fun hle => absurd (Extended.point_le_point.mp hle) (not_le.mpr (sub_pos.mpr hlt))
  -- without a sample both averages are estimated as zero
  have hestimate : b.pseudocosts.downEstimate i = 0 ∧ b.pseudocosts.upEstimate i = 0 := by
    rw [hpseudocosts]
    exact ⟨estimate_new i, estimate_new i⟩
  have hzero : ∀ q : ℚ, (0 : Extended ℚ) * .point q = 0 := fun q =>
    congrArg Extended.point (zero_mul q)
  unfold Brancher.dimensionScore?
  dsimp only
  rw [if_neg hwidth, hrule]
  dsimp only
  rw [Brancher.moves, hv, hlower, hupper, Extended.middle_point, hestimate.1, hestimate.2]
  rw [if_neg Bool.false_ne_true]
  show some (v.priority * productScore (0 * .point _) (0 * .point _)) = _
  rw [hzero, hzero]

/-- The part of the domain below a value of the first variable. -/
def sliver (w : ℚ) : Box (Extended ℚ) := ⟨[0, 0], [.point w, 1]⟩

section Sliver

variable {w : ℚ} (hw : 0 < w) {s : Search (Extended ℚ)}

/-- The lower half of it is one. -/
theorem parts_sliver :
    (Brancher.parts .continuous (sliver w) 0).1 = sliver (w / 2) := by
  have hmiddle : (sliver w).midpoint 0 = .point (w / 2) := by
    show Scalar.middle (Extended.point 0) (.point w) = _
    rw [Extended.middle_point, zero_add]
  show (sliver w).setUpper 0 ((sliver w).midpoint 0) = _
  rw [hmiddle]
  rfl

/-- It is not a single point. -/
theorem isPoint_sliver : (sliver w).isPoint = false := by
  show ((0 : Extended ℚ) == .point w && ((0 : Extended ℚ) == 1 && true)) = false
  rw [show ((0 : Extended ℚ) == 1) = false from by decide]
  exact Bool.and_false _

/-- The width of a variable between zero and one. -/
theorem unit_width : (1 - 0 : Extended ℚ) = 1 :=
  (Extended.sub_point _ _).trans (congrArg Extended.point (sub_zero 1))

/-- A dimension that is as wide as such a variable is not within a tolerance below one. -/
theorem not_within_of_unit {tolerance : Extended ℚ} (h : ¬ 1 ≤ tolerance) :
    ¬ decide ((if (0 : Extended ℚ) < 1 - 0 then (1 - 0 : Extended ℚ) / (1 - 0) else 0)
      ≤ tolerance) = true := by
  have hratio : (1 / 1 : Extended ℚ) = 1 :=
    (Extended.div_point 1 one_ne_zero).trans (congrArg Extended.point (div_one 1))
  rw [unit_width, if_pos (by decide), hratio, decide_eq_true_iff]
  exact h

/-- It is not within the size tolerance. -/
theorem Untaught.isBelowTolerance_sliver (h : s.Untaught) :
    s.brancher.isBelowTolerance (sliver w) s.settings.sizeTolerance = false := by
  rw [Brancher.isBelowTolerance, h.vars, h.sizeTolerance, List.all_eq_false]
  exact ⟨(⟨0, 1, .continuous, 1, "y"⟩, 1), List.mem_cons_of_mem _ List.mem_cons_self,
    not_within_of_unit fun hle => absurd (Extended.point_le_point.mp hle) (by norm_num)⟩

/-- A rectangle is not empty if no side of it is. -/
theorem isEmpty_rectangle {a b c d : Extended ℚ} (hx : ¬ c < a) (hy : ¬ d < b) :
    (⟨[a, b], [c, d]⟩ : Box (Extended ℚ)).isEmpty = false := by
  show (decide (c < a) || (decide (d < b) || false)) = false
  rw [decide_eq_false hx, decide_eq_false hy]
  rfl

include hw

/-- It is not empty. -/
theorem isEmpty_sliver : (sliver w).isEmpty = false :=
  isEmpty_rectangle (fun hlt => absurd (Extended.point_lt_point.mp hlt) (not_lt.mpr hw.le))
    (by decide)

/-- The first dimension is chosen, however narrow it is. -/
theorem Untaught.choose_sliver (h : s.Untaught) : s.brancher.choose (sliver w) [] = some 0 := by
  have hscore := fun {i l u} {v : Variable (Extended ℚ)} (hv : v.kind.isDiscrete = false)
      (hlower : (sliver w).lowerAt i = .point l) (hupper : (sliver w).upperAt i = .point u)
      (hlt : l < u) =>
    dimensionScore_untaught h.rule h.pseudocosts hv hlower hupper hlt []
  have hcandidates : s.brancher.candidates (sliver w) []
      = [(0, 1 * productScore 0 0), (1, 1 * productScore 0 0)] := by
    unfold Brancher.candidates
    rw [h.vars]
    simp only [squareVars, List.zipIdx_cons, List.zipIdx_nil, List.filterMap_cons]
    rw [hscore (l := 0) (u := w) rfl rfl rfl hw, hscore (l := 0) (u := 1) rfl rfl rfl one_pos]
    rfl
  -- the second one does not promise more
  have hlater : Brancher.supersedes .pseudocost (sliver w) []
      (0, (1 * productScore 0 0 : Extended ℚ)) (1, 1 * productScore 0 0) = false := by
    unfold Brancher.supersedes
    rw [if_neg fun hrule => hrule.1 rfl]
    exact decide_eq_false fun hlt => Scalar.not_le_of_lt hlt (Scalar.le_of_lt hlt)
  rw [Brancher.choose, hcandidates, h.rule]
  simp only [List.foldl_cons, List.foldl_nil, Brancher.better, hlater, Bool.false_eq_true, if_false,
    Option.map_some]

end Sliver

/-! ## The run -/

/-- In a search that has learned nothing, a node is out whose second dimension was never split. -/
structure Lopsided (s : Async (Extended ℚ)) (n : Node (Extended ℚ)) : Prop where
  /-- Nothing was learned. -/
  untaught : s.search.Untaught
  /-- No point was found, and no bound is known of any node. -/
  fruitless : s.search.Fruitless Unbounded
  /-- No node is open. -/
  empty : s.search.brancher.frontier.nodes = 0
  /-- The node is out. -/
  out : n ∈ s.out
  /-- It is waited for. -/
  waiting : n.id ∈ s.search.brancher.waiting.ids
  /-- No bound is known of it. -/
  score : Unbounded n.score
  /-- Its second dimension is as wide as at the start. -/
  box : ∃ w : ℚ, 0 < w ∧ n.box = sliver w

/-- Splitting a node teaches nothing. -/
theorem Untaught.branched (h : s.Untaught) {b : Brancher (Extended ℚ)} {i k l : ℕ}
    (hbranched : Brancher.Branched s.brancher r.node r.point r.lowerBound (.split i k l) b) :
    (s.branched r b (.split i k l)).Untaught :=
  ⟨hbranched.vars.trans h.vars, hbranched.rule.trans h.rule, h.sizeTolerance,
    hbranched.pseudocosts.trans h.pseudocosts⟩

/-- A report on a part of the domain below a value of the first variable, with neither a bound nor a
point. -/
structure Hollow (w : ℚ) (r : Report (Extended ℚ)) : Prop where
  /-- The node has to be branched. -/
  stage : r.stage = .postprocessed
  /-- It is a part below a value of the first variable. -/
  box : r.node.box = sliver w
  /-- No bound is known of it. -/
  score : Unbounded r.node.score
  /-- The relaxation has no bound either. -/
  lowerBound : Unbounded r.lowerBound
  /-- It is attained nowhere. -/
  point : r.point = []
  /-- No point was found. -/
  candidate : r.candidate = none

/-- Such a report comes of processing a node of which no bound is known, as long as no point was
found. -/
theorem exists_hollow (hfruitless : s.Fruitless Unbounded) {w : ℚ} (hw : 0 < w)
    (hbox : n.box = sliver w) (hscore : Unbounded n.score) :
    ∃ r, (processNode ignorantSolvers n s.cutoff).Returns () r () ∧ Hollow w r
      ∧ r.node.id = n.id := by
  have hlive : s.cutoff.dominates (Scalar.greatest n.score (-Scalar.infinity)) = false :=
    (hfruitless.live (by rw [hscore]; decide)).2
  obtain ⟨r, hreturns, hstage, hnode, hpoint, hbound, hnone⟩ :=
    returns_barren_open id (fun _ => some (-Scalar.infinity))
      (by rw [id, hbox]; exact isEmpty_sliver hw) rfl rfl hlive
  refine ⟨r, hreturns, ⟨hstage, by rw [hnode]; exact hbox, ?_, hbound, hpoint, hnone⟩,
    by rw [hnode]; rfl⟩
  rw [hnode, id, hscore]
  rfl

/-- Acting on such a report splits the node in the first dimension. -/
theorem Untaught.exists_branch (h : s.Untaught) (hfruitless : s.Fruitless Unbounded) {w : ℚ}
    (hw : 0 < w) (hr : Hollow w r) :
    ∃ k l b, s.brancher.branch r.node r.point r.lowerBound s.settings.sizeTolerance
        = (.ok (.split 0 k l), b)
      ∧ (∀ m ∈ s.brancher.opened r.node r.lowerBound (.split 0 k l), Unbounded m.score)
      ∧ ∃ m ∈ b.frontier.nodes, m.box = sliver (w / 2) := by
  -- the first variable is continuous, and the bounds of the second one are whole already
  have hrounded : Brancher.roundDiscrete s.brancher.vars r.node.box = sliver w := by
    rw [h.vars, hr.box]
    rfl
  obtain ⟨k, l, b, hbranch⟩ := Brancher.exists_split (b := s.brancher) (i := 0)
    (v := ⟨0, 1, .continuous, 1, "x"⟩) r.point r.lowerBound s.settings.sizeTolerance
    (Brancher.dimensionFault_eq_none (by rw [hr.box, h.vars]; rfl) (by rw [hr.box, h.vars]; rfl))
    (by rw [hrounded]; exact isEmpty_sliver hw) (by rw [hrounded]; exact isPoint_sliver)
    (by rw [hrounded]; exact h.isBelowTolerance_sliver)
    (by rw [hrounded, hr.point]; exact h.choose_sliver hw) (by rw [h.vars]; rfl)
  have hlive : s.brancher.frontier.dominates r.node.score = false :=
    (hfruitless.live (by rw [hr.score]; decide)).1
  have hbound : r.lowerBound ≤ r.node.score := by
    rw [hr.lowerBound, hr.score]
    decide
  have hscore : Unbounded (s.brancher.rounded r.node r.lowerBound).score := by
    show (if Scalar.isNaN r.lowerBound then r.node.score
      else Scalar.greatest r.node.score r.lowerBound) = _
    rw [hr.lowerBound, hr.score]
    rfl
  have hbox : (s.brancher.rounded r.node r.lowerBound).box = sliver w := hrounded
  obtain ⟨hnodes, -⟩ :=
    (Brancher.branch_cases hbranch).2.nodes_of_live hfruitless.consistent hlive hbound
  have hopened : s.brancher.opened r.node r.lowerBound (.split 0 k l)
      = {Brancher.child (s.brancher.rounded r.node r.lowerBound)
          (Brancher.parts .continuous (s.brancher.rounded r.node r.lowerBound).box 0).1 k,
        Brancher.child (s.brancher.rounded r.node r.lowerBound)
          (Brancher.parts .continuous (s.brancher.rounded r.node r.lowerBound).box 0).2 l} := by
    rw [Brancher.opened, h.vars]
    rfl
  rw [hopened] at hnodes
  refine ⟨k, l, b, hbranch, fun m hm => ?_, _,
    hnodes ▸ Multiset.mem_add.mpr (.inl (Multiset.mem_cons_self _ _)), ?_⟩
  · rw [hopened] at hm
    rcases Multiset.mem_cons.mp hm with rfl | hm
    · exact hscore
    · rw [Multiset.mem_singleton.mp hm]
      exact hscore
  · show (Brancher.parts .continuous (s.brancher.rounded r.node r.lowerBound).box 0).1 = _
    rw [hbox, parts_sliver]

/-- The node is split in the first dimension. -/
theorem Lopsided.split {s : Async (Extended ℚ)} (h : Lopsided s n) :
    ∃ t m, Async.Splits ignorantSolvers s n t ∧ m ∈ t.search.brancher.frontier.nodes
      ∧ t.search.Untaught ∧ t.search.Fruitless Unbounded ∧ ∃ w : ℚ, 0 < w ∧ m.box = sliver w := by
  obtain ⟨w, hw, hbox⟩ := h.box
  obtain ⟨r, hreturns, hhollow, hid⟩ := exists_hollow h.fruitless hw hbox h.score
  obtain ⟨hrecord, -⟩ := h.fruitless.record_ok (r := r) (by rw [hid]; exact h.waiting)
  have hfruitless := h.fruitless.record hhollow.candidate
  have huntaught := h.untaught.record h.fruitless hhollow.candidate
  obtain ⟨k, l, b, hbranch, hopened, m, hm, hmbox⟩ :=
    huntaught.exists_branch hfruitless hw hhollow
  have hbranched := (Brancher.branch_cases hbranch).2
  have happly := apply_eq_branched hrecord hhollow.stage (by rw [hhollow.box]; exact isPoint_sliver)
    hbranch
  -- the node is out, and its report comes back
  obtain ⟨before, after, hout⟩ := List.append_of_mem h.out
  have hstale : s.search.incumbent.value ≤ s.search.incumbent.value := by
    rw [h.fruitless.incumbent]
    decide
  exact ⟨_, m, .report hout hreturns hstale happly, hm, huntaught.branched hbranched,
    hfruitless.branched hbranched hopened, w / 2, half_pos hw, hmbox⟩

/-- After a split, a part of the node is out once all nodes were handed out. -/
theorem exists_lopsided {s : Async (Extended ℚ)} {m : Node (Extended ℚ)}
    (huntaught : s.search.Untaught) (hfruitless : s.search.Fruitless Unbounded)
    (hm : m ∈ s.search.brancher.frontier.nodes) (hbox : ∃ w : ℚ, 0 < w ∧ m.box = sliver w) :
    ∃ t, Async.Run ignorantSolvers s t ∧ Lopsided t m := by
  obtain ⟨t, hrun, ht, hlast, hempty, hall⟩ :=
    Async.exists_emptied ignorantSolvers Untaught.next huntaught hfruitless
  obtain ⟨hout, hwaiting, hscore⟩ := hall m hm
  exact ⟨t, hrun, ht, hlast, hempty, hout, hwaiting, hscore, hbox⟩

/-- At its start a search has learned nothing. -/
theorem pseudocosts_new {vars : List (Variable (Extended ℚ))} {settings : Settings (Extended ℚ)}
    (hstart : Search.new vars settings = .ok start) :
    start.brancher.pseudocosts = .new start.brancher.vars.length := by
  obtain ⟨valid, -, rfl⟩ := new_eq hstart
  rfl

/-- At the start of a search of the two variables nothing was learned, and the root is open. -/
theorem untaught_new (hstart : Search.new squareVars pseudocostSettings = .ok start) :
    start.Untaught ∧ start.Fruitless Unbounded
      ∧ Node.root start.brancher.vars ∈ start.brancher.frontier.nodes
      ∧ ∃ w : ℚ, 0 < w ∧ (Node.root start.brancher.vars).box = sliver w := by
  obtain ⟨-, -, hsettings⟩ := new_frame hstart
  obtain ⟨hvalid, hrule⟩ := new_brancher hstart
  have hvars : start.brancher.vars = squareVars :=
    (Except.ok.inj (validated_squareVars.symm.trans hvalid)).symm
  refine ⟨⟨hvars, hrule, by rw [hsettings]; rfl, ?_⟩, .new hstart rfl, ?_, 1, one_pos, ?_⟩
  · rw [pseudocosts_new hstart, hvars]
    rfl
  · rw [(nodes_new hstart).1]
    exact Multiset.mem_singleton_self _
  · rw [hvars]
    rfl

/-- After any number of splits, a node is out whose second dimension was never split. -/
theorem exists_descent (hstart : Search.new squareVars pseudocostSettings = .ok start) (k : ℕ) :
    ∃ s n t, Async.Descent ignorantSolvers start k s n t ∧ s.search.brancher.frontier.nodes = 0
      ∧ ∃ m ∈ t.search.brancher.frontier.nodes, t.search.Untaught ∧ t.search.Fruitless Unbounded
        ∧ ∃ w : ℚ, 0 < w ∧ m.box = sliver w := by
  induction k with
  | zero =>
    obtain ⟨huntaught, hfruitless, hroot, hbox⟩ := untaught_new hstart
    obtain ⟨s, hrun, hs⟩ := exists_lopsided (s := ⟨start, []⟩) huntaught hfruitless hroot hbox
    obtain ⟨t, m, hsplit, hm, ht⟩ := hs.split
    exact ⟨s, _, t, .root hrun hsplit, hs.empty, m, hm, ht⟩
  | succ k ih =>
    obtain ⟨s, n, t, hdescent, hempty, m, hm, huntaught, hfruitless, hbox⟩ := ih
    obtain ⟨u, hrun, hu⟩ := exists_lopsided huntaught hfruitless hm hbox
    obtain ⟨v, c, hsplit, hc, hv⟩ := hu.split
    -- no node was open when the last one was split, so that the half is a new one
    have hnew : m ∉ s.search.brancher.frontier.nodes := by
      rw [hempty]
      exact Multiset.notMem_zero m
    exact ⟨u, m, v, .child hdescent hm hnew hrun hsplit, hu.empty, c, hc, hv⟩

/-- No depth bounds how deep nodes of the two variables are split under pseudocosts, although every
split leaves the second dimension as wide as at the start. -/
theorem not_exists_depth :
    ¬ ∃ depth : ℕ, ∀ (solvers : Solvers Unit (Extended ℚ)) settings start,
      solvers.Tighten Node.Shrunk → settings.rule = .pseudocost → settings.strongDepth = 0 →
      settings.sizeTolerance = .point (1 / 2) → Search.new squareVars settings = .ok start →
        ∀ k s n t, Async.Descent solvers start k s n t → k ≤ depth := by
  rintro ⟨depth, hdepth⟩
  obtain ⟨start, hstart, -⟩ := exists_eq_ok exists_squareStart
  obtain ⟨s, n, t, hdescent, -⟩ := exists_descent hstart (depth + 1)
  have hle := hdepth ignorantSolvers pseudocostSettings start
    (shrunk_barren fun n => ⟨rfl, rfl, rfl, .refl n.box⟩) rfl rfl rfl hstart (depth + 1) s n t
    hdescent
  omega

end Search

end BranchBound
