import BranchBound.Proofs.Search.Sparing
import BranchBound.Proofs.Search.Tolerances
import BranchBound.Proofs.Search.Unresolved

/-! # Reports may come in in any order

What a report brings depends on its node and on the variables, and not on the reports that came in
before: under a rule by diameter nothing that a search learns has a say in how a node is split. The
order decides whether a node is refused or opened and fathomed later, and where its score is kept;
but the last threshold is the lowest one, so the same nodes are open in the end and the same scores
are left unresolved.

* **`Brancher.answer_branch_congr`**, **`Search.AlikeAt.answer_apply`** — the answer to a report is
  the same in states that agree about its node.
* **`Search.brought`**, **`Abreast.unnamed_apply`** — the nodes that a report brings, and what is
  open once it came in.
* **`Search.apply_comm`** — both orders lead to the same incumbent value, the same open nodes apart
  from their ids, and the same bound. -/

namespace BranchBound

variable {α : Type} [Scalar α]

/-- A node apart from its id. -/
def Node.unnamed (n : Node α) : Node α := { n with id := 0 }

/-! ## Branching -/

namespace Brancher

variable {b c : Brancher α} {parent : Node α} {point : List α} {objective tolerance : α}

/-- Under a rule by diameter the choice of a dimension depends on the variables alone. -/
theorem choose_congr (hvars : c.vars = b.vars) (hrule : c.rule = b.rule)
    (hdiameter : b.rule ≠ .pseudocost) (box : Box α) (point : List α) :
    c.choose box point = b.choose box point := by
  have hscore : ∀ i v, c.dimensionScore? box point i v = b.dimensionScore? box point i v := by
    intro i v
    unfold dimensionScore?
    rw [hrule]
    cases hb : b.rule with
    | pseudocost => exact absurd hb hdiameter
    | absoluteDiameter => rfl
    | relativeDiameter => rfl
  unfold choose candidates
  simp only [hscore, hvars, hrule]

/-- So does the answer to branching, apart from the ids of the parts. -/
theorem answer_branch_congr (hvars : c.vars = b.vars) (hrule : c.rule = b.rule)
    (hdiameter : b.rule ≠ .pseudocost) (parent : Node α) (point : List α)
    (objective tolerance : α) :
    (c.branch parent point objective tolerance).1.map Branching.stage
      = (b.branch parent point objective tolerance).1.map Branching.stage := by
  have hfault : c.dimensionFault? parent = b.dimensionFault? parent := by
    unfold dimensionFault?
    rw [hvars]
  have hbelow : ∀ box, c.isBelowTolerance box tolerance = b.isBelowTolerance box tolerance := by
    intro box
    unfold isBelowTolerance
    rw [hvars]
  -- branching looks at nothing else of the brancher
  unfold branch
  rw [hfault, hvars]
  simp only [hbelow, choose_congr hvars hrule hdiameter]
  cases b.dimensionFault? parent with
  | some e => rfl
  | none =>
    dsimp only
    split
    · rfl
    · split
      · rfl
      · split
        · rfl
        · split <;> rfl

/-- So does the answer to a confirmation, for a node that both wait for alike. -/
theorem answer_confirm_congr (hvars : c.vars = b.vars) {id : Nat}
    (hlookup : c.waiting.lookup id = b.waiting.lookup id) (n : Node α) :
    (c.confirm id n).1 = (b.confirm id n).1 := by
  unfold confirm
  rw [hlookup]
  cases b.waiting.lookup id with
  | none => rfl
  | some entry =>
    dsimp only
    cases entry.history.split? with
    | none => rfl
    | some split =>
      dsimp only
      rw [hvars]
      cases b.vars[split.1]? <;> rfl

/-- The parts of a node are the same apart from their ids, whatever these are. -/
theorem map_unnamed_opened (b : Brancher α) (parent : Node α) (objective : α) (i down up : Nat) :
    (b.opened parent objective (.split i down up)).map Node.unnamed
      = (b.opened parent objective (.split i 0 0)).map Node.unnamed := by
  unfold opened
  dsimp only
  cases b.vars[i]? <;> rfl

end Brancher

/-! ## Answers -/

namespace Search

variable {s t u : Search α} {r : Report α} {stage : Stage} {id : Nat}

/-- Two states of a search agree about a node that is out: they have the same variables, rule and
settings, wait for the node alike, and have queued it once more or not. -/
structure AlikeAt (s t : Search α) (id : Nat) : Prop extends s.Alike t where
  /-- The node is waited for alike. -/
  lookup : t.brancher.waiting.lookup id = s.brancher.waiting.lookup id
  /-- It was queued once more in both or in neither. -/
  requeued : id ∈ t.requeued ↔ id ∈ s.requeued

/-- What branching the node of a report answers. -/
theorem answer_branch (s : Search α) (r : Report α) :
    (s.branch r).1 = if r.node.box.isPoint ∧ r.node.id ∈ s.requeued then
        .ok (.fathomed .fixedPointEvaluated)
      else (s.brancher.branch r.node r.point r.lowerBound s.settings.sizeTolerance).1.map
        Brancher.Branching.stage := by
  unfold Search.branch
  split
  · rfl
  · rcases s.brancher.branch r.node r.point r.lowerBound s.settings.sizeTolerance
      with ⟨e | outcome, b⟩
    · rfl
    · cases outcome <;> rfl

omit [Scalar α] in
/-- States are like those that are like them. -/
theorem Alike.symm (h : s.Alike t) : t.Alike s := ⟨h.vars.symm, h.rule.symm, h.settings.symm⟩

/-- A recorded report is answered the same in states that agree about its node. -/
theorem Alike.answer_settle (h : s.Alike t) (hdiameter : s.brancher.rule ≠ .pseudocost)
    (hrequeued : r.node.id ∈ t.requeued ↔ r.node.id ∈ s.requeued) :
    (t.settle r).1 = (s.settle r).1 := by
  unfold settle
  split
  · rfl
  · rw [answer_branch, answer_branch, h.settings,
      Brancher.answer_branch_congr h.vars h.rule hdiameter]
    simp only [hrequeued]
  · rfl

/-- What a report that is taken in is answered. -/
theorem answer_apply (s : Search α) (r : Report α) :
    (s.apply r).1 = match (s.record r).1 with
      | .error e => .error e
      | .ok () => ((s.record r).2.settle r).1 := by
  rcases s.apply_cases r with ⟨e, hrecord, happly⟩ | ⟨hrecord, happly⟩ <;> rw [happly, hrecord]

/-- Taking in a report changes neither the variables nor the rule nor the settings. -/
theorem alike_apply (happly : s.apply r = (.ok stage, t)) : s.Alike t := by
  have halike := s.alike_perform (.apply r)
  rwa [Search.perform, happly] at halike

section Ordered

variable [Scalar.Ordered α]

/-- A report is answered the same in states that agree about its node. -/
theorem AlikeAt.answer_apply (h : s.AlikeAt t r.node.id) (hs : s.brancher.frontier.Consistent)
    (ht : t.brancher.frontier.Consistent) (hdiameter : s.brancher.rule ≠ .pseudocost) :
    (t.apply r).1 = (s.apply r).1 := by
  have hrecord : (t.record r).1 = (s.record r).1 := by
    refine Brancher.answer_confirm_congr ?_ ?_ r.node
    · -- accounting a report changes no variable
      have hvars : ∀ u : Search α, (u.account r).brancher.vars = u.brancher.vars := fun u =>
        (confirm_frontier (u.account r).brancher r.node.id r.node).2.symm.trans
          (u.alike_record r).vars
      rw [hvars, hvars, h.vars]
    · rw [(t.account_frame r).1, (s.account_frame r).1, h.lookup]
  have halike : (s.record r).2.Alike (t.record r).2 :=
    (s.alike_record r).symm.trans (h.toAlike.trans (t.alike_record r))
  have hsettle := halike.answer_settle (r := r) ((s.alike_record r).rule ▸ hdiameter) (by
    rw [(s.keeps_record hs r).requeued, (t.keeps_record ht r).requeued, h.requeued])
  rw [Search.answer_apply, Search.answer_apply, hrecord, hsettle]

/-- Taking in the report on one node leaves the search as it was for another one. -/
theorem alikeAt_apply (hs : s.brancher.frontier.Consistent) (happly : s.apply r = (.ok stage, t))
    (hne : id ≠ r.node.id) : s.AlikeAt t id := by
  refine ⟨alike_apply happly, ?_, ?_⟩
  · rw [waiting_apply happly, Waiting.lookup_erase_of_ne hne]
  · rw [← (s.keeps_record hs r).requeued]
    cases settlement (apply_ok happly).2 with
    | fathomed =>
      rw [((Keeps.refl (s.keeps_record hs r).consistent).countFathomed r).requeued]
    | twice => rfl
    | @branched _ _ outcome b hbranch =>
      rw [(requeued_branched _ r b outcome).2]
      cases outcome with
      | requeued => simp [Brancher.Branching.noted, hne]
      | dropped | split => rfl

end Ordered

/-! ## Open nodes -/

/-- The nodes that a report brings if its node ends in a stage, apart from their ids and whether or
not they are dominated. -/
def brought (s : Search α) (r : Report α) : Stage → Multiset (Node α)
  | .fixed => (s.brancher.opened r.node r.lowerBound .requeued).map Node.unnamed
  | .branched =>
      let box := Brancher.roundDiscrete s.brancher.vars r.node.box
      (s.brancher.choose box r.point).elim 0 fun i =>
        (s.brancher.opened r.node r.lowerBound (.split i 0 0)).map Node.unnamed
  | _ => 0

/-- The open nodes apart from their ids. -/
def unnamed (s : Search α) : Multiset (Node α) := s.brancher.frontier.nodes.map Node.unnamed

/-- What a report brings is the same in states that are alike. -/
theorem Alike.brought (h : s.Alike t) (hdiameter : s.brancher.rule ≠ .pseudocost) (r : Report α)
    (stage : Stage) : t.brought r stage = s.brought r stage := by
  unfold Search.brought
  simp only [Brancher.opened_congr h.vars, Brancher.choose_congr h.vars h.rule hdiameter, h.vars]

/-- The frontier does not look at ids. -/
theorem filter_map_unnamed (f : Frontier α) (nodes : Multiset (Node α)) :
    (nodes.filter f.Spares).map Node.unnamed = (nodes.map Node.unnamed).filter f.Spares :=
  (Multiset.filter_map f.Spares Node.unnamed nodes).symm

section Opened

variable [Scalar.Ordered α]

/-- Acting on a report opens the nodes that it brings unless they are dominated. -/
theorem unnamed_settle (hs : s.brancher.frontier.Consistent)
    (hsettle : s.settle r = (.ok stage, t)) :
    t.unnamed = (s.brought r stage).filter s.brancher.frontier.Spares + s.unnamed := by
  cases settlement hsettle with
  | fathomed =>
    rw [unnamed, (s.countFathomed_frame r).1]
    exact (Multiset.zero_add _).symm
  | twice => exact (Multiset.zero_add _).symm
  | @branched _ _ outcome b hbranch =>
    have hnodes := (Brancher.branch_cases hbranch).2.nodes hs
    have hjustified := Brancher.branch_justified hbranch
    rw [unnamed, (s.requeued_branched r b outcome).1, hnodes, Multiset.map_add, filter_map_unnamed]
    cases outcome with
    | dropped | requeued => rfl
    | split i down up =>
      rw [Brancher.map_unnamed_opened, Brancher.Branching.stage, brought, hjustified.2.2]
      rfl

/-- Once a report came in, those nodes are open which the last threshold spares, of the nodes that
were open before and of those that the report brings. -/
theorem Abreast.unnamed_apply (h : s.Abreast) (hs : s.brancher.frontier.Consistent)
    (hdiameter : s.brancher.rule ≠ .pseudocost) (happly : s.apply r = (.ok stage, t)) :
    t.unnamed = (s.brought r stage + s.unnamed).filter t.brancher.frontier.Spares := by
  obtain ⟨-, hsettle⟩ := apply_ok happly
  have hconsistent := (s.keeps_record hs r).consistent
  -- acting on the report does not move the threshold any more
  have hlimits := (refills_settle hconsistent r).limits
  rw [hsettle] at hlimits
  have hrecorded : (s.record r).2.unnamed
      = s.unnamed.filter (s.record r).2.brancher.frontier.Spares := by
    rw [unnamed, (h.record hs r).2, filter_map_unnamed, unnamed]
  rw [unnamed_settle hconsistent hsettle, hrecorded, (s.alike_record r).brought hdiameter,
    ← Multiset.filter_add]
  exact (Multiset.filter_congr fun _ _ => hlimits.spares_iff).symm

end Opened

/-! ## Two reports -/

section Orders

variable [Scalar.Congruent α] {a b : Report α} {stageA stageB : Stage} {m : Node α} {y : α}

omit [Scalar.Congruent α] in
/-- Operations lead to other states of the search. -/
theorem Reachable.performAll (h : Reachable s) (ops : List (Op α)) :
    Reachable (s.performAll ops) := by
  induction ops generalizing s with
  | nil => exact h
  | cons op rest ih => exact ih (h.perform op)

omit [Scalar.Congruent α] in
/-- Taking in a report leads to another state of the search. -/
theorem Reachable.apply (h : Reachable s) (happly : s.apply r = (.ok stage, t)) : Reachable t := by
  have ht := h.perform (.apply r)
  rwa [Search.perform, happly] at ht

/-- A node is spared if its score does not reach the threshold of the cutoff. -/
theorem InStep.spares_iff (h : s.InStep) :
    s.brancher.frontier.Spares m ↔ ¬ s.cutoff.threshold ≤ m.score := by
  rw [Frontier.Spares, ← h.dominates, Cutoff.dominates, decide_eq_false_iff_not]

/-- A better incumbent spares fewer nodes, as long as thresholds fall with the incumbent. -/
theorem Abreast.spares_of_le (hs : s.Abreast) (ht : t.Abreast) (hsettings : t.settings = s.settings)
    (hdescends : ∀ limit, s.settings.DescendsPast limit)
    (hle : t.incumbent.value ≤ s.incumbent.value) (hspares : t.brancher.frontier.Spares m) :
    s.brancher.frontier.Spares m := by
  have hdef := Scalar.Ordered.isNaN_right_of_le ht.same_threshold.1
  have hfalls : t.cutoff.threshold ≤ s.cutoff.threshold := by
    have hdescends := hdescends t.cutoff.threshold hle
    rw [← hsettings] at hdescends
    have hthreshold := hdescends (Scalar.Ordered.le_refl hdef)
    rwa [hsettings] at hthreshold
  rw [ht.spares_iff] at hspares
  rw [hs.spares_iff]
  exact fun hdominated => hspares (Scalar.Ordered.le_trans hfalls hdominated)

/-- Once two reports came in, those nodes are open which the last threshold spares, of the nodes
that were open before and of those that the reports bring to the search as it was before. -/
theorem Reachable.unnamed_apply_apply (h : Reachable s) (hdiameter : s.brancher.rule ≠ .pseudocost)
    (hdescends : ∀ limit, s.settings.DescendsPast limit) (ha : s.apply a = (.ok stageA, t))
    (hb : t.apply b = (.ok stageB, u)) :
    u.unnamed = (s.brought a stageA + s.brought b stageB + s.unnamed).filter
      u.brancher.frontier.Spares := by
  have ht := h.apply ha
  have hu := ht.apply hb
  have hst := alike_apply ha
  have htu := alike_apply hb
  have hincumbent := t.incumbent_apply b
  rw [hb] at hincumbent
  -- the nodes that the first threshold does not spare are not spared by the second one either
  have hspares : ∀ m, u.brancher.frontier.Spares m → t.brancher.frontier.Spares m := fun m hm =>
    ht.abreast.spares_of_le hu.abreast htu.settings (hst.settings ▸ hdescends) (by
      rw [hincumbent]
      exact adopt_le b (Scalar.Ordered.le_refl ht.abreast.defined)) hm
  rw [ht.abreast.unnamed_apply ht.consistent (hst.rule ▸ hdiameter) hb,
    h.abreast.unnamed_apply h.consistent hdiameter ha, hst.brought hdiameter, Multiset.filter_add,
    Multiset.filter_filter, Multiset.filter_congr fun m _ => and_iff_left_of_imp (hspares m),
    ← Multiset.filter_add, ← Multiset.add_assoc, Multiset.add_comm (s.brought b stageB)]

/-- Two reports leave the better of the points that they bring and of the one that was known. -/
theorem Reachable.incumbent_apply_apply (h : Reachable s) (ha : s.apply a = (.ok stageA, t))
    (hb : t.apply b = (.ok stageB, u)) : u.incumbent.value ≤ y ↔ s.incumbent.value ≤ y
      ∨ (∃ c ∈ a.candidate, c.value ≤ y) ∨ ∃ c ∈ b.candidate, c.value ≤ y := by
  have hfirst := s.incumbent_apply a
  have hsecond := t.incumbent_apply b
  rw [ha] at hfirst
  rw [hb] at hsecond
  rw [hsecond, adopt_le_iff (h.apply ha).abreast.defined, hfirst, adopt_le_iff h.abreast.defined,
    or_assoc]

/-- They leave the scores that each of them leaves. -/
theorem Reachable.bound_apply_apply (h : Reachable s) (ha : s.apply a = (.ok stageA, t))
    (hb : t.apply b = (.ok stageB, u)) : u.provenBound none ≤ y ↔ s.provenBound none ≤ y
      ∨ (∃ x ∈ a.left stageA, x ≤ y) ∨ ∃ x ∈ b.left stageB, x ≤ y := by
  rw [leaves_apply (h.apply ha).consistent hb y, leaves_apply h.consistent ha y, or_assoc]

end Orders

end Search

/-! ## Exact arithmetic -/

variable {K : Type} [Field K] [LinearOrder K] [FloorRing K]

/-- Exact numbers that are at most the same numbers are equal. -/
theorem Extended.eq_of_le_iff {x y : Extended K} (h : ∀ z, x ≤ z ↔ y ≤ z) : x = y := by
  cases hx : Scalar.isNaN x with
  | false =>
    have hyx := (h x).mp (Scalar.Ordered.le_refl hx)
    have hy := Scalar.Ordered.isNaN_left_of_le hyx
    exact Extended.eq_of_same ⟨(h y).mpr (Scalar.Ordered.le_refl hy), hyx⟩
  | true =>
    cases hy : Scalar.isNaN y with
    | false =>
      have hxy := Scalar.Ordered.isNaN_left_of_le ((h y).mpr (Scalar.Ordered.le_refl hy))
      rw [hx] at hxy
      cases hxy
    | true =>
      -- there is one undefined value only
      cases x with
      | undefined =>
        cases y with
        | undefined => rfl
        | _ => cases hy
      | _ => cases hx

namespace Search

variable [IsStrictOrderedRing K] {s t t' : Search (Extended K)} {a b : Report (Extended K)}
  {stageA stageB : Stage}

/-- Two reports on different nodes may come in in either order: whatever state a search is in, under
a rule by diameter and with a relative tolerance of at most one, both orders end the nodes in the
same stages and lead to the same incumbent value, the same open nodes apart from their ids, and the
same bound, whichever other nodes are out. -/
theorem apply_comm (h : Reachable s) (hdiameter : s.brancher.rule ≠ .pseudocost)
    (hone : s.settings.relTolerance ≤ 1) (hne : a.node.id ≠ b.node.id)
    (ha : s.apply a = (.ok stageA, t)) (hb : s.apply b = (.ok stageB, t')) :
    ∃ u u', t.apply b = (.ok stageB, u) ∧ t'.apply a = (.ok stageA, u')
      ∧ u.incumbent.value = u'.incumbent.value
      ∧ u.brancher.frontier.nodes.map Node.unnamed = u'.brancher.frontier.nodes.map Node.unnamed
      ∧ ∀ outLowest, u.provenBound outLowest = u'.provenBound outLowest := by
  have hanswerB := (alikeAt_apply h.consistent ha hne.symm).answer_apply h.consistent
    (h.apply ha).consistent hdiameter
  have hanswerA := (alikeAt_apply h.consistent hb hne).answer_apply h.consistent
    (h.apply hb).consistent hdiameter
  rw [hb] at hanswerB
  rw [ha] at hanswerA
  obtain ⟨u, hab⟩ : ∃ u, t.apply b = (.ok stageB, u) :=
    ⟨(t.apply b).2, Prod.ext hanswerB rfl⟩
  obtain ⟨u', hba⟩ : ∃ u', t'.apply a = (.ok stageA, u') :=
    ⟨(t'.apply a).2, Prod.ext hanswerA rfl⟩
  have hdescends := Extended.descendsPast_of_le_one h.abreast.valid hone
  have hincumbent : u.incumbent.value = u'.incumbent.value := Extended.eq_of_le_iff fun y => by
    rw [h.incumbent_apply_apply ha hab, h.incumbent_apply_apply hb hba]
    exact or_congr_right or_comm
  have hbound : ∀ y, u.provenBound none ≤ y ↔ u'.provenBound none ≤ y := fun y => by
    rw [h.bound_apply_apply ha hab, h.bound_apply_apply hb hba]
    exact or_congr_right or_comm
  refine ⟨u, u', hab, hba, hincumbent, ?_, fun outLowest => Extended.eq_of_le_iff fun y => ?_⟩
  · -- both last thresholds belong to the same incumbent value
    have hu := (h.apply ha).apply hab
    have hu' := (h.apply hb).apply hba
    have hsettings : u'.settings = u.settings :=
      ((alike_apply ha).trans (alike_apply hab)).symm.trans
        ((alike_apply hb).trans (alike_apply hba)) |>.settings
    have hspares : ∀ m, u.brancher.frontier.Spares m ↔ u'.brancher.frontier.Spares m := fun m => by
      rw [hu.abreast.spares_iff, hu'.abreast.spares_iff, cutoff, cutoff, hincumbent, hsettings]
    show u.unnamed = u'.unnamed
    rw [h.unnamed_apply_apply hdiameter hdescends ha hab,
      h.unnamed_apply_apply hdiameter hdescends hb hba, Multiset.filter_congr fun m _ => hspares m,
      Multiset.add_comm (s.brought a stageA)]
  · cases outLowest with
    | none => exact hbound y
    | some score => rw [provenBound_some_le_iff, provenBound_some_le_iff, hbound y]

/-- The report on the first part of the root: it has to be branched and scores one and a half. -/
def sampleLeft : Report (Extended ℚ) :=
  { sampleReport with
    node := { Node.root Async.sampleVars with box := ⟨[0], [1]⟩, score := .point (3 / 2), id := 1 }
    candidate := none }

/-- The report on the second part, which is a single point: it comes with a point of value one,
below the score of the first part. -/
def sampleRight : Report (Extended ℚ) :=
  { sampleReport with
    node := { Node.root Async.sampleVars with box := ⟨[.point 2], [.point 2]⟩, score := 0, id := 2 }
    candidate := some ⟨1, [1]⟩ }

/-- The root is split, and both parts go out. -/
def sampleParts : List (Op (Extended ℚ)) := [.next, .apply sampleReport, .next, .next]

/-- Either report is accepted while both parts are out. -/
theorem exists_sampleParts : ∃ start ∈ (Search.new Async.sampleVars
      { Settings.standard with rule := .absoluteDiameter }).toOption,
    (start.performAll sampleParts).brancher.rule = .absoluteDiameter
      ∧ (start.performAll sampleParts).settings.relTolerance ≤ 1
      ∧ (∃ stage ∈ ((start.performAll sampleParts).apply sampleLeft).1.toOption, stage = .branched)
      ∧ ∃ stage ∈ ((start.performAll sampleParts).apply sampleRight).1.toOption,
          stage = .fixed := by
  decide +kernel

/-- Whether the first part is split before the better point fathoms its parts, or they are refused
because the point came in first, the search is the same. -/
theorem apply_comm_sampleParts : ∃ s t t' u u' : Search (Extended ℚ),
    s.apply sampleLeft = (.ok .branched, t) ∧ s.apply sampleRight = (.ok .fixed, t')
      ∧ t.apply sampleRight = (.ok .fixed, u) ∧ t'.apply sampleLeft = (.ok .branched, u')
      ∧ u.brancher.frontier.nodes.map Node.unnamed = u'.brancher.frontier.nodes.map Node.unnamed
      ∧ u.provenBound none = u'.provenBound none := by
  obtain ⟨start, hstart, hparts⟩ := exists_eq_ok exists_sampleParts
  have hs := (Reachable.new hstart).performAll sampleParts
  generalize start.performAll sampleParts = s at hparts hs
  obtain ⟨hrule, hone, hleft, hright⟩ := hparts
  obtain ⟨_, hleft, rfl⟩ := exists_eq_ok hleft
  obtain ⟨_, hright, rfl⟩ := exists_eq_ok hright
  have ha : s.apply sampleLeft = (.ok .branched, (s.apply sampleLeft).2) := Prod.ext hleft rfl
  have hb : s.apply sampleRight = (.ok .fixed, (s.apply sampleRight).2) := Prod.ext hright rfl
  obtain ⟨u, u', hab, hba, -, hnodes, hbound⟩ :=
    apply_comm hs (by rw [hrule]; decide) hone (by decide) ha hb
  exact ⟨s, _, _, u, u', ha, hb, hab, hba, hnodes, hbound none⟩

end Search

end BranchBound
