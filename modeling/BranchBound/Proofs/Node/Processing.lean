import BranchBound.Proofs.Frontier.Nodes
import BranchBound.Proofs.Node.Exits

/-! # Processing loses no point

Solvers are sound for a problem (`Solvers.Sound`) if they rule out only points that do not beat the
incumbent they are told of. If they are, then the report on a node accounts for every feasible point
in it (`Report.Accounts`): the point does not beat the incumbent or the point that was found, or the
score of the report is still a bound on it and the node is not settled for good.

* **`Report.Ends`** — how a report ends the processing.
* **`Solvers.Sound`** — what solvers promise.
* **`processNode_spec`** — what a report therefore says; there is one such theorem for each part of
  the processing. -/

namespace BranchBound

variable {σ α : Type}

/-! ## How processing ends -/

section Ends

variable [Scalar α] {solvers : Solvers σ α} {n : Node α} {r s : Report α} {answer : LowerAnswer α}
  {cutoff : Cutoff α} {memory after : σ}

/-- The ways in which processing ends. -/
inductive Report.Ends (r : Report α) : Prop
  /-- The node has to be branched. -/
  | opened (h : r.stage = .postprocessed)
  /-- The node needs no further work. -/
  | settled (reason : Reason) (h : r.stage = .fathomed reason)
      (hreason : reason = .infeasible ∨ reason = .tighteningInfeasible ∨ reason = .converged)
  /-- The node is dominated, and then its score is defined. -/
  | dominated (h : r.stage = .fathomed .valueDominated) (hscore : Scalar.isNaN r.node.score = false)

/-- The last part of processing ends in one of these ways. -/
theorem finishNode_ends (h : (finishNode solvers r answer cutoff).Returns memory s after) :
    s.Ends := by
  cases finishNode_exit h with
  | emptied => exact .settled .tighteningInfeasible rfl (.inr (.inl rfl))
  | solved => exact .settled .converged rfl (.inr (.inr rfl))
  | opened => exact .opened rfl

variable [Scalar.Ordered α]

/-- The middle part of processing ends in one of these ways. -/
theorem searchNode_ends (h : (searchNode solvers r answer cutoff).Returns memory s after) :
    s.Ends := by
  cases searchNode_exit h with
  | solved => exact .settled .converged rfl (.inr (.inr rfl))
  | dominated _ _ hdominated =>
    exact .dominated rfl (Scalar.Ordered.isNaN_right_of_le (of_decide_eq_true hdominated))
  | passed _ _ _ hrest => exact finishNode_ends hrest

/-- The second part of processing ends in one of these ways. -/
theorem boundNode_ends (h : (boundNode solvers r cutoff).Returns memory s after) : s.Ends := by
  cases boundNode_exit h with
  | infeasible => exact .settled .infeasible rfl (.inl rfl)
  | dominated _ _ _ _ hdominated =>
    exact .dominated rfl (Scalar.Ordered.isNaN_right_of_le (of_decide_eq_true hdominated))
  | passed _ _ _ _ hrest => exact searchNode_ends hrest

/-- The first part of processing ends in one of these ways. -/
theorem tightenNode_ends (h : (tightenNode solvers n cutoff).Returns memory s after) : s.Ends := by
  cases tightenNode_exit h with
  | emptied => exact .settled .tighteningInfeasible rfl (.inr (.inl rfl))
  | passed _ _ hrest => exact boundNode_ends hrest

/-- Processing ends in one of these ways. -/
theorem processNode_ends (h : (processNode solvers n cutoff).Returns memory s after) : s.Ends := by
  obtain ⟨r, busy, htighten, rfl⟩ := processNode_exit h
  cases tightenNode_ends htighten with
  | opened h => exact .opened h
  | settled reason h hreason => exact .settled reason h hreason
  | dominated h hscore => exact .dominated h hscore

end Ends

/-! ## Sound solvers -/

variable [Scalar α]

/-- The answer has a point of a value that is at most `y`. -/
structure UpperAnswer.Finds (answer : UpperAnswer α) (y : α) : Prop where
  /-- The answer brings a point. -/
  improves : answer.improves = true
  /-- The point is there. -/
  point : answer.point.isEmpty = false
  /-- The point is good enough. -/
  le : answer.value ≤ y

/-- A node was tightened, and points of the problem were lost only if they do not beat the
incumbent. -/
structure Problem.Tightens (p : Problem α) (incumbent : α) (n : Node α) (settled : Bool)
    (tight : Node α) : Prop where
  /-- The id is kept. -/
  id : tight.id = n.id
  /-- The depth is kept. -/
  depth : tight.depth = n.depth
  /-- The score is kept. -/
  score : tight.score = n.score
  /-- The box does not grow. -/
  within : tight.box.Within n.box
  /-- Points that beat the incumbent stay, and then the node is not settled. -/
  keeps : ∀ x ∈ p.points, n.box.Contains x → p.value x < incumbent →
    settled = false ∧ tight.box.Contains x

/-- The solvers rule out only points that do not beat the incumbent they are told of. -/
structure Solvers.Sound (solvers : Solvers σ α) (p : Problem α) : Prop where
  /-- The first tightening. -/
  preprocess : ∀ {n v memory infeasible tight after},
    (solvers.preprocess n v).Returns memory (infeasible, tight) after →
      p.Tightens v n infeasible tight
  /-- The second tightening. -/
  postprocess : ∀ {n point duals v memory solved tight after},
    (solvers.postprocess n point duals v).Returns memory (solved, tight) after →
      p.Tightens v n solved tight
  /-- A node that holds a point that beats the incumbent is not infeasible, and its bound is one for
  this point. -/
  lower : ∀ {n v memory answer after}, (solvers.lower n v).Returns memory answer after →
    ∀ x ∈ p.points, n.box.Contains x → p.value x < v →
      answer.infeasible = false ∧ answer.bound ≤ p.value x
  /-- If the bound of a node is attained, the search that follows finds a point that good. -/
  lower_converged : ∀ {n v memory answer mid}, (solvers.lower n v).Returns memory answer mid →
    answer.infeasible = false → answer.converged = true →
      ∀ {seed found after},
        (solvers.upper { n with score := Scalar.greatest n.score answer.bound } seed v).Returns mid
          found after →
        ∀ x ∈ p.points, n.box.Contains x → p.value x < v → found.Finds (p.value x)
  /-- A search that says it found the best point of a node did so. -/
  upper_converged : ∀ {n seed v memory found after},
    (solvers.upper n seed v).Returns memory found after → found.converged = true →
      ∀ x ∈ p.points, n.box.Contains x → p.value x < v → found.Finds (p.value x)
  /-- The search on a single point finds it. -/
  upper_point : ∀ {n seed v memory found after},
    (solvers.upper n seed v).Returns memory found after → n.box.isPoint = true →
      ∀ x ∈ p.points, n.box.Contains x → p.value x < v → found.Finds (p.value x)

/-! ## What a report says of a point -/

/-- What is left of a point of value `y` in a node once the node was processed against an
incumbent. -/
inductive Report.Accounts (r : Report α) (incumbent : α) (n : Node α) (x : List α) (y : α) : Prop
  /-- The point does not beat the incumbent. -/
  | beaten (h : incumbent ≤ y)
  /-- The point does not beat the one that was found. -/
  | found (c : Candidate α) (h : r.candidate = some c) (hle : c.value ≤ y)
  /-- The node was dominated, and its score is a bound on the point. -/
  | dominated (h : r.stage = .fathomed .valueDominated) (hscore : r.node.score ≤ y)
  /-- The node has to be branched, and the point is in it. -/
  | left (h : r.stage = .postprocessed) (hpoint : n.box.isPoint = false)
      (hbox : r.node.box.Contains x) (hscore : r.node.score ≤ y) (hbound : r.lowerBound ≤ y)

/-- A node covers a part of another one, whose name it has kept. -/
structure Node.PartOf (m n : Node α) : Prop where
  /-- The id is kept. -/
  id : m.id = n.id
  /-- The depth is kept. -/
  depth : m.depth = n.depth
  /-- The box does not grow. -/
  within : m.box.Within n.box

/-- A part of a part is a part. -/
theorem Node.PartOf.trans {l m n : Node α} (h : l.PartOf m) (k : m.PartOf n) : l.PartOf n :=
  ⟨h.id.trans k.id, h.depth.trans k.depth, h.within.trans k.within⟩

/-- Fathoming keeps what the node of a report is a part of. -/
theorem Node.PartOf.fathom {r : Report α} {n : Node α} (h : r.node.PartOf n) (reason : Reason) :
    (r.fathom reason).node.PartOf n := by
  cases reason <;> exact ⟨h.id, h.depth, h.within⟩

/-- A tightened node is a part of the node. -/
theorem Problem.Tightens.partOf {p : Problem α} {v : α} {n tight : Node α} {settled : Bool}
    (h : p.Tightens v n settled tight) : tight.PartOf n :=
  ⟨h.id, h.depth, h.within⟩

section Sound

variable [Scalar.Ordered α] {p : Problem α} {solvers : Solvers σ α} {n : Node α} {r s : Report α}
  {answer : LowerAnswer α} {cutoff : Cutoff α} {memory after : σ} {x : List α}

/-- What a tightening leaves of a point: it does not beat the incumbent, or it is in the tightened
node, which is then neither settled nor empty. -/
theorem Problem.Tightens.cases {tight : Node α} {settled : Bool} {v : α}
    (h : p.Tightens v n settled tight) (hv : Scalar.isNaN v = false) (hx : x ∈ p.points)
    (hbox : n.box.Contains x) :
    v ≤ p.value x
      ∨ settled = false ∧ tight.box.isEmpty = false ∧ tight.box.Contains x := by
  by_cases hlt : p.value x < v
  · obtain ⟨hsettled, htight⟩ := h.keeps x hx hbox hlt
    exact .inr ⟨hsettled, htight.isEmpty_eq_false, htight⟩
  · exact .inl (Scalar.le_of_not_lt (p.defined x hx) hv hlt)

/-- The last part of processing tightens the node and keeps what the report says of it otherwise. A
point of the node that beats the incumbent is in the tightened node, which has to be branched. -/
theorem finishNode_spec (hs : solvers.Sound p) (hv : Scalar.isNaN cutoff.incumbent = false)
    (h : (finishNode solvers r answer cutoff).Returns memory s after) :
    s.node.PartOf r.node ∧ s.candidate = r.candidate ∧
      ∀ x ∈ p.points, r.node.box.Contains x → cutoff.incumbent ≤ p.value x ∨
        s.stage = .postprocessed ∧ s.node.box.Contains x ∧ s.node.score = r.node.score
          ∧ s.lowerBound = r.lowerBound := by
  -- in each exit the same lemma on the postprocessed node is read at another branch
  cases finishNode_exit h with
  | emptied hcall hempty =>
    have ht := hs.postprocess hcall
    refine ⟨ht.partOf.fathom _, rfl, fun x hx hbox => ?_⟩
    rcases ht.cases hv hx hbox with hle | ⟨-, hfull, -⟩
    · exact .inl hle
    · rw [hempty] at hfull
      cases hfull
  | solved hcall =>
    have ht := hs.postprocess hcall
    refine ⟨ht.partOf.fathom _, rfl, fun x hx hbox => ?_⟩
    rcases ht.cases hv hx hbox with hle | ⟨hopen, -⟩
    · exact .inl hle
    · cases hopen
  | opened hcall =>
    have ht := hs.postprocess hcall
    refine ⟨ht.partOf, rfl, fun x hx hbox => ?_⟩
    rcases ht.cases hv hx hbox with hle | ⟨-, -, htight⟩
    · exact .inl hle
    · exact .inr ⟨rfl, htight, ht.score, rfl⟩

omit [Scalar.Ordered α] in
/-- A point is kept as the better one if it was found and beats the incumbent. -/
theorem Report.candidate?_of_finds [Scalar.Ordered α] {found : UpperAnswer α} {y : α}
    (h : found.Finds y) (hlt : y < cutoff.incumbent) :
    ∃ c, Report.candidate? cutoff found = some c ∧ c.value ≤ y := by
  have hbetter : found.value < cutoff.incumbent := Scalar.lt_of_le_of_lt h.le hlt
  refine ⟨⟨found.value, found.point⟩, ?_, h.le⟩
  rw [Report.candidate?, if_pos]
  rw [h.improves, h.point, Cutoff.tighten, if_pos hbetter]
  rfl

/-- The incumbent after a search is the one before or the value of the point that was found. -/
theorem Report.tightened_incumbent (hv : Scalar.isNaN cutoff.incumbent = false)
    (candidate : Option (Candidate α)) :
    Scalar.isNaN (Report.tightened cutoff candidate).incumbent = false ∧
      ((Report.tightened cutoff candidate).incumbent = cutoff.incumbent ∨
        ∃ c, candidate = some c ∧ (Report.tightened cutoff candidate).incumbent = c.value) := by
  cases candidate with
  | none => exact ⟨hv, .inl rfl⟩
  | some c =>
    simp only [Report.tightened, Cutoff.tighten]
    split
    · next hlt => exact ⟨Scalar.Ordered.isNaN_left_of_le (Scalar.le_of_lt hlt), .inr ⟨c, rfl, rfl⟩⟩
    · exact ⟨hv, .inl rfl⟩

/-- The middle part of processing is about the node, and the report accounts for the points of the
node for which score and bound are valid; if the bound is attained, the search must have found a
point that good. -/
theorem searchNode_spec (hs : solvers.Sound p) (hv : Scalar.isNaN cutoff.incumbent = false)
    (h : (searchNode solvers r answer cutoff).Returns memory s after) :
    s.node.PartOf r.node ∧ ∀ x ∈ p.points, r.node.box.Contains x → r.node.score ≤ p.value x →
      r.lowerBound ≤ p.value x →
      (answer.converged = true → p.value x < cutoff.incumbent → ∀ {found mid},
        (solvers.upper r.node r.seed cutoff.incumbent).Returns memory found mid →
          found.Finds (p.value x)) →
      s.Accounts cutoff.incumbent r.node x (p.value x) := by
  -- whatever the report says otherwise, it accounts for what the search found
  have hfound : ∀ {t : Report α} {found : UpperAnswer α} {x}, x ∈ p.points →
      t.candidate = Report.candidate? cutoff found →
      (p.value x < cutoff.incumbent → found.Finds (p.value x)) →
      t.Accounts cutoff.incumbent r.node x (p.value x) := by
    intro t found x hx ht hfinds
    by_cases hlt : p.value x < cutoff.incumbent
    · obtain ⟨c, hc, hle⟩ := Report.candidate?_of_finds (hfinds hlt) hlt
      exact .found c (ht.trans hc) hle
    · exact .beaten (Scalar.le_of_not_lt (p.defined x hx) hv hlt)
  cases searchNode_exit h with
  | solved hupper hsolved =>
    refine ⟨⟨rfl, rfl, .refl _⟩, fun x hx hbox _ _ hattained => hfound hx rfl fun hlt => ?_⟩
    rcases hsolved with hlower | hsearch
    · exact hattained hlower hlt hupper
    · exact hs.upper_converged hupper hsearch x hx hbox hlt
  | dominated =>
    exact ⟨⟨rfl, rfl, .refl _⟩, fun x _ _ hscore _ _ => .dominated rfl hscore⟩
  | @passed found _ _ hupper _ _ hrest =>
    obtain ⟨hv', hvalue⟩ := Report.tightened_incumbent hv (Report.candidate? cutoff found)
    obtain ⟨hpart, hcandidate, hleft⟩ := finishNode_spec hs hv' hrest
    refine ⟨hpart, fun x hx hbox hscore hbound _ => ?_⟩
    rcases hleft x hx hbox with hle | ⟨hstage, htight, hsame, hlower⟩
    · rcases hvalue with heq | ⟨c, hc, heq⟩
      · exact .beaten (heq ▸ hle)
      · exact .found c (hcandidate.trans hc) (heq ▸ hle)
    · cases hpoint : r.node.box.isPoint with
      | true => exact hfound hx hcandidate (hs.upper_point hupper hpoint x hx hbox)
      | false => exact .left hstage hpoint htight (hsame ▸ hscore) (hlower ▸ hbound)

/-- What a report accounts for in a part of a node, it accounts for in the node. -/
theorem Report.Accounts.of_within {m n : Node α} {v y : α} (h : r.Accounts v m x y)
    (hwithin : m.box.Within n.box) (hx : m.box.Contains x) : r.Accounts v n x y := by
  cases h with
  | beaten h => exact .beaten h
  | found c h hle => exact .found c h hle
  | dominated h hscore => exact .dominated h hscore
  | left h hpoint hbox hscore hbound =>
    refine .left h ?_ hbox hscore hbound
    by_contra hn
    rw [Bool.not_eq_false] at hn
    rw [hx.isPoint_of_within hwithin hn] at hpoint
    cases hpoint

/-- The second part of processing is about the node, and the report accounts for the points of the
node for which the score is valid. -/
theorem boundNode_spec (hs : solvers.Sound p) (hv : Scalar.isNaN cutoff.incumbent = false)
    (h : (boundNode solvers r cutoff).Returns memory s after) :
    s.node.PartOf r.node ∧ ∀ x ∈ p.points, r.node.box.Contains x → r.node.score ≤ p.value x →
      s.Accounts cutoff.incumbent r.node x (p.value x) := by
  -- a point that does not beat the incumbent is accounted for anyway
  have hbound : ∀ {answer : LowerAnswer α} {mid} {t : Report α} {x},
      (solvers.lower r.node cutoff.incumbent).Returns memory answer mid → x ∈ p.points →
      r.node.box.Contains x →
      (answer.infeasible = false → answer.bound ≤ p.value x →
        t.Accounts cutoff.incumbent r.node x (p.value x)) →
      t.Accounts cutoff.incumbent r.node x (p.value x) := by
    intro answer mid t x hlower hx hbox hvalid
    by_cases hlt : p.value x < cutoff.incumbent
    · obtain ⟨hfeasible, hle⟩ := hs.lower hlower x hx hbox hlt
      exact hvalid hfeasible hle
    · exact .beaten (Scalar.le_of_not_lt (p.defined x hx) hv hlt)
  cases boundNode_exit h with
  | infeasible hlower hinfeasible =>
    refine ⟨⟨rfl, rfl, .refl _⟩, fun x hx hbox _ => hbound hlower hx hbox fun hfeasible => ?_⟩
    cases hinfeasible.symm.trans hfeasible
  | dominated hlower =>
    refine ⟨⟨rfl, rfl, .refl _⟩, fun x hx hbox hscore => hbound hlower hx hbox fun _ hle => ?_⟩
    exact .dominated rfl (Scalar.greatest_le hscore hle)
  | passed hlower hfeasible _ _ hrest =>
    obtain ⟨hpart, haccounts⟩ := searchNode_spec hs hv hrest
    refine ⟨hpart.trans ⟨rfl, rfl, .refl _⟩, fun x hx hbox hscore => ?_⟩
    refine hbound hlower hx hbox fun _ hle => ?_
    refine (haccounts x hx hbox (Scalar.greatest_le hscore hle) hle ?_).of_within (.refl _) hbox
    intro hconverged hlt found last hupper
    exact hs.lower_converged hlower hfeasible hconverged hupper x hx hbox hlt

/-- The first part of processing is about the node, and so are the parts that follow; the report
accounts for the points of the node for which the score is valid. -/
theorem tightenNode_spec (hs : solvers.Sound p) (hv : Scalar.isNaN cutoff.incumbent = false)
    (h : (tightenNode solvers n cutoff).Returns memory s after) :
    s.node.PartOf n ∧ ∀ x ∈ p.points, n.box.Contains x → n.score ≤ p.value x →
      s.Accounts cutoff.incumbent n x (p.value x) := by
  -- no point is left in a node that is emptied, unless it is no better than the incumbent
  cases tightenNode_exit h with
  | emptied hcall hempty =>
    have ht := hs.preprocess hcall
    refine ⟨⟨ht.id, ht.depth, ht.within⟩, fun x hx hbox _ => ?_⟩
    rcases ht.cases hv hx hbox with hle | ⟨hopen, hfull, -⟩
    · exact .beaten hle
    · rcases hempty with hruled | hempty
      · cases hruled.symm.trans hopen
      · cases hempty.symm.trans hfull
  | passed hcall _ hrest =>
    have ht := hs.preprocess hcall
    obtain ⟨hpart, haccounts⟩ := boundNode_spec hs hv hrest
    refine ⟨hpart.trans ht.partOf, fun x hx hbox hscore => ?_⟩
    rcases ht.cases hv hx hbox with hle | ⟨-, -, htight⟩
    · exact .beaten hle
    · exact (haccounts x hx htight (ht.score.symm ▸ hscore)).of_within ht.within htight

/-- Processing is about the node, and the report accounts for the points of the node for which the
score is valid. -/
theorem processNode_spec (hs : solvers.Sound p) (hv : Scalar.isNaN cutoff.incumbent = false)
    (h : (processNode solvers n cutoff).Returns memory s after) :
    s.node.PartOf n ∧ ∀ x ∈ p.points, n.box.Contains x → n.score ≤ p.value x →
      s.Accounts cutoff.incumbent n x (p.value x) := by
  obtain ⟨r, busy, htighten, rfl⟩ := processNode_exit h
  obtain ⟨hpart, haccounts⟩ := tightenNode_spec hs hv htighten
  refine ⟨hpart, fun x hx hbox hscore => ?_⟩
  -- the time on the report does not matter
  cases haccounts x hx hbox hscore with
  | beaten h => exact .beaten h
  | found c h hle => exact .found c h hle
  | dominated h hscore => exact .dominated h hscore
  | left h hpoint hbox hscore hbound => exact .left h hpoint hbox hscore hbound

end Sound

end BranchBound
