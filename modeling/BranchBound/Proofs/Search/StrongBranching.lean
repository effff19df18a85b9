import BranchBound.Proofs.Brancher.Children
import BranchBound.Proofs.Search.Bounds
import BranchBound.Search.Progress

/-! # Strong branching

A node that is branched strongly is split in every dimension, all the children are processed, and
one pair of children is kept.

* **`Serial.keep_ok`**, **`Serial.evaluate_cons_ok`**, **`Serial.keepBest_cases`**,
  **`Serial.strongBranch_ok`**, **`Serial.conclude_ok`** — what the parts of a round that succeeds
  do to the search.
* **`Search.Kept`** — what becomes of a child that is kept.
* **`Serial.StronglyBranched`** — the outcomes of strong branching.
* **`Serial.strongBranch_spec`** — there are no others: the two children that are kept hold every
  point of the node, unless a single point is left once the bounds were moved to whole numbers. -/

namespace BranchBound

variable {σ α : Type} [Scalar α]

/-! ## Pairs of reports -/

omit [Scalar α] in
/-- What comes of pairs written one after the other comes in pairs again. -/
theorem pairs_of_forall₂ {β γ : Type} {R : β → γ → Prop} {ps : List (β × β)} {ys : List γ}
    (h : List.Forall₂ R (ps.flatMap fun p => [p.1, p.2]) ys) :
    (pairs ys = [] ↔ ps = []) ∧ ∀ q ∈ pairs ys, ∃ p ∈ ps, R p.1 q.1 ∧ R p.2 q.2 := by
  induction ps generalizing ys with
  | nil =>
    cases h
    exact ⟨⟨fun _ => rfl, fun _ => rfl⟩, fun q hq => absurd hq List.not_mem_nil⟩
  | cons p rest ih =>
    cases h with
    | cons hfirst h =>
      cases h with
      | cons hsecond h =>
        refine ⟨iff_of_false (List.cons_ne_nil _ _) (List.cons_ne_nil _ _), fun q hq => ?_⟩
        rcases List.mem_cons.mp hq with rfl | hq
        · exact ⟨p, List.mem_cons_self, hfirst, hsecond⟩
        · obtain ⟨k, hk, hrest⟩ := (ih h).2 q hq
          exact ⟨k, List.mem_cons_of_mem _ hk, hrest⟩

omit [Scalar α] in
/-- A choice that goes through a list and keeps one of two at a time ends with an entry of the
list. -/
theorem exists_foldl_eq_some {β : Type} {choose : Option β → β → Option β}
    (hfirst : ∀ x, choose none x = some x)
    (hnext : ∀ b x, choose (some b) x = some b ∨ choose (some b) x = some x) {xs : List β}
    (hxs : xs ≠ []) : ∃ b ∈ xs, xs.foldl choose none = some b := by
  -- once an entry is kept, some entry is kept to the end
  have hfold : ∀ (xs : List β) (b : β), ∃ c ∈ b :: xs, xs.foldl choose (some b) = some c := by
    intro xs
    induction xs with
    | nil => exact fun b => ⟨b, List.mem_cons_self, rfl⟩
    | cons y rest ih =>
      intro b
      rw [List.foldl_cons]
      rcases hnext b y with heq | heq <;> rw [heq]
      · obtain ⟨c, hc, hfold⟩ := ih b
        refine ⟨c, ?_, hfold⟩
        rcases List.mem_cons.mp hc with rfl | hc
        · exact List.mem_cons_self
        · exact List.mem_cons_of_mem _ (List.mem_cons_of_mem _ hc)
      · obtain ⟨c, hc, hfold⟩ := ih y
        exact ⟨c, List.mem_cons_of_mem _ hc, hfold⟩
  obtain ⟨x, rest, rfl⟩ := List.exists_cons_of_ne_nil hxs
  rw [List.foldl_cons, hfirst]
  exact hfold rest x

namespace Serial

/-- The choice between the best pair so far and the next one, each with its score. -/
def better {β : Type} (best : Option (β × α)) (found : β × α) : Option (β × α) :=
  best.elim (some found) fun b => if b.2 < found.2 then some found else some b

/-- The best pair is chosen by going through the pairs with their scores. -/
theorem bestPair_eq_foldl (threshold parentScore : α) (children : List (Report α × Report α)) :
    bestPair threshold parentScore children =
      ((children.map fun p => (p, productScore (gain threshold parentScore p.2)
        (gain threshold parentScore p.1))).foldl better none).map (·.1) := by
  unfold bestPair
  dsimp only
  congr 2
  funext best found
  cases best <;> rfl

/-- The best pair is one of the pairs, if there are any. -/
theorem exists_bestPair (threshold parentScore : α) {children : List (Report α × Report α)}
    (h : children ≠ []) :
    ∃ p ∈ children, bestPair threshold parentScore children = some p := by
  have hnext : ∀ b found : (Report α × Report α) × α,
      better (some b) found = some b ∨ better (some b) found = some found := by
    intro b found
    by_cases hlt : b.2 < found.2
    · exact .inr (if_pos hlt)
    · exact .inl (if_neg hlt)
  obtain ⟨b, hb, hfold⟩ := exists_foldl_eq_some (fun _ => rfl) hnext
    (mt List.map_eq_nil_iff.mp h)
  obtain ⟨p, hp, rfl⟩ := List.mem_map.mp hb
  refine ⟨p, hp, ?_⟩
  rw [bestPair_eq_foldl, hfold]
  rfl

end Serial

/-! ## Keeping children -/

section Keeping

variable [Scalar.Ordered α] {s t : Search α} {r : Report α}

/-- What becomes of a child that is kept. -/
inductive Search.Kept (s : Search α) (r : Report α) : Prop
  /-- The child is open. -/
  | queued (h : r.stage = .postprocessed) (hopen : r.node ∈ s.brancher.frontier.nodes)
  /-- The child needs no further work. -/
  | settled (reason : Reason) (h : r.stage = .fathomed reason)
      (hreason : reason = .infeasible ∨ reason = .tighteningInfeasible ∨ reason = .converged)
  /-- The child was dominated, and the bound of the search includes its score. -/
  | dominated (h : r.stage = .fathomed .valueDominated)
      (hbound : ∀ outLowest, s.provenBound outLowest ≤ r.node.score)
  /-- The child was refused, and the bound of the search includes its score. -/
  | refused (h : r.stage = .postprocessed)
      (hbound : ∀ outLowest, s.provenBound outLowest ≤ r.node.score)

omit [Scalar.Ordered α] in
/-- A child that was kept stays so. -/
theorem Search.Kept.extends (h : s.Kept r) (hst : s.Extends t) : t.Kept r := by
  cases h with
  | queued h hopen => exact .queued h (hst.open_of_open _ hopen)
  | settled reason h hreason => exact .settled reason h hreason
  | dominated h hbound => exact .dominated h fun outLowest => hst.bound_le _ _ (hbound outLowest)
  | refused h hbound => exact .refused h fun outLowest => hst.bound_le _ _ (hbound outLowest)

omit [Scalar α] [Scalar.Ordered α] in
/-- A call on the solvers that succeeds leaves the search as it is. -/
theorem Work.onSolvers_ok {β : Type} {call : Call σ α β} {run after : Run σ α} {x : β}
    (h : (Work.onSolvers call).exec run = (.ok x, after)) :
    ∃ left, call.Returns run.memory x left ∧ after = { run with memory := left } := by
  rw [Work.exec_onSolvers, Prod.mk.injEq] at h
  exact ⟨_, Prod.ext h.1 rfl, h.2.symm⟩

namespace Serial

variable {run after : Run σ α}

omit [Scalar.Ordered α] in
/-- Keeping a child queues its node or counts it as fathomed. -/
theorem keep_ok (h : (keep r : Work σ α Unit).exec run = (.ok (), after)) :
    (r.stage = .postprocessed ∧ ∃ taken,
        run.search.insertEvaluated r.node = (.ok taken, after.search))
      ∨ r.stage ≠ .postprocessed ∧ after.search = run.search.countFathomed r := by
  unfold keep at h
  split at h
  · next hneeds =>
    obtain ⟨taken, mid, hinsert, h⟩ := Work.exec_bind_ok h
    cases h
    rw [Work.exec_onSearch] at hinsert
    rcases hquery : run.search.insertEvaluated r.node with ⟨e | answer, t⟩ <;>
      rw [hquery] at hinsert <;> cases hinsert
    exact .inl ⟨of_decide_eq_true hneeds, taken, rfl⟩
  · next hneeds =>
    cases h
    exact .inr ⟨fun hstage => hneeds (decide_eq_true hstage), rfl⟩

/-- Keeping a child closes no node and does not raise the bound. -/
theorem keep_spec (h : (keep r : Work σ α Unit).exec run = (.ok (), after))
    (hs : run.search.brancher.frontier.Consistent) (hr : r.Ends) :
    run.search.Extends after.search ∧ after.search.Kept r := by
  rcases keep_ok h with ⟨hstage, taken, hinsert⟩ | ⟨hstage, hcount⟩
  · obtain ⟨hextends, hopen | hbound⟩ := Search.insertEvaluated_ok hinsert hs
    · exact ⟨hextends, .queued hstage hopen⟩
    · exact ⟨hextends, .refused hstage hbound⟩
  · rw [hcount]
    refine ⟨Search.extends_countFathomed hs r, ?_⟩
    cases hr with
    | opened hopen => exact absurd hopen hstage
    | settled reason hfathomed hreason => exact .settled reason hfathomed hreason
    | dominated hfathomed hscore =>
      exact .dominated hfathomed (Search.countFathomed_bound hfathomed hscore)

/-- A report comes out of processing a node. -/
def Processed (solvers : Solvers σ α) (n : Node α) (r : Report α) : Prop :=
  ∃ cutoff memory left, (processNode solvers n cutoff).Returns memory r left

variable {solvers : Solvers σ α} {n : Node α} {nodes : List (Node α)} {reports : List (Report α)}

omit [Scalar.Ordered α] in
/-- Processing children that succeeds is processing the first one under the cutoff in force,
recording its report and going on with the others. -/
theorem evaluate_cons_ok
    (h : (evaluate solvers (n :: nodes)).exec run = (.ok reports, after)) :
    ∃ r memory others, (processNode solvers n run.search.cutoff).Returns run.memory r memory
      ∧ (run.search.record r).1 = .ok ()
      ∧ (evaluate solvers nodes).exec ⟨(run.search.record r).2, memory⟩ = (.ok others, after)
      ∧ reports = r :: others := by
  obtain ⟨s, looked, hlook, h⟩ := Work.exec_bind_ok h
  cases hlook
  obtain ⟨r, processed, hprocess, h⟩ := Work.exec_bind_ok h
  obtain ⟨_, recorded, hrecord, h⟩ := Work.exec_bind_ok h
  obtain ⟨others, last, hrest, h⟩ := Work.exec_bind_ok h
  cases h
  obtain ⟨left, hreturns, rfl⟩ := Work.onSolvers_ok hprocess
  rw [Work.exec_onSearch, Prod.mk.injEq] at hrecord
  obtain ⟨hanswer, rfl⟩ := hrecord
  refine ⟨r, left, others, hreturns, ?_, hrest, rfl⟩
  -- the recording succeeded, since the work went on after it
  cases hrecorded : (run.search.record r).1 with
  | error e => rw [hrecorded] at hanswer; cases hanswer
  | ok _ => rfl

/-- The reports on the children come out of processing them, and no node becomes open. -/
theorem evaluate_spec
    (h : (evaluate solvers nodes).exec run = (.ok reports, after))
    (hs : run.search.brancher.frontier.Consistent) :
    List.Forall₂ (Processed solvers) nodes reports ∧ after.search.brancher.frontier.Consistent := by
  induction nodes generalizing run reports with
  | nil =>
    cases h
    exact ⟨.nil, hs⟩
  | cons n rest ih =>
    obtain ⟨r, memory, others, hreturns, -, hrest, rfl⟩ := evaluate_cons_ok h
    obtain ⟨hothers, hlast⟩ := ih hrest (run.search.keeps_record hs r).consistent
    exact ⟨.cons ⟨_, _, memory, hreturns⟩ hothers, hlast⟩

end Serial

end Keeping

/-! ## Branching strongly -/

namespace Serial

open Brancher

/-- How strong branching may come out of a search, given a report that was recorded. -/
inductive StronglyBranched (solvers : Solvers σ α) (s : Search α) (r : Report α) :
    Stage → Search α → Prop
  /-- No whole point is left, and the node is dropped. -/
  | empty {t : Search α}
      (hempty : (roundDiscrete s.brancher.vars r.node.box).isEmpty = true)
      (hnone : ∀ x, r.node.box.Contains x → ¬ Integral s.brancher.vars x) :
      StronglyBranched solvers s r .dropped t
  /-- No dimension is left to be split. The node is dropped, and the bound is what it was. -/
  | point {t : Search α}
      (hpoint : ∀ i < s.brancher.vars.length,
        (roundDiscrete s.brancher.vars r.node.box).width i ≤ 0)
      (hbound : ∀ outLowest, t.provenBound outLowest = s.provenBound outLowest) :
      StronglyBranched solvers s r .dropped t
  /-- Two halves are kept, which hold every whole point of the node. -/
  | split {t : Search α} {down up : Node α} {below above : Report α}
      (hhalves : Halves s.brancher.vars (roundDiscrete s.brancher.vars r.node.box) down up)
      (hcovers : ∀ x, r.node.box.Contains x → Integral s.brancher.vars x →
        down.box.Encloses x ∨ up.box.Encloses x)
      (hbelow : Processed solvers down below) (habove : Processed solvers up above)
      (hdown : t.Kept below) (hup : t.Kept above) : StronglyBranched solvers s r .branched t

variable [Scalar.Rounding α] {solvers : Solvers σ α} {run after : Run σ α} {r : Report α}
  {stage : Stage}

omit [Scalar.Rounding α] in
/-- A node without children is dropped. -/
theorem strongBranch_dropped [Scalar.Ordered α] {s : Search α} {b : Brancher α} {id : Nat}
    (hfrontier : b.frontier = { s.brancher.frontier with nextId := id }) (outLowest : Option α) :
    (({ s with brancher := b } : Search α).countDropped).provenBound outLowest
      = s.provenBound outLowest := by
  unfold Search.provenBound Search.openBound Search.countDropped
  rw [hfrontier]
  rfl

/-- What is done with the reports on the children: the best pair is kept. -/
def keepBest (parentScore : α) (reports : List (Report α)) : Work σ α Stage := do
  let s ← Work.search
  match bestPair s.brancher.frontier.threshold parentScore (pairs reports) with
  | none =>
      Work.change (·.countDropped)
      return .dropped
  | some (down, up) =>
      keep down
      keep up
      Work.change (·.countBranched)
      return .branched

omit [Scalar.Rounding α] in
/-- Of the reports on the children, those of the best pair are kept, and the node is branched; if
there is no pair, the node is dropped. -/
theorem keepBest_cases {parentScore : α} {reports : List (Report α)}
    (h : (keepBest parentScore reports).exec run = (.ok stage, after)) :
    (bestPair run.search.brancher.frontier.threshold parentScore (pairs reports) = none
        ∧ stage = .dropped ∧ after.search = run.search.countDropped)
      ∨ ∃ p first second,
          bestPair run.search.brancher.frontier.threshold parentScore (pairs reports) = some p
            ∧ stage = .branched ∧ (keep p.1).exec run = (.ok (), first)
            ∧ (keep p.2).exec first = (.ok (), second)
            ∧ after.search = second.search.countBranched := by
  obtain ⟨s, looked, hlook, h⟩ := Work.exec_bind_ok h
  cases hlook
  -- the pair is looked for under the threshold in force after the last child
  split at h
  · next hnone =>
    cases h
    exact .inl ⟨hnone, rfl, rfl⟩
  · next down up hbest =>
    obtain ⟨_, first, hfirst, hrest⟩ := Work.exec_bind_ok h
    obtain ⟨_, second, hsecond, hcount⟩ := Work.exec_bind_ok hrest
    cases hcount
    exact .inr ⟨(down, up), first, second, hbest, rfl, hfirst, hsecond, rfl⟩

omit [Scalar.Rounding α] in
/-- Both children of the best pair are kept. -/
theorem keepBest_spec [Scalar.Ordered α] {parentScore : α} {reports : List (Report α)}
    {below above : Report α} (h : (keepBest parentScore reports).exec run = (.ok stage, after))
    (hbest : bestPair run.search.brancher.frontier.threshold parentScore (pairs reports)
      = some (below, above))
    (hs : run.search.brancher.frontier.Consistent) (hbelow : below.Ends) (habove : above.Ends) :
    stage = .branched ∧ after.search.Kept below ∧ after.search.Kept above := by
  rcases keepBest_cases h with
    ⟨hnone, -⟩ | ⟨p, first, second, hsome, hstage, hfirst, hsecond, hafter⟩
  · cases hnone.symm.trans hbest
  · cases hsome.symm.trans hbest
    obtain ⟨hextends, hdown⟩ := keep_spec hfirst hs hbelow
    obtain ⟨hlater, hup⟩ := keep_spec hsecond hextends.consistent habove
    have hcounted : second.search.Extends second.search.countBranched :=
      ⟨hlater.consistent, fun _ hn => hn, fun _ _ hy => hy⟩
    rw [hafter]
    exact ⟨hstage, (hdown.extends hlater).extends hcounted, hup.extends hcounted⟩

omit [Scalar.Rounding α] in
/-- Strong branching that succeeds evaluates the children of the recorded search and keeps the best
pair. -/
theorem strongBranch_ok (h : (strongBranch solvers r).exec run = (.ok stage, after)) :
    ∃ nodes b reports evaluated, (run.search.record r).1 = .ok ()
        ∧ (run.search.record r).2.brancher.allChildren r.node r.point = (.ok nodes, b)
        ∧ (evaluate solvers nodes).exec
            { run with search := { (run.search.record r).2 with brancher := b } }
          = (.ok reports, evaluated)
        ∧ (keepBest r.node.score reports).exec evaluated = (.ok stage, after) := by
  obtain ⟨_, recorded, hrecord, hafter⟩ := Work.exec_bind_ok h
  obtain ⟨nodes, handed, hchildren, hevaluation⟩ := Work.exec_bind_ok hafter
  obtain ⟨reports, evaluated, hevaluate, hkeep⟩ := Work.exec_bind_ok hevaluation
  rw [Work.exec_onSearch, Prod.mk.injEq] at hrecord
  obtain ⟨hanswer, rfl⟩ := hrecord
  -- each part of the work succeeded, since the next one began
  have hrecorded : (run.search.record r).1 = .ok () := by
    cases hconfirm : (run.search.record r).1 with
    | error e => rw [hconfirm] at hanswer; cases hanswer
    | ok _ => rfl
  rcases hall : (run.search.record r).2.brancher.allChildren r.node r.point with ⟨e | children, b⟩
  · simp only [Work.exec_onSearch, Search.strongChildren, hall] at hchildren
    cases hchildren
  · simp only [Work.exec_onSearch, Search.strongChildren, hall] at hchildren
    cases hchildren
    exact ⟨nodes, b, reports, evaluated, hrecorded, rfl, hevaluate, hkeep⟩

omit [Scalar.Rounding α] in
/-- Concluding a report takes it in, or branches its node strongly if that is asked for. -/
theorem conclude_ok {depth : Nat}
    (h : (conclude solvers depth r).exec run = (.ok stage, after)) :
    run.search.apply r = (.ok stage, after.search)
      ∨ depth < run.search.settings.strongDepth
        ∧ r.stage = .postprocessed ∧ (strongBranch solvers r).exec run = (.ok stage, after) := by
  obtain ⟨s, looked, hlook, h⟩ := Work.exec_bind_ok h
  cases hlook
  split at h
  · next hwanted =>
    refine .inr ⟨hwanted.1, ?_, h⟩
    have hneeds := hwanted.2
    rw [wantsStrong, Bool.and_eq_true, Bool.and_eq_true] at hneeds
    exact of_decide_eq_true hneeds.1.1
  · rw [Work.exec_onSearch] at h
    rcases happly : run.search.apply r with ⟨e | last, t⟩ <;> rw [happly] at h <;> cases h
    exact .inl rfl

/-- Strong branching of a recorded report has no other outcomes. -/
theorem strongBranch_spec (hs : run.search.Reachable)
    (h : (strongBranch solvers r).exec run = (.ok stage, after)) :
    StronglyBranched solvers (run.search.record r).2 r stage after.search := by
  have hrecord := (run.search.keeps_record hs.consistent r).consistent
  obtain ⟨nodes, b, reports, evaluated, -, hall, hevaluate, hkeep⟩ := strongBranch_ok h
  generalize (run.search.record r).2 = u at hrecord hall hevaluate
  obtain ⟨id, hfrontier, -⟩ := u.brancher.allChildren_frontier r.node r.point
  rw [hall] at hfrontier
  obtain ⟨hdim, ps, rfl, hhalves, hnone⟩ := allChildren_spec hall
  have hhanded : b.frontier.Consistent := by
    rw [hfrontier]
    exact hrecord.of_eq rfl rfl rfl rfl
  obtain ⟨hreports, hevaluated⟩ := evaluate_spec hevaluate hhanded
  obtain ⟨hempty, hpairs⟩ := pairs_of_forall₂ hreports
  have hlength : ∀ x, r.node.box.Contains x → x.length = u.brancher.vars.length :=
    fun x hx => hx.lower_length.symm.trans (length_lower_of_dimensionFault hdim)
  by_cases hps : ps = []
  · -- there are no children, and the node is dropped
    subst hps
    cases hevaluate
    cases hkeep
    rcases hnone.mp rfl with hrounded | hpoint
    · refine .empty hrounded fun x hx hwhole => ?_
      rw [(encloses_roundDiscrete hx.toEncloses hwhole).isEmpty_eq_false] at hrounded
      cases hrounded
    · exact .point hpoint (strongBranch_dropped hfrontier)
  · obtain ⟨⟨below, above⟩, hmem, hbest⟩ := exists_bestPair
      evaluated.search.brancher.frontier.threshold r.node.score (mt hempty.mp hps)
    obtain ⟨⟨down, up⟩, hp, hbelow, habove⟩ := hpairs _ hmem
    obtain ⟨_, _, _, hdownReturns⟩ := hbelow
    obtain ⟨_, _, _, hupReturns⟩ := habove
    obtain ⟨rfl, hdown, hup⟩ := keepBest_spec hkeep hbest hevaluated
      (processNode_ends hdownReturns) (processNode_ends hupReturns)
    refine .split (hhalves _ hp) (fun x hx hwhole => ?_) ⟨_, _, _, hdownReturns⟩
      ⟨_, _, _, hupReturns⟩ hdown hup
    exact (hhalves _ hp).encloses (contains_roundDiscrete hx hwhole) (hlength x hx) hwhole

end Serial

end BranchBound
