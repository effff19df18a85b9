import BranchBound.Proofs.Search.Requeuing
import BranchBound.Proofs.Search.Unresolved

/-! # The bound of a search climbs

Whoever hands out the nodes of a search knows the lowest score of those that are out, and the bound
of the search takes it into account. Then the bound never falls: a node takes its score along when
it goes out, and brings it back when it is put back; a report adds no score below that of its node;
and a better point only moves scores about. That needs nothing of the solvers but that the score of
a reported node is not below the one it was handed out with.

* **`Async.Advance`** — what can happen to a search, whoever processes its nodes.
* **`Async.bound_le_iff`** — the bound, with the nodes that are out taken into account.
* **`Async.bound_mono`** — the bound never falls and the incumbent never rises. -/

namespace BranchBound

variable {α : Type} [Scalar α]

/-- The smallest of some values is at most what the first one or one of the others is at most. -/
theorem Scalar.foldl_least_le_iff [Scalar.Ordered α] {β : Type} {items : List β} {score : β → α}
    {low y : α} : items.foldl (fun low b => Scalar.least low (score b)) low ≤ y
      ↔ low ≤ y ∨ ∃ b ∈ items, score b ≤ y := by
  induction items generalizing low with
  | nil => simp
  | cons b rest ih =>
    rw [List.foldl_cons, ih, Scalar.least_le_iff, or_assoc]
    simp

namespace Async

/-! ## Advances -/

/-- What can happen to a search whose nodes are processed elsewhere: a node is handed out, a point
is offered, the report on a node that is out is taken in, or such a node is put back. -/
inductive Advance : Async α → Async α → Prop
  /-- A node is handed out. -/
  | next {s : Async α} {n : Node α} {t : Search α} (h : s.search.next = (.ok n, t)) :
      Advance s ⟨t, n :: s.out⟩
  /-- A point is offered. -/
  | offer {s : Async α} (c : Candidate α) : Advance s ⟨(s.search.offer c).2, s.out⟩
  /-- The report on a node that is out is taken in. Its score is not below the one that the node was
  handed out with. -/
  | report {s : Async α} {before after : List (Node α)} {n : Node α} {r : Report α} {stage : Stage}
      {t : Search α} (hout : s.out = before ++ n :: after) (hid : r.node.id = n.id)
      (hscore : n.score ≤ r.node.score) (happly : s.search.apply r = (.ok stage, t)) :
      Advance s ⟨t, before ++ after⟩
  /-- A node that was out is cancelled and put back as it was handed out. -/
  | requeue {s : Async α} {before after : List (Node α)} {n : Node α} {b : Brancher α}
      {taken : Bool} {t : Search α} (hout : s.out = before ++ n :: after)
      (hcancel : s.search.brancher.cancel n.id = (.ok (), b))
      (hinsert : ({ s.search with brancher := b } : Search α).insertEvaluated n = (.ok taken, t)) :
      Advance s ⟨t, before ++ after⟩

/-- Advances one after the other. -/
abbrev Advances : Async α → Async α → Prop := Relation.ReflTransGen Advance

variable {s t : Async α} {n : Node α} {before after : List (Node α)} {y : α}

/-- An advance is one operation on the search, or two if a node is put back. -/
theorem Advance.performs (h : Advance s t) : ∃ ops, t.search = s.search.performAll ops := by
  cases h with
  | @next n u h => exact ⟨[.next], congrArg Prod.snd h.symm⟩
  | offer c => exact ⟨[.offer c], rfl⟩
  | @report before after n r stage u hout hid hscore happly =>
    exact ⟨[.apply r], congrArg Prod.snd happly.symm⟩
  | @requeue before after n b taken u hout hcancel hinsert =>
    refine ⟨[.cancel n.id, .insertEvaluated n], ?_⟩
    show u =
      (({ s.search with brancher := (s.search.brancher.cancel n.id).2 } : Search α).insertEvaluated
        n).2
    rw [hcancel, hinsert]

variable [Scalar.Ordered α]

/-- An advance keeps the frontier consistent. -/
theorem Advance.consistent (h : Advance s t) (hs : s.search.brancher.frontier.Consistent) :
    t.search.brancher.frontier.Consistent := by
  obtain ⟨ops, hops⟩ := h.performs
  rw [hops]
  clear hops h
  induction ops generalizing s with
  | nil => exact hs
  | cons op rest ih =>
    exact ih (s := ⟨s.search.perform op, s.out⟩) (Search.consistent_perform hs op)

/-- The incumbent does not become worse. -/
theorem Advance.incumbent_le (h : Advance s t) (hy : s.search.incumbent.value ≤ y) :
    t.search.incumbent.value ≤ y := by
  obtain ⟨ops, hops⟩ := h.performs
  rw [hops]
  clear hops h
  induction ops generalizing s with
  | nil => exact hy
  | cons op rest ih =>
    exact ih (s := ⟨s.search.perform op, s.out⟩) (Search.incumbent_perform_le op hy)

/-! ## The bound -/

/-- The bound of the search, with the nodes that are out taken into account. -/
def bound (s : Async α) : α := s.search.provenBound s.outLowest

/-- The lowest score of the nodes that are out is at most what one of them is at most, and nothing
else. -/
theorem outLowest_le_iff :
    (∃ score, s.outLowest = some score ∧ score ≤ y) ↔ ∃ n ∈ s.out, n.score ≤ y := by
  refine ⟨fun ⟨score, hscore, hy⟩ => ?_, outLowest_le⟩
  unfold outLowest at hscore
  split at hscore
  · cases hscore
  · next m rest hout =>
    obtain rfl := Option.some.inj hscore
    rw [Scalar.foldl_least_le_iff] at hy
    rw [hout]
    simpa using hy

/-- The bound is at most what the bound of the search or the score of a node that is out is at
most. -/
theorem bound_le_iff : s.bound ≤ y ↔ s.search.provenBound none ≤ y ∨ ∃ n ∈ s.out, n.score ≤ y := by
  rw [bound, Search.provenBound_le_iff, Search.provenBound_le_iff, outLowest_le_iff]
  simp only [reduceCtorEq, false_and, exists_false, or_false, or_right_comm]

/-- The bound is defined. -/
theorem isNaN_bound (s : Async α) : Scalar.isNaN s.bound = false := by
  have hlowest := s.search.brancher.frontier.isLowest_lowestScore.defined
  have hopen : Scalar.isNaN (s.search.openBound s.outLowest) = false := by
    unfold Search.openBound
    split
    · exact Scalar.isNaN_least hlowest
    · exact hlowest
  exact Scalar.isNaN_least (Scalar.isNaN_least hopen)

omit [Scalar.Ordered α] in
/-- A score of the nodes that are out is that of one of them or belongs to the others. -/
theorem exists_out (hout : s.out = before ++ n :: after) :
    (∃ m ∈ s.out, m.score ≤ y) ↔ n.score ≤ y ∨ ∃ m ∈ before ++ after, m.score ≤ y := by
  rw [hout]
  simp only [List.mem_append, List.mem_cons, or_and_right, exists_or, exists_eq_left]
  exact or_left_comm

/-- No advance lowers the bound. -/
theorem Advance.bound_le (h : Advance s t) (hs : s.search.brancher.frontier.Consistent)
    (hy : t.bound ≤ y) : s.bound ≤ y := by
  rw [bound_le_iff] at hy ⊢
  cases h with
  | @next n u h =>
    -- the node that goes out was open
    obtain ⟨m, f, hpop, rfl, rfl⟩ := next_ok h
    rw [Search.provenBound_none_le_iff, hs.bound_pop hpop]
    rw [Search.provenBound_none_le_iff] at hy
    simp only [List.mem_cons, exists_eq_or_imp] at hy
    exact hy.elim (fun hkept => .inl (hkept.imp_left .inr))
      (Or.imp (fun hscore => .inl (.inl hscore)) id)
  | offer c =>
    rw [Search.leaves_offer hs c y] at hy
    simpa using hy
  | @report before after n r stage u hout hid hscore happly =>
    rw [exists_out hout]
    rw [Search.leaves_apply hs happly y] at hy
    rcases hy with (hkept | ⟨x, hx, hxy⟩) | hother
    · exact .inl hkept
    · -- what the report leaves is not below the score of the node while it was out
      have hle := Report.le_of_mem_left (Scalar.Ordered.isNaN_right_of_le hscore) hx
      exact .inr (.inl (Scalar.Ordered.le_trans hscore (Scalar.Ordered.le_trans hle hxy)))
    · exact .inr (.inr hother)
  | @requeue before after n b taken u hout hcancel hinsert =>
    rw [exists_out hout]
    have hfrontier := s.search.brancher.frontier_cancel n.id
    rw [hcancel] at hfrontier
    have hcancelled : s.search.Leaves { s.search with brancher := b } 0 := .of_eq hfrontier rfl
    have hqueued := Search.leaves_insertEvaluated
      (s := { s.search with brancher := b }) (hfrontier ▸ hs) hinsert
    rw [hqueued y, hcancelled y] at hy
    simp only [Multiset.notMem_zero, false_and, exists_false, or_false, Multiset.mem_singleton,
      exists_eq_left] at hy
    tauto

/-! ## Runs -/

/-- Over advances the bound does not fall, and the incumbent does not become worse. -/
structure Climbs (s t : Async α) : Prop where
  /-- The frontier is consistent. -/
  consistent : t.search.brancher.frontier.Consistent
  /-- The bound did not fall. -/
  bound_le {y : α} : t.bound ≤ y → s.bound ≤ y
  /-- The incumbent did not become worse. -/
  incumbent_le {y : α} : s.search.incumbent.value ≤ y → t.search.incumbent.value ≤ y

/-- A search climbs over any advances. -/
theorem climbs (hs : s.search.brancher.frontier.Consistent) (h : Advances s t) : s.Climbs t := by
  induction h with
  | refl => exact ⟨hs, id, id⟩
  | tail _ hstep ih =>
    exact ⟨hstep.consistent ih.consistent, fun hy => ih.bound_le (hstep.bound_le ih.consistent hy),
      fun hy => hstep.incumbent_le (ih.incumbent_le hy)⟩

/-- Whatever happens to a search, its bound never falls and its incumbent never becomes worse, as
long as the bound takes the nodes that are out into account. -/
theorem bound_mono {vars : List (Variable α)} {settings : Settings α} {start : Search α}
    (hstart : Search.new vars settings = .ok start) (hrun : Advances ⟨start, []⟩ s)
    (hlater : Advances s t) :
    s.bound ≤ t.bound ∧ t.search.incumbent.value ≤ s.search.incumbent.value := by
  have hbefore := climbs (s := ⟨start, []⟩) (Search.Reachable.new hstart).consistent hrun
  have hafter := climbs hbefore.consistent hlater
  have hinfinity : start.incumbent.value ≤ Scalar.infinity := by
    rw [(Search.new_frame hstart).1]
    exact Scalar.Ordered.le_refl Scalar.Ordered.isNaN_infinity
  have hdef := Scalar.Ordered.isNaN_left_of_le (hbefore.incumbent_le hinfinity)
  exact ⟨hafter.bound_le (Scalar.Ordered.le_refl t.isNaN_bound),
    hafter.incumbent_le (Scalar.Ordered.le_refl hdef)⟩

/-- The root of a search of the sample variables goes out, and its report is accepted. -/
theorem exists_sampleAdvances : ∃ start ∈ (Search.new sampleVars .standard).toOption,
    ∃ n ∈ start.next.1.toOption, n.id = Search.sampleReport.node.id
      ∧ n.score ≤ Search.sampleReport.node.score
      ∧ ∃ stage ∈ (start.next.2.apply Search.sampleReport).1.toOption, stage = .branched := by
  decide +kernel

/-- The bound climbs while the root is out, and as its report comes in. -/
theorem bound_mono_sampleReport : ∃ start n s t, Search.new sampleVars .standard = .ok start
    ∧ start.next = (.ok n, s) ∧ s.apply Search.sampleReport = (.ok .branched, t)
    ∧ bound ⟨start, []⟩ ≤ bound ⟨s, [n]⟩ ∧ bound ⟨s, [n]⟩ ≤ bound ⟨t, []⟩
    ∧ t.incumbent.value ≤ s.incumbent.value := by
  obtain ⟨start, hstart, hout⟩ := exists_eq_ok exists_sampleAdvances
  obtain ⟨n, hn, hid, hscore, hback⟩ := exists_eq_ok hout
  obtain ⟨stage, hstage, rfl⟩ := exists_eq_ok hback
  obtain ⟨s, hnext⟩ : ∃ s, start.next = (.ok n, s) := ⟨_, Prod.ext hn rfl⟩
  rw [hnext] at hstage
  obtain ⟨t, happly⟩ : ∃ t, s.apply Search.sampleReport = (.ok .branched, t) :=
    ⟨_, Prod.ext hstage rfl⟩
  have hfirst : Advance ⟨start, []⟩ ⟨s, [n]⟩ := .next hnext
  have hsecond : Advance ⟨s, [] ++ n :: []⟩ ⟨t, [] ++ []⟩ := .report rfl hid.symm hscore happly
  obtain ⟨hbound, -⟩ := bound_mono hstart .refl (.single hfirst)
  obtain ⟨hreport, hincumbent⟩ := bound_mono hstart (.single hfirst) (.single hsecond)
  exact ⟨start, n, s, t, hstart, hnext, happly, hbound, hreport, hincumbent⟩

end Async

end BranchBound
