import BranchBound.Proofs.Search.Retaining

/-! # Verdicts of infeasibility

A search that ends with an empty tree and without a point says that its problem is infeasible. This
is so if it dropped no node, and also if nodes are not branched strongly and the size tolerance is
zero. Under a positive size tolerance the verdict may be wrong: a small node is dropped although a
point may be left in it.

* **`Serial.retains_round`**, **`Serial.retains_rounds`** — as long as no point is known, every
  feasible one is sheltered by an open node.
* **`Serial.points_eq_empty`** — a search that ends as infeasible does so rightly, under the
  conditions above.
* **`Serial.infeasible_of_coarse`** — a search with a positive size tolerance that does not. -/

namespace BranchBound

/-! ## Incumbents without a point -/

section Unknown

variable {σ α : Type} [Scalar α] [Scalar.Ordered α] {solvers : Solvers σ α}

omit [Scalar.Ordered α] in
/-- The best of some points is infinite if it has no point. -/
theorem Incumbent.IsBest.unknown {i : Incumbent α} {offered : List (Candidate α)}
    (h : i.IsBest offered) (hnone : i.isKnown = false) : i.value = Scalar.infinity := by
  rcases h.attained with ⟨rfl, -⟩ | ⟨_, c, _, -, rfl, -⟩
  · rfl
  · cases hnone

/-- After any rounds the incumbent is the best of some points. -/
theorem Serial.isBest_rounds {run last : Run σ α} (h : Rounds solvers run last)
    (hs : run.search.brancher.frontier.Consistent) (hnone : run.search.incumbent = .none) :
    ∃ offered, last.search.incumbent.IsBest offered := by
  refine grounded_rounds (I := fun s => ∃ offered, s.incumbent.IsBest offered)
    (fun s op hbest _ => ?_) h hs ?_ ⟨[], ?_⟩
  · obtain ⟨offered, hbest⟩ := hbest
    refine ⟨offered ++ op.offers, ?_⟩
    rw [Search.incumbent_perform]
    exact hbest.offerAll op.offers
  · rw [hnone]
    exact Scalar.Ordered.isNaN_infinity
  · rw [hnone]
    exact Incumbent.isBest_none

end Unknown

variable {σ K : Type} [Field K] [LinearOrder K] [FloorRing K] {p : Problem (Extended K)}
  {solvers : Solvers σ (Extended K)}

/-! ## The start -/

/-- Every feasible point is sheltered by the root. -/
theorem Search.Retains.new [IsStrictOrderedRing K] {vars : List (Variable (Extended K))}
    {settings : Settings (Extended K)} {start : Search (Extended K)}
    (hstart : Search.new vars settings = .ok start) (hfits : p.Fits start.brancher.vars) :
    start.Retains p 0
      ∧ start.brancher.frontier.nextId ≤ 2 * start.stats.processed + 1 := by
  have hlossless := Async.lossless_start hstart hfits
  have hstandard := standard_new hstart
  have hnone := (new_frame hstart).1
  obtain ⟨-, -, -, f, hf, -, -, hfrontier⟩ := new_ok hstart
  -- no point is known, so that the frontier takes whatever is below infinity
  have hlenient : Scalar.infinity ≤ start.brancher.frontier.adjustedThreshold := by
    have hcutoff : start.cutoff.threshold = Scalar.infinity := by
      rw [Cutoff.threshold, cutoff, hnone]
      exact Extended.toleranceAdjusted_of_not_finite rfl
    exact hcutoff ▸ (Agrees.new hstart).same_threshold.2
  refine ⟨⟨⟨?_, hlossless.consistent, hlenient, hlossless.names, hfits, hstandard⟩,
    fun x hx => ?_⟩, hlossless.nextId_le⟩
  · rw [hnone]
    rfl
  · have hroot : (Node.root start.brancher.vars).score < Scalar.infinity := rfl
    have hbox := hfits.contains_root
      (fun v hv => ⟨(hstandard v hv).isFinite_lower, (hstandard v hv).isFinite_upper⟩) hx
    refine ⟨Node.root start.brancher.vars, ?_,
      ⟨⟨hbox, Scalar.Ordered.neg_infinity_le (p.defined x hx)⟩, Box.inside_root hstandard⟩⟩
    rw [hfrontier, (f.sameLimits_insert _).adjustedThreshold] at hlenient
    rw [Multiset.add_zero, hfrontier]
    exact hf.mem_insert_of_lenient hlenient
      (n := ⟨Node.root start.brancher.vars, 0, .unsplit⟩) hroot

namespace Serial

variable {run after last : Run σ (Extended K)}

/-! ## Rounds -/

/-- If no point is known after a round, and none was given up, the same holds before. -/
theorem blank_of_round (hround : (round solvers).exec run = (.ok none, after))
    (hs : run.search.brancher.frontier.Consistent)
    (hdef : Scalar.isNaN run.search.incumbent.value = false) (h : after.search.Blank) :
    run.search.Blank := by
  obtain ⟨n, t, hnext, hfalls⟩ := falls_round hs hround nofun
  have hincumbent := (Search.next_frame hnext).2.1
  have hsettings := (later_round solvers run).2
  rw [hround] at hsettings
  have hdropped := dropped_rounds_le (.single hround) hs hdef
  refine ⟨Search.unknown_of_le hdef h.unknown fun hy => hfalls.incumbent ?_, ?_⟩
  · rw [hincumbent]
    exact hy
  · rw [← hsettings]
    exact h.exact.imp_left fun hzero => by omega

variable [IsStrictOrderedRing K]

/-- A round after which no point is known, and none was given up, keeps the feasible points
sheltered. -/
theorem retains_round (h : run.search.Retains p 0) (hsound : solvers.Sound p)
    (hfinite : ∀ x ∈ p.points, p.value x < Scalar.infinity)
    (hround : (round solvers).exec run = (.ok none, after)) (hblank : after.search.Blank)
    (hgiven : run.search.brancher.frontier.nextId ≤ 2 * run.search.stats.processed + 1)
    (hids : 2 * after.search.stats.processed + 1 < wordRange) :
    after.search.Retains p 0
      ∧ after.search.brancher.frontier.nextId ≤ 2 * after.search.stats.processed + 1 := by
  have hkept := (later_round solvers run).2
  rw [hround] at hkept
  have hrounded := exec_round solvers run
  rw [hround] at hrounded
  cases hrounded with
  | @next n t r memory stage _ hnext hprocess hconclude =>
    have hnow : (now solvers run).Retains p 0 :=
      ⟨h.toTended.of_eq h.unknown rfl rfl rfl, h.shelters⟩
    have ht := hnow.next hnext
    obtain ⟨-, hincumbent, hsettings, hstats⟩ := Search.next_frame hnext
    have hid : t.brancher.frontier.nextId = run.search.brancher.frontier.nextId := by
      obtain ⟨_, f, hpop, -, rfl⟩ := Async.next_ok hnext
      obtain ⟨slot, -, -, rfl⟩ := Frontier.pop?_eq_some hpop
      rfl
    have hprocessed : t.stats.processed = run.search.stats.processed :=
      congrArg Stats.processed hstats
    have hdef : Scalar.isNaN (now solvers run).incumbent.value = false := by
      rw [hnow.unknown]
      rfl
    have hheeds : t.Heeds (now solvers run).cutoff :=
      (Search.heeds_cutoff hdef).later hsettings fun hy => hincumbent ▸ hy
    have hr := Search.recorded_record hheeds hprocess
    -- the report is applied, or the node is branched strongly
    rcases conclude_ok hconclude with happly | ⟨hdepth, -, hstrong⟩
    · obtain ⟨-, hsettle⟩ := Search.apply_ok happly
      have hcount : after.search.stats.processed = t.stats.processed + 1 :=
        Search.processed_apply happly
      have hframe := ((t.record r).2.settle_frame r).2
      rw [hsettle] at hframe
      have hrecord := ht.record (r := r) (hframe ▸ hblank.unknown)
      have hgrown : (t.record r).2.brancher.frontier.nextId = t.brancher.frontier.nextId :=
        (t.keeps_record ht.consistent r).nextId
      have htolerance : (t.record r).2.settings = after.search.settings := by
        rw [(t.counted_record r).2, hsettings]
        exact hkept.symm
      obtain ⟨hretains, hlater⟩ : after.search.Retains p 0
          ∧ after.search.brancher.frontier.nextId ≤ (t.record r).2.brancher.frontier.nextId + 2 :=
        hrecord.settle hsound hfinite hr hsettle (htolerance ▸ hblank.exact.imp_right (·.2))
          (by omega)
      exact ⟨hretains, by omega⟩
    · have hstrict : 0 < after.search.settings.strongDepth := by
        rw [hkept]
        exact hsettings ▸ Nat.zero_lt_of_lt hdepth
      have hdropped := hblank.exact.resolve_right fun hplain => hstrict.ne' hplain.1
      exact retains_strongBranch
        (show (⟨t, memory⟩ : Run σ (Extended K)).search.Retains p {n} from ht) hsound hfinite hr
        hstrong hblank.unknown hdropped (by dsimp only; omega) hids

/-- So do any rounds. -/
theorem retains_rounds (hrounds : Rounds solvers run last) (h : run.search.Retains p 0)
    (hsound : solvers.Sound p) (hfinite : ∀ x ∈ p.points, p.value x < Scalar.infinity)
    (hblank : last.search.Blank)
    (hgiven : run.search.brancher.frontier.nextId ≤ 2 * run.search.stats.processed + 1)
    (hids : 2 * last.search.stats.processed + 1 < wordRange) :
    last.search.Retains p 0
      ∧ last.search.brancher.frontier.nextId ≤ 2 * last.search.stats.processed + 1 := by
  induction hrounds with
  | refl => exact ⟨h, hgiven⟩
  | @tail mid after hmid hround ih =>
    have hdef : Scalar.isNaN run.search.incumbent.value = false := by
      rw [h.unknown]
      rfl
    obtain ⟨hconsistent, hdefined⟩ := consistent_rounds hmid h.consistent hdef
    have hprocessed := later_rounds (.single hround)
    obtain ⟨hretains, hnext⟩ := ih (blank_of_round hround hconsistent hdefined hblank) (by omega)
    exact retains_round hretains hsound hfinite hround hblank hnext hids

/-! ## The verdict -/

/-- A search that ends as infeasible does so rightly if it dropped no node, or if nodes are not
branched strongly and the size tolerance is zero. The ids of the nodes must not run out. -/
theorem points_eq_empty {vars : List (Variable (Extended K))} {settings : Settings (Extended K)}
    {start : Search (Extended K)} {memory left : σ} {solution : Solution (Extended K)}
    (hstart : Search.new vars settings = .ok start) (hfits : p.Fits start.brancher.vars)
    (hfinite : ∀ x ∈ p.points, p.value x < Scalar.infinity) (hsound : solvers.Sound p)
    (hsolve : solve solvers vars settings memory = (.ok solution, left))
    (hstatus : solution.status = .infeasible)
    (hexact : solution.stats.dropped = 0
      ∨ settings.strongDepth = 0 ∧ settings.sizeTolerance = 0)
    (hids : 2 * solution.stats.processed + 1 < wordRange) : p.points = ∅ := by
  obtain ⟨last, hrounds, hcheck, hsolution⟩ :=
    exists_rounds_of_solve hstart hsolve (by rw [hstatus]; decide)
  rw [hstatus] at hcheck
  obtain ⟨hnone, -, hsettings⟩ := Search.new_frame hstart
  have hstats : solution.stats = last.search.stats := congrArg Solution.stats hsolution
  have hkept : last.search.settings = settings := (settings_rounds hrounds).trans hsettings
  obtain ⟨hretains, hgiven⟩ := Search.Retains.new hstart hfits
  obtain ⟨hempty, hverdict⟩ := Search.size_of_exhausted hcheck rfl
  have hunknown : last.search.incumbent.value = Scalar.infinity := by
    obtain ⟨offered, hbest⟩ := isBest_rounds hrounds hretains.consistent hnone
    refine hbest.unknown ?_
    cases hknown : last.search.incumbent.isKnown with
    | false => rfl
    | true =>
      have hoptimal : (now solvers last).exhaustedStatus = .globallyOptimal := if_pos hknown
      rw [hoptimal] at hverdict
      cases hverdict
  have hblank : last.search.Blank := ⟨hunknown, by rw [← hstats, hkept]; exact hexact⟩
  obtain ⟨hlast, -⟩ := retains_rounds hrounds hretains hsound hfinite hblank hgiven (hstats ▸ hids)
  -- a point would be sheltered by an open node, and none is open
  have hnodes : last.search.brancher.frontier.nodes = 0 := by
    have hlist : last.search.brancher.frontier.toList = [] := by
      rw [← List.length_eq_zero_iff, ← hlast.consistent.size_eq_length]
      exact hempty
    rw [Frontier.nodes, hlist]
    rfl
  refine Set.eq_empty_iff_forall_notMem.mpr fun x hx => ?_
  obtain ⟨n, hn, -⟩ := hlast.shelters x hx
  rw [hnodes] at hn
  exact Multiset.notMem_zero n hn

/-- One variable of a kind between zero and two. -/
def halfVars (kind : VariableKind) : List (Variable (Extended ℚ)) :=
  [⟨0, .point 2, kind, 1, "x"⟩]

/-- One half is the only feasible point, if the kind of the variable admits it. -/
def halfProblem (kind : VariableKind) : Problem (Extended ℚ) where
  points := {x | x = [.point (1 / 2)] ∧ kind.isDiscrete = false}
  value _ := 1
  defined _ _ := rfl

/-- Solvers that rule out the boxes without one half, and find it in a single point only. -/
def halfSolvers : Solvers Unit (Extended ℚ) where
  lower n _ := pure (if n.box.lowerAt 0 ≤ .point (1 / 2) ∧ .point (1 / 2) ≤ n.box.upperAt 0
    then .ofBound (-1) [] else .ofInfeasible)
  upper n _ incumbent :=
    pure (if n.box.isPoint = true then .ofPoint 1 [.point (1 / 2)] incumbent else .notFound)

/-- The solvers are sound. -/
theorem sound_halfSolvers (kind : VariableKind) : halfSolvers.Sound (halfProblem kind) where
  preprocess h := by
    obtain ⟨rfl, rfl⟩ := Prod.mk.inj (Call.returns_pure h)
    exact ⟨rfl, rfl, rfl, .refl _, fun _ _ hx _ => ⟨rfl, hx⟩⟩
  postprocess h := by
    obtain ⟨rfl, rfl⟩ := Prod.mk.inj (Call.returns_pure h)
    exact ⟨rfl, rfl, rfl, .refl _, fun _ _ hx _ => ⟨rfl, hx⟩⟩
  lower h x hx hbox _ := by
    obtain rfl := Call.returns_pure h
    obtain ⟨rfl, -⟩ := hx
    -- the box of the node holds the one feasible point
    rw [if_pos ⟨hbox.lower_le 0 Nat.one_pos, hbox.le_upper 0 Nat.one_pos⟩]
    exact ⟨rfl, show (-1 : Extended ℚ) ≤ 1 by decide +kernel⟩
  lower_converged h _ hconverged := by
    obtain rfl := Call.returns_pure h
    split at hconverged <;> cases hconverged
  upper_converged h hconverged := by
    obtain rfl := Call.returns_pure h
    split at hconverged <;> cases hconverged
  upper_point h hpoint x hx _ hlt := by
    obtain rfl := Call.returns_pure h
    rw [if_pos hpoint]
    exact ⟨decide_eq_true hlt, rfl, show (1 : Extended ℚ) ≤ 1 by decide +kernel⟩

/-- One half is a point of the domain if its kind admits it. -/
theorem fits_halfProblem {kind : VariableKind} {vars : List (Variable (Extended ℚ))}
    (hlength : vars.length = 1) (hvars : ∀ v ∈ vars,
      v.kind = kind ∧ v.lower ≤ .point (1 / 2) ∧ .point (1 / 2) ≤ v.upper) :
    (halfProblem kind).Fits vars where
  length := by
    rintro x ⟨rfl, -⟩
    exact hlength.symm
  bounds := by
    rintro x ⟨rfl, -⟩ i v hv
    have hi := (List.getElem?_eq_some_iff.mp hv).1
    rw [hlength, Nat.lt_one_iff] at hi
    rw [hi]
    exact (hvars v (List.mem_of_getElem? hv)).2
  integral := by
    rintro x ⟨rfl, hkind⟩ i v hv hdiscrete
    rw [(hvars v (List.mem_of_getElem? hv)).1, hkind] at hdiscrete
    cases hdiscrete

/-- The search over the whole numbers ends as infeasible after five nodes. -/
theorem exists_solution_integer :
    ∃ start ∈ (Search.new (halfVars .integer) .standard).toOption,
      start.brancher.vars.length = 1
        ∧ (∀ v ∈ start.brancher.vars,
          v.kind = .integer ∧ v.lower ≤ .point (1 / 2) ∧ .point (1 / 2) ≤ v.upper)
        ∧ ∃ solution ∈ (solve halfSolvers (halfVars .integer) .standard ()).1.toOption,
          solution.status = .infeasible ∧ solution.stats.dropped = 0
            ∧ solution.stats.processed = 5 := by
  decide +kernel

/-- It does so rightly. -/
theorem points_eq_empty_halfProblem :
    (∃ solution ∈ (solve halfSolvers (halfVars .integer) .standard ()).1.toOption,
      solution.status = .infeasible ∧ solution.stats.processed = 5)
      ∧ (halfProblem .integer).points = ∅ := by
  obtain ⟨start, hstart, hlength, hvars, hsolution⟩ := exists_eq_ok exists_solution_integer
  obtain ⟨solution, hsolve, hstatus, hdropped, hprocessed⟩ := exists_eq_ok hsolution
  refine ⟨⟨solution, ?_, hstatus, hprocessed⟩, ?_⟩
  · rw [hsolve]
    rfl
  · exact points_eq_empty hstart (fits_halfProblem hlength hvars) (fun _ _ => rfl)
      (sound_halfSolvers .integer) (Prod.ext hsolve rfl) hstatus (.inl hdropped)
      (by rw [hprocessed]; decide)

/-- The standard settings with a size tolerance that every node is within. -/
def coarseSettings : Settings (Extended ℚ) := { Settings.standard with sizeTolerance := 1 }

/-- Under a positive size tolerance a search may end as infeasible although there is a feasible
point. -/
theorem infeasible_of_coarse :
    ∃ start solution, Search.new (halfVars .continuous) coarseSettings = .ok start
      ∧ (halfProblem .continuous).Fits start.brancher.vars
      ∧ halfSolvers.Sound (halfProblem .continuous)
      ∧ (∀ x ∈ (halfProblem .continuous).points,
        (halfProblem .continuous).value x < Scalar.infinity)
      ∧ (solve halfSolvers (halfVars .continuous) coarseSettings ()).1 = .ok solution
      ∧ solution.status = .infeasible ∧ solution.stats.processed = 1
      ∧ (halfProblem .continuous).points ≠ ∅ := by
  -- the root is dropped for its size
  have hrun : ∃ start ∈ (Search.new (halfVars .continuous) coarseSettings).toOption,
      start.brancher.vars.length = 1
        ∧ (∀ v ∈ start.brancher.vars,
          v.kind = .continuous ∧ v.lower ≤ .point (1 / 2) ∧ .point (1 / 2) ≤ v.upper)
        ∧ ∃ solution ∈ (solve halfSolvers (halfVars .continuous) coarseSettings ()).1.toOption,
          solution.status = .infeasible ∧ solution.stats.processed = 1 := by
    decide +kernel
  obtain ⟨start, hstart, hlength, hvars, hsolution⟩ := exists_eq_ok hrun
  obtain ⟨solution, hsolve, hstatus, hprocessed⟩ := exists_eq_ok hsolution
  exact ⟨start, solution, hstart, fits_halfProblem hlength hvars, sound_halfSolvers .continuous,
    fun _ _ => rfl, hsolve, hstatus, hprocessed, Set.nonempty_iff_ne_empty.mp ⟨_, rfl, rfl⟩⟩

end Serial

end BranchBound
