import BranchBound.Proofs.Box.Domain
import BranchBound.Proofs.Brancher.Branching
import BranchBound.Proofs.Frontier.Thresholds
import BranchBound.Search.State

/-! # The start of a search, and when it is over

A search starts with variables in standard form, whose bounds are finite, and with the root offered
to an empty frontier. The root covers the domain. The search is over once its tree is exhausted, a
target is reached or it has used up what it may.

* **`Problem.Fits`** — the feasible points are points of the domain.
* **`Variable.validated_ok`**, **`Variable.standard_of_validated`** — what a check of a variable
  ensures.
* **`Search.new_eq`**, **`Search.new_frame`**, **`Search.new_ok`** — a search at its start.
* **`Problem.Fits.contains_root`** — the root holds all feasible points.
* **`Search.Warrants`**, **`Search.warrants_of_check`** — what holds when a search is over. -/

namespace BranchBound

variable {α : Type} [Scalar α]

/-! ## The domain -/

/-- The feasible points of a problem are points of the domain of the variables. -/
structure Problem.Fits (p : Problem α) (vars : List (Variable α)) : Prop where
  /-- A point has a coordinate for each variable. -/
  length : ∀ x ∈ p.points, x.length = vars.length
  /-- The coordinates lie in the domains. -/
  bounds : ∀ x ∈ p.points, ∀ i v, vars[i]? = some v → v.lower ≤ x.getD i 0 ∧ x.getD i 0 ≤ v.upper
  /-- The coordinates of discrete variables are whole. -/
  integral : ∀ x ∈ p.points, Integral vars x

namespace Variable

variable [Scalar.Exact α] {u v : Variable α}

/-- The bounds that a kind admits between two finite ones are finite. -/
theorem isFinite_inward {lower upper : α} (kind : VariableKind)
    (hlower : Scalar.isFinite lower = true) (hupper : Scalar.isFinite upper = true) :
    Scalar.isFinite (inward kind lower upper).1 = true
      ∧ Scalar.isFinite (inward kind lower upper).2 = true := by
  cases kind with
  | continuous => exact ⟨hlower, hupper⟩
  | integer => exact ⟨Scalar.Exact.isFinite_ceil hlower, Scalar.Exact.isFinite_floor hupper⟩
  | binary =>
    refine ⟨Scalar.Exact.isFinite_ceil ?_, Scalar.Exact.isFinite_floor ?_⟩
    · rcases Scalar.greatest_eq_or lower 0 with h | h <;> rw [h]
      · exact hlower
      · exact Scalar.Exact.isFinite_zero
    · rcases Scalar.least_eq_or upper 1 with h | h <;> rw [h]
      · exact hupper
      · exact Scalar.Exact.isFinite_one

omit [Scalar.Exact α] in
/-- A variable that passes its check has finite bounds and a finite priority that is not negative,
and its domain is shrunk to what its kind admits, which leaves some values. -/
theorem validated_ok (h : u.validated = .ok v) :
    (Scalar.isFinite u.lower = true ∧ Scalar.isFinite u.upper = true)
      ∧ (Scalar.isFinite v.priority = true ∧ ¬ v.priority < 0)
      ∧ v.kind = u.kind ∧ (v.lower, v.upper) = inward u.kind u.lower u.upper
      ∧ ¬ v.upper < v.lower := by
  unfold validated at h
  -- four checks: bounds that are finite, in order, a sound priority, and a domain that is not empty
  split at h
  · cases h
  · next hfinite =>
    rw [Bool.or_eq_true, not_or, Bool.not_eq_true', Bool.not_eq_false, Bool.not_eq_true',
      Bool.not_eq_false] at hfinite
    split at h
    · cases h
    · split at h
      · cases h
      · next hpriority =>
        rw [Bool.or_eq_true, not_or, Bool.not_eq_true', Bool.not_eq_false, decide_eq_true_eq]
          at hpriority
        dsimp only at h
        split at h
        · cases h
        · next hordered =>
          cases h
          exact ⟨hfinite, hpriority, rfl, rfl, hordered⟩

omit [Scalar.Exact α] in
/-- A check of a variable keeps its priority. -/
theorem priority_of_validated (h : u.validated = .ok v) : v.priority = u.priority := by
  unfold validated at h
  split at h
  · cases h
  · split at h
    · cases h
    · split at h
      · cases h
      · dsimp only at h
        split at h <;> cases h
        rfl

/-- A variable in standard form has finite bounds. -/
theorem isFinite_of_validated (h : u.validated = .ok v) :
    Scalar.isFinite v.lower = true ∧ Scalar.isFinite v.upper = true := by
  obtain ⟨hfinite, -, -, hbounds, -⟩ := validated_ok h
  have hinward := isFinite_inward u.kind hfinite.1 hfinite.2
  rw [← hbounds] at hinward
  exact hinward

omit [Scalar α] [Scalar.Exact α] in
/-- A variable that passes its check is in standard form then. -/
theorem standard_of_validated {K : Type} [Field K] [LinearOrder K] [FloorRing K]
    [IsStrictOrderedRing K] {u v : Variable (Extended K)} (h : u.validated = .ok v) :
    v.Standard := by
  obtain ⟨hlower, hupper⟩ := isFinite_of_validated h
  obtain ⟨hfinite, -, hkind, hbounds, hordered⟩ := validated_ok h
  refine ⟨hlower, hupper, Scalar.le_of_not_lt (Scalar.Exact.isNaN_of_isFinite hupper)
    (Scalar.Exact.isNaN_of_isFinite hlower) hordered, fun hdiscrete => ?_⟩
  rw [hkind] at hdiscrete
  -- the bounds of a discrete variable are rounded inwards
  have hwhole : Scalar.IsWhole (inward u.kind u.lower u.upper).1
      ∧ Scalar.IsWhole (inward u.kind u.lower u.upper).2 := by
    cases hkind : u.kind with
    | continuous =>
      rw [hkind] at hdiscrete
      cases hdiscrete
    | integer => exact ⟨Extended.isWhole_ceil hfinite.1, Extended.isWhole_floor hfinite.2⟩
    | binary =>
      refine ⟨Extended.isWhole_ceil ?_, Extended.isWhole_floor ?_⟩
      · rcases Scalar.greatest_eq_or u.lower 0 with heq | heq <;> rw [heq]
        · exact hfinite.1
        · rfl
      · rcases Scalar.least_eq_or u.upper 1 with heq | heq <;> rw [heq]
        · exact hfinite.2
        · rfl
  rw [← hbounds] at hwhole
  exact hwhole

end Variable

/-- What a function that may fail answers for each entry of a list. -/
theorem forall_mem_of_mapM {ε β γ : Type} {f : β → Except ε γ} {xs : List β} {ys : List γ}
    (h : xs.mapM f = .ok ys) : ∀ y ∈ ys, ∃ x ∈ xs, f x = .ok y := by
  induction xs generalizing ys with
  | nil =>
    cases h
    intro y hy
    cases hy
  | cons x xs ih =>
    rw [List.mapM_cons] at h
    rcases hx : f x with e | z
    · rw [hx] at h
      cases h
    · rcases hxs : xs.mapM f with e | zs
      · rw [hx, hxs] at h
        cases h
      · rw [hx, hxs] at h
        cases h
        intro y hy
        rcases List.mem_cons.mp hy with rfl | hy
        · exact ⟨x, List.mem_cons_self, hx⟩
        · obtain ⟨w, hw, heq⟩ := ih hxs y hy
          exact ⟨w, List.mem_cons_of_mem _ hw, heq⟩

/-- What holds of the answer of a computation that may fail, if it is known to give one. -/
theorem exists_eq_ok {ε β : Type} {answer : Except ε β} {P : β → Prop}
    (h : ∃ x ∈ answer.toOption, P x) : ∃ x, answer = .ok x ∧ P x := by
  obtain ⟨x, hx, hP⟩ := h
  cases answer with
  | error e => cases hx
  | ok y =>
    cases hx
    exact ⟨x, rfl, hP⟩

/-- The root holds the points of the domain. -/
theorem Problem.Fits.contains_root {p : Problem α} {vars : List (Variable α)} {x : List α}
    (h : p.Fits vars) (hfinite : ∀ v ∈ vars, Scalar.isFinite v.lower = true
      ∧ Scalar.isFinite v.upper = true) (hx : x ∈ p.points) : (Node.root vars).box.Contains x := by
  have hlength := h.length x hx
  -- the bounds of the root are those of the variables
  have hbounds : ∀ i < x.length, ∃ v, vars[i]? = some v
      ∧ (Node.root vars).box.lowerAt i = v.lower ∧ (Node.root vars).box.upperAt i = v.upper := by
    intro i hi
    rw [hlength] at hi
    exact ⟨vars[i], List.getElem?_eq_getElem hi, Box.bounds_root (List.getElem?_eq_getElem hi)⟩
  refine ⟨⟨?_, ?_, fun i hi => ?_, fun i hi => ?_⟩, fun i hi => ?_, fun i hi => ?_⟩
  · exact (List.length_map _).trans hlength.symm
  · exact (List.length_map _).trans hlength.symm
  all_goals obtain ⟨v, hv, hlower, hupper⟩ := hbounds i hi
  · rw [hlower]
    exact (h.bounds x hx i v hv).1
  · rw [hupper]
    exact (h.bounds x hx i v hv).2
  · rw [hlower]
    exact (hfinite v (List.mem_of_getElem? hv)).1
  · rw [hupper]
    exact (hfinite v (List.mem_of_getElem? hv)).2

/-! ## The first state -/

/-- The brancher of a search before it is offered the root. -/
def Brancher.opening (valid : List (Variable α)) (settings : Settings α) : Brancher α where
  vars := valid
  frontier := ((Frontier.new .bestBound).setSelection settings.selection).setTolerances
    settings.relTolerance settings.absTolerance
  pseudocosts := .new valid.length
  waiting := []
  rule := settings.rule
  scoring := settings.scoring

namespace Brancher

/-- The frontier of this brancher is consistent. -/
theorem consistent_opening [Scalar.Ordered α] (valid : List (Variable α)) (settings : Settings α) :
    (opening valid settings).frontier.Consistent :=
  ((Frontier.consistent_new .bestBound).setSelection _).of_eq rfl rfl rfl rfl

/-- No node is open. -/
theorem nodes_opening (valid : List (Variable α)) (settings : Settings α) :
    (opening valid settings).frontier.nodes = 0 := by
  show Frontier.nodes ((Frontier.new .bestBound).setSelection settings.selection) = 0
  rw [Frontier.nodes_of_perm (Frontier.toList_setSelection _ _)]
  rfl

/-- None was refused. -/
theorem lowestRefused_opening (valid : List (Variable α)) (settings : Settings α) :
    (opening valid settings).frontier.lowestRefused = Scalar.infinity :=
  Frontier.lowestRefused_setSelection (Frontier.new .bestBound) settings.selection

/-- There is no threshold. -/
theorem threshold_opening (valid : List (Variable α)) (settings : Settings α) :
    (opening valid settings).frontier.threshold = Scalar.infinity :=
  (Frontier.sameLimits_setSelection (Frontier.new .bestBound) settings.selection).threshold

/-- The id zero is that of the root. -/
theorem nextId_opening (valid : List (Variable α)) (settings : Settings α) :
    (opening valid settings).frontier.nextId = 1 :=
  Frontier.nextId_setSelection (Frontier.new .bestBound) settings.selection

end Brancher

namespace Search

variable {vars : List (Variable α)} {settings : Settings α} {start : Search α}

/-- A search starts under valid settings only. -/
theorem validate_of_new (h : Search.new vars settings = .ok start) :
    settings.validate = .ok () := by
  unfold Search.new at h
  cases hvalidate : settings.validate with
  | error e => rw [hvalidate] at h; cases h
  | ok u => rfl

/-- The parts of a search at its start: the root is offered to a frontier without nodes. -/
theorem new_eq (h : Search.new vars settings = .ok start) :
    ∃ valid, vars.mapM Variable.validated = .ok valid ∧ start
      = ⟨{ Brancher.opening valid settings with
            frontier := ((Brancher.opening valid settings).frontier.insert
              ⟨.root valid, 0, .unsplit⟩).2 }, .none, {}, {}, settings, [], Scalar.infinity⟩ := by
  unfold Search.new Brancher.new at h
  cases hvalidate : settings.validate with
  | error e => rw [hvalidate] at h; cases h
  | ok u =>
    rw [hvalidate] at h
    by_cases hempty : vars.isEmpty = true
    · rw [if_pos hempty] at h
      cases h
    · rw [if_neg hempty] at h
      cases hvars : vars.mapM Variable.validated with
      | error e => rw [hvars] at h; cases h
      | ok valid =>
        rw [hvars] at h
        change ((do
          let _ ← ((Brancher.opening valid settings).insertRoot (.root valid)).1
          return ⟨((Brancher.opening valid settings).insertRoot (.root valid)).2, .none, {}, {},
            settings, [], Scalar.infinity⟩) : Except (Error α) (Search α)) = _ at h
        rcases hroot : (Brancher.opening valid settings).insertRoot (.root valid)
          with ⟨e | taken, b⟩ <;>
          rw [hroot] at h <;> cases h
        -- the root has an id already, and it is kept clear of
        have hspent : (Node.root valid).id < (Brancher.opening valid settings).frontier.nextId := by
          rw [Brancher.nextId_opening]
          exact Nat.one_pos
        have hreserved := Frontier.reserveIds_of_lt hspent
        rw [Brancher.insertScored_ok hroot, hreserved]
        exact ⟨valid, rfl, rfl⟩

/-- Valid settings and variables start a search. -/
theorem exists_new {v : Variable α} {rest : List (Variable α)}
    (hsettings : settings.validate = .ok ())
    (hvars : vars.mapM Variable.validated = .ok (v :: rest)) :
    ∃ start, Search.new vars settings = .ok start := by
  have hnonempty : ¬ vars.isEmpty = true := by
    rw [List.isEmpty_iff]
    rintro rfl
    cases hvars
  -- the root has as many bounds as there are variables, so that it is not refused
  have hroot : ∃ taken b, (Brancher.opening (v :: rest) settings).insertRoot (.root (v :: rest))
      = (.ok taken, b) := by
    unfold Brancher.insertRoot Brancher.insertScored
    rw [Brancher.dimensionFault_eq_none (List.length_map _) (List.length_map _)]
    exact ⟨_, _, rfl⟩
  obtain ⟨taken, b, hroot⟩ := hroot
  unfold Search.new Brancher.new
  rw [hsettings, if_neg hnonempty, hvars]
  change ∃ start, ((do
    let _ ← ((Brancher.opening (v :: rest) settings).insertRoot (.root (v :: rest))).1
    return ⟨((Brancher.opening (v :: rest) settings).insertRoot (.root (v :: rest))).2, .none, {},
      {}, settings, [], Scalar.infinity⟩) : Except (Error α) (Search α)) = .ok start
  rw [hroot]
  exact ⟨_, rfl⟩

/-- A search at its start knows no point, waits for no node and runs under the settings. -/
theorem new_frame (h : Search.new vars settings = .ok start) :
    start.incumbent = .none ∧ start.brancher.waiting = [] ∧ start.settings = settings := by
  obtain ⟨valid, -, rfl⟩ := new_eq h
  exact ⟨rfl, rfl, rfl⟩

/-- The variables of a search are those given to it, as they passed their checks, and its rule is
that of the settings. -/
theorem new_brancher (h : Search.new vars settings = .ok start) :
    vars.mapM Variable.validated = .ok start.brancher.vars
      ∧ start.brancher.rule = settings.rule := by
  obtain ⟨valid, hvars, rfl⟩ := new_eq h
  exact ⟨hvars, rfl⟩

/-- The search at its start has the root offered to an empty frontier. -/
theorem new_ok [Scalar.Ordered α] (h : Search.new vars settings = .ok start) :
    (∀ v ∈ start.brancher.vars, ∃ u ∈ vars, u.validated = .ok v)
      ∧ start.stats.processed = 0 ∧ start.requeued = []
      ∧ ∃ f : Frontier α, f.Consistent ∧ f.nodes = 0 ∧ f.nextId = 1
        ∧ start.brancher.frontier
          = (f.insert ⟨Node.root start.brancher.vars, 0, .unsplit⟩).2 := by
  obtain ⟨valid, hvars, rfl⟩ := new_eq h
  exact ⟨forall_mem_of_mapM hvars, rfl, rfl, (Brancher.opening valid settings).frontier,
    Brancher.consistent_opening valid settings, Brancher.nodes_opening valid settings,
    Brancher.nextId_opening valid settings, rfl⟩

/-- At the start no node but the root is open. -/
theorem eq_root_of_new [Scalar.Ordered α] {n : Node α} (h : Search.new vars settings = .ok start)
    (hn : n ∈ start.brancher.frontier.nodes) : n = .root start.brancher.vars := by
  obtain ⟨-, -, -, f, hf, hnodes, -, hfrontier⟩ := new_ok h
  rw [hfrontier] at hn
  have hroot := Multiset.mem_of_le (hf.nodes_insert_le _) hn
  rw [hnodes, Multiset.mem_cons] at hroot
  exact hroot.resolve_right (Multiset.notMem_zero n)

omit [Scalar α] in
/-- A search starts with variables in standard form. -/
theorem standard_new {K : Type} [Field K] [LinearOrder K] [FloorRing K] [IsStrictOrderedRing K]
    {vars : List (Variable (Extended K))} {settings : Settings (Extended K)}
    {start : Search (Extended K)} (h : Search.new vars settings = .ok start) :
    ∀ v ∈ start.brancher.vars, v.Standard := by
  intro v hv
  obtain ⟨u, -, hu⟩ := (new_ok h).1 v hv
  exact Variable.standard_of_validated hu

/-! ## The end -/

variable {s : Search α} {outLowest : Option α} {status : Status}

/-- What must be so for a search to be over with a status, given the lowest score of the nodes that
are out. -/
def Warrants (s : Search α) (outLowest : Option α) : Status → Prop
  | .globallyOptimal =>
      (s.brancher.frontier.size = 0 ∧ outLowest.isNone = true) ∧ s.incumbent.isKnown = true
  | .infeasible =>
      (s.brancher.frontier.size = 0 ∧ outLowest.isNone = true) ∧ ¬ s.incumbent.isKnown = true
  | .targetUpperReached => ∃ target ∈ s.settings.targetUpper, s.incumbent.value ≤ target
  | .targetLowerReached =>
      ¬ (s.brancher.frontier.size = 0 ∧ outLowest.isNone = true)
        ∧ ∃ target ∈ s.settings.targetLower, target ≤ s.openBound outLowest
  | .nodeLimit => s.settings.maxNodes ≤ s.stats.processed
  | .wallTimeLimit => s.usage.elapsed.reaches s.settings.timeLimit = true
  | .cpuTimeLimit => s.usage.cpuTime.reaches s.settings.cpuTimeLimit = true
  | .memoryLimit => s.settings.memoryLimit.any (· ≤ s.brancher.frontier.footprint) = true
  | .failed => False

/-- A search is over with a status for what the status says. -/
theorem warrants_of_check (h : s.check outLowest = some status) : s.Warrants outLowest status := by
  unfold check exhaustedStatus resourceLimit? at h
  split at h
  · next hexhausted =>
    split at h
    · next hknown =>
      cases h
      exact ⟨hexhausted, hknown⟩
    · next hunknown =>
      cases h
      exact ⟨hexhausted, hunknown⟩
  · next hopen =>
    -- the reasons in the order in which they are looked at
    split_ifs at h with hupper hlower hnodes htime hcpu hmemory <;> cases h
    · obtain ⟨target, htarget, hle⟩ := (Option.any_eq_true _ _).mp hupper
      exact ⟨target, htarget, of_decide_eq_true hle⟩
    · obtain ⟨target, htarget, hle⟩ := (Option.any_eq_true _ _).mp hlower
      exact ⟨hopen, target, htarget, of_decide_eq_true hle⟩
    · exact hnodes
    · exact htime
    · exact hcpu
    · exact hmemory

/-- A node is open or out in a search that is not over. -/
theorem open_or_out (hcheck : s.check outLowest = none) :
    ¬ (s.brancher.frontier.size = 0 ∧ outLowest = none) := by
  rintro ⟨hsize, rfl⟩
  unfold check at hcheck
  rw [if_pos ⟨hsize, rfl⟩] at hcheck
  cases hcheck

/-- A node is open in a search that is not over while no node is out. -/
theorem isEmpty_eq_false (hcheck : s.check none = none) :
    s.brancher.frontier.isEmpty = false := by
  have hsize : s.brancher.frontier.size ≠ 0 := fun hsize => open_or_out hcheck ⟨hsize, rfl⟩
  exact eq_false_of_ne_true fun hempty => hsize (Array.isEmpty_iff_size_eq_zero.mp hempty)

end Search

end BranchBound
