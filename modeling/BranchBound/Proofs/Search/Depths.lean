import BranchBound.Proofs.Brancher.Choosing
import BranchBound.Proofs.Search.Ancestry
import BranchBound.Proofs.Search.Budgets
import BranchBound.Proofs.Search.Delving

/-! # How deep nodes are split by diameter

Under a rule by diameter a node that is wider than the size tolerance somewhere is split where it is
wider than a grain, which depends on the variables, the rule and the tolerance alone. So there is a
depth beyond which no node is split, and a number of nodes after which a search ends, whatever its
solvers answer. Strong branching splits nodes in any dimension, and nodes may be split that much
deeper.

* **`Search.coarse_of_diameter`** — the grain.
* **`Search.exists_depth`** — the depth and the number of nodes.
* **`Serial.Hands`** — what a round does first, in a form that can be computed. -/

namespace BranchBound

variable {K : Type} [Field K] [LinearOrder K] [FloorRing K] [IsStrictOrderedRing K]
  {vars : List (Variable (Extended K))} {rule : BranchingRule} {tolerance : K}

namespace Search

/-- A search by diameter over variables of positive priority splits nodes only where they are wider
than the grain. -/
theorem coarse_of_diameter {settings : Settings (Extended K)} {start : Search (Extended K)}
    (hrule : settings.rule ≠ .pseudocost) (hpriority : ∀ v ∈ vars, 0 < v.priority)
    (htolerance : 0 < tolerance) (hsize : settings.sizeTolerance = .point tolerance)
    (hstart : Search.new vars settings = .ok start) :
    start.Coarse fun _ => Brancher.grain start.brancher.vars settings.rule tolerance := by
  have hstandard := standard_new hstart
  obtain ⟨hvalid, hstartRule⟩ := new_brancher hstart
  -- a priority that passes its check is finite, and it is that of the given variable
  have hpositive : ∀ v ∈ start.brancher.vars,
      Scalar.isFinite v.priority = true ∧ 0 < v.priority.value := by
    intro v hv
    obtain ⟨u, hu, hcheck⟩ := forall_mem_of_mapM hvalid v hv
    obtain ⟨hfinite, -⟩ := (Variable.validated_ok hcheck).2.1
    obtain ⟨q, hq⟩ := Extended.isFinite_iff.mp hfinite
    have hlt := hpriority u hu
    rw [← Variable.priority_of_validated hcheck, hq] at hlt
    refine ⟨hfinite, ?_⟩
    rw [hq]
    exact Extended.point_lt_point.mp hlt
  refine ⟨hstandard, fun _ _ => Brancher.grain_pos (fun v hv => (hpositive v hv).2) htolerance,
    fun {box point i v} hbox hchooses _ => ?_⟩
  obtain ⟨b, hb, hbrule, hbelow, hchoose⟩ := hchooses.choice
  rw [(new_frame hstart).2.2, hsize] at hbelow
  have hinside := (Brancher.inside_roundDiscrete hbox hstandard hchooses.full).1
  rw [← hb] at hstandard hpositive hinside hbelow hchoose ⊢
  rw [← hstartRule, ← hbrule] at hrule ⊢
  exact Brancher.grain_lt_of_choose hrule hstandard hpositive htolerance hinside hbelow hchoose

/-- Under a rule by diameter and a positive size tolerance there are a depth and a number of nodes,
which depend on the variables, the rule and the tolerance alone: no node is split below the depth in
an asynchronous search, none below the depth for strong branching and that depth in a serial one, as
long as depths do not run out, and a serial search without strong branching ends after so many
nodes. Solvers may answer anything if they do nothing but shrink boxes when they tighten a node. The
depth is how often the domain can be halved down to the grain, and the nodes are those of a full
tree. -/
theorem exists_depth (hrule : rule ≠ .pseudocost) (hpriority : ∀ v ∈ vars, 0 < v.priority)
    (htolerance : 0 < tolerance) :
    ∃ depth nodes : ℕ, ∀ {σ : Type} (solvers : Solvers σ (Extended K)) settings start,
      solvers.Tighten Node.Shrunk → settings.rule = rule →
      settings.sizeTolerance = .point tolerance → Search.new vars settings = .ok start →
        (∀ k s n t, Async.Descent solvers start k s n t → k ≤ depth)
        ∧ (settings.strongDepth = 0 ∨ settings.strongDepth + depth < depthRange →
          ∀ k run n after, Serial.Descent solvers start k run n after →
            Serial.Splits solvers run n after → k ≤ settings.strongDepth + depth)
        ∧ (settings.strongDepth = 0 → ∀ memory,
          (Serial.search solvers ⟨start, memory⟩).2.search.stats.processed ≤ nodes)
        ∧ depth = start.depthLeft (fun _ => Brancher.grain start.brancher.vars rule tolerance)
        ∧ nodes = 3 * 2 ^ depth - 1 := by
  cases hvalid : vars.mapM Variable.validated with
  | error e =>
    refine ⟨0, 0, fun solvers settings start _ _ _ hstart => ?_⟩
    cases hvalid.symm.trans (new_brancher hstart).1
  | ok valid =>
    generalize hdepth : Brancher.depthLeft valid (fun _ => Brancher.grain valid rule tolerance)
      (Node.root valid).box = depth
    refine ⟨depth, 3 * 2 ^ depth - 1, fun solvers settings start hs hsettings hsize hstart => ?_⟩
    have hcoarse := coarse_of_diameter (hsettings ▸ hrule) hpriority htolerance hsize hstart
    obtain ⟨hnone, -, hstartSettings⟩ := new_frame hstart
    cases hvalid.symm.trans (new_brancher hstart).1
    rw [hsettings] at hcoarse
    have hdepth : start.depthLeft
        (fun _ => Brancher.grain start.brancher.vars rule tolerance) = depth := hdepth
    have hcontinues := Continues.new hstart
    have hdef : Scalar.isNaN start.incumbent.value = false := by
      rw [hnone]
      rfl
    refine ⟨fun k s n t hdescent => ?_, fun hdepths k run n after hdescent _ => ?_,
      fun hstrong memory => ?_, hdepth.symm, rfl⟩
    · have hroom := (Async.descends hcontinues hcoarse.descends hs hdescent).room
      rw [Nat.sub_zero, hdepth] at hroom
      exact (Nat.le_add_right _ _).trans hroom
    · have hdescends := hcoarse.descendsStrongly (by rw [hstartSettings]) (hdepth.symm ▸ hdepths)
      have hroom := (Serial.descends hcontinues hdef hdescends hs hdescent).1.room
      rw [hdepth] at hroom
      omega
    · have hprocessed := Serial.processed_search_le hstart hcoarse hstrong hs memory
      rwa [hdepth] at hprocessed

end Search

/-! ## A sample search -/

namespace Serial

section Hands

variable {σ α : Type} [Scalar α] {solvers : Solvers σ α} {run after : Run σ α} {n : Node α}
  {t u : Search α} {r : Report α} {memory : σ}

/-- A round that does not end the search hands out a node, and the state of the search, the node,
its report and the state of the solvers are such. -/
def Hands (solvers : Solvers σ α) (run : Run σ α)
    (P : Search α → Node α → Report α → σ → Prop) : Prop :=
  (now solvers run).check none = none
    ∧ ∃ n ∈ (now solvers run).next.1.toOption,
      ∃ r ∈ ((processNode solvers n run.search.cutoff).exec run.memory).1.toOption,
        P (now solvers run).next.2 n r
          ((processNode solvers n run.search.cutoff).exec run.memory).2

instance (P : Search α → Node α → Report α → σ → Prop)
    [∀ t n r memory, Decidable (P t n r memory)] : Decidable (Hands solvers run P) := by
  unfold Hands
  infer_instance

/-- What such a round hands out. -/
theorem Hands.exists {P : Search α → Node α → Report α → σ → Prop} (h : Hands solvers run P) :
    (now solvers run).check none = none
      ∧ ∃ n t r memory, (now solvers run).next = (.ok n, t)
        ∧ (processNode solvers n run.search.cutoff).Returns run.memory r memory
        ∧ P t n r memory := by
  obtain ⟨hcheck, hn⟩ := h
  obtain ⟨n, hnext, hr⟩ := exists_eq_ok hn
  obtain ⟨r, hprocess, hP⟩ := exists_eq_ok hr
  exact ⟨hcheck, n, _, r, _, Prod.ext hnext rfl, Prod.ext hprocess rfl, hP⟩

/-- If the node is too deep for strong branching and has to be branched, the round splits it. -/
theorem splits_of_apply (hcheck : (now solvers run).check none = none)
    (hnext : (now solvers run).next = (.ok n, t))
    (hprocess : (processNode solvers n run.search.cutoff).Returns run.memory r memory)
    (hdeep : run.search.settings.strongDepth ≤ n.depth)
    (happly : (t.apply r).1.toOption = some .branched) :
    Splits solvers run n ⟨(t.apply r).2, memory⟩ := by
  obtain ⟨_, hok, rfl⟩ := exists_eq_ok ⟨_, happly, rfl⟩
  have happly : t.apply r = (.ok .branched, (t.apply r).2) := Prod.ext hok rfl
  exact .apply hnext hprocess happly (exec_round_apply hdeep hcheck hnext hprocess happly)

/-- If it is branched strongly, the round splits it like that. -/
theorem splitsStrongly_of_strongBranch (hcheck : (now solvers run).check none = none)
    (hnext : (now solvers run).next = (.ok n, t))
    (hprocess : (processNode solvers n run.search.cutoff).Returns run.memory r memory)
    (hdepth : n.depth < t.settings.strongDepth) (hwants : wantsStrong t r = true)
    (hstrong : ((strongBranch solvers r).exec ⟨t, memory⟩).1.toOption = some .branched) :
    SplitsStrongly solvers run n ((strongBranch solvers r).exec ⟨t, memory⟩).2 := by
  obtain ⟨_, hok, rfl⟩ := exists_eq_ok ⟨_, hstrong, rfl⟩
  have hstrong : (strongBranch solvers r).exec ⟨t, memory⟩
      = (.ok .branched, ((strongBranch solvers r).exec ⟨t, memory⟩).2) := Prod.ext hok rfl
  have hopen : r.stage = .postprocessed := by
    rw [wantsStrong, Bool.and_eq_true, Bool.and_eq_true] at hwants
    exact of_decide_eq_true hwants.1.1
  exact .conclude hnext hprocess hdepth hopen hstrong (exec_round_conclude hcheck hnext hprocess
    ((exec_conclude_strong hdepth hwants).trans hstrong))

end Hands

end Serial

namespace Search

open Serial (risingSolvers)

/-- Settings under which the widest dimension is split, down to half the width of the domain. -/
def diameterSettings : Settings (Extended ℚ) :=
  { Settings.standard with rule := .absoluteDiameter, sizeTolerance := .point (1 / 2) }

/-- The root is branched strongly besides. -/
def strongDiameterSettings : Settings (Extended ℚ) := { diameterSettings with strongDepth := 1 }

/-- The domain can be halved five times. -/
theorem exists_diameterStart :
    ∃ start ∈ (Search.new Async.mixedVars diameterSettings).toOption,
      start.depthLeft
        (fun _ => Brancher.grain start.brancher.vars .absoluteDiameter (1 / 2)) = 5 := by
  decide +kernel

/-- The root is branched strongly, and the node of the next round like any other. -/
theorem exists_strongDiameterStart :
    ∃ start ∈ (Search.new Async.mixedVars strongDiameterSettings).toOption,
      (Serial.Hands risingSolvers ⟨start, ()⟩ fun t n r memory =>
        n.depth < t.settings.strongDepth ∧ Serial.wantsStrong t r = true
          ∧ ((Serial.strongBranch risingSolvers r).exec ⟨t, memory⟩).1.toOption = some .branched)
      ∧ Serial.Hands risingSolvers (Serial.afterRounds risingSolvers ⟨start, ()⟩ 1)
        fun t n r _ => n.id ≠ 0 ∧ strongDiameterSettings.strongDepth ≤ n.depth
          ∧ (t.apply r).1.toOption = some .branched := by
  decide +kernel

/-- So a split led to the second node that is split. -/
theorem exists_strongDescent :
    ∃ start run n after, Search.new Async.mixedVars strongDiameterSettings = .ok start
      ∧ Serial.Descent risingSolvers start 1 run n after
      ∧ Serial.Splits risingSolvers run n after := by
  obtain ⟨start, hstart, hfirst, hsecond⟩ := exists_eq_ok exists_strongDiameterStart
  obtain ⟨hcheck, root, t, r, memory, hnext, hprocess, hdepth, hwants, hstrong⟩ := hfirst.exists
  have hnew := Continues.new hstart
  have hmem := (mem_of_next (s := Serial.now risingSolvers ⟨start, ()⟩) hnew.consistent hnext).1
  obtain rfl := eq_root_of_new hstart hmem
  have hsplit :=
    Serial.splitsStrongly_of_strongBranch hcheck hnext hprocess hdepth hwants hstrong
  have hround := Serial.round_of_splits (.inr hsplit)
  have hafter : Serial.afterRounds risingSolvers ⟨start, ()⟩ 1
      = ((Serial.strongBranch risingSolvers r).exec ⟨t, memory⟩).2 := congrArg Prod.snd hround
  rw [hafter] at hsecond
  generalize ((Serial.strongBranch risingSolvers r).exec ⟨t, memory⟩).2 = after
    at hsplit hround hsecond
  obtain ⟨hcheck, n, u, q, memory, hnext, hprocess, hid, hdeep, happly⟩ := hsecond.exists
  have hcontinues := Serial.continues_rounds hnew (by rw [(new_frame hstart).1]; rfl)
    (.tail .refl hround)
  have hsettings : after.search.settings = strongDiameterSettings := by
    rw [hcontinues.alike.settings, (new_frame hstart).2.2]
  have hopen := (mem_of_next (s := Serial.now risingSolvers after) hcontinues.consistent hnext).1
  have hsplits := Serial.splits_of_apply hcheck hnext hprocess (hsettings ▸ hdeep) happly
  exact ⟨start, after, n, _, hstart, .child (.root .refl (.inr hsplit)) hopen
    (fun hold => hid (congrArg Node.id (eq_root_of_new hstart hold))) .refl (.inl hsplits), hsplits⟩

/-- The sample variables are split by diameter to a depth, and the search ends. -/
theorem exists_depth_mixedVars : ∃ plain start run n after,
    Search.new Async.mixedVars diameterSettings = .ok plain
      ∧ (∀ k s n t, Async.Descent risingSolvers plain k s n t → k ≤ 5)
      ∧ (Serial.search risingSolvers ⟨plain, ()⟩).2.search.stats.processed ≤ 95
      ∧ Search.new Async.mixedVars strongDiameterSettings = .ok start
      ∧ (∀ k run n after, Serial.Descent risingSolvers start k run n after →
        Serial.Splits risingSolvers run n after → k ≤ 1 + 5)
      ∧ Serial.Descent risingSolvers start 1 run n after
      ∧ Serial.Splits risingSolvers run n after := by
  obtain ⟨plain, hplain, hplainDepth⟩ := exists_eq_ok exists_diameterStart
  obtain ⟨start, run, n, after, hstart, hdescent, hsplits⟩ := exists_strongDescent
  have hs : risingSolvers.Tighten Node.Shrunk :=
    shrunk_barren fun n => ⟨rfl, rfl, rfl, .refl n.box⟩
  obtain ⟨depth, nodes, hdepth⟩ := exists_depth
    (show BranchingRule.absoluteDiameter ≠ .pseudocost from nofun)
    (show ∀ v ∈ Async.mixedVars, 0 < v.priority by decide +kernel)
    (show (0 : ℚ) < 1 / 2 by norm_num)
  obtain ⟨hasynchronous, -, hends, hfive, hfull⟩ :=
    hdepth risingSolvers diameterSettings plain hs rfl rfl hplain
  obtain ⟨-, hserial, -⟩ := hdepth risingSolvers strongDiameterSettings start hs rfl rfl hstart
  obtain rfl : depth = 5 := hfive.trans hplainDepth
  obtain rfl : nodes = 95 := hfull
  exact ⟨plain, start, run, n, after, hplain, hasynchronous, hends rfl (), hstart,
    hserial (.inr (by decide)), hdescent, hsplits⟩

end Search

end BranchBound
