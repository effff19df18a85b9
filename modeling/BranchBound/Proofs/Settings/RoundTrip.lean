import BranchBound.Proofs.Json.Forms
import BranchBound.Proofs.Json.Reading
import BranchBound.Proofs.Settings.Classes
import BranchBound.Proofs.Settings.Validity

/-! # Settings come out of their text, but for infinite targets

Every setting is written under its name and read again from there. A target that is infinite is
allowed, but there is no numeral for it: it is written as if it were absent, and absent it is when
the text is read. All other settings of valid settings come back as they were.

* **`Settings.ofText_toText`** — what the text of settings is read as.
* **`Settings.ofText_toText_eq_self_iff`** — which settings come back unchanged. -/

namespace BranchBound.Settings

open JsonForm

variable {α : Type} [Scalar α] {s : Settings α}

/-! ## Members of the text -/

/-- The members of the object that settings are written as. -/
def members (s : Settings α) : List (Option String × Json) :=
  (fields.map fun field => (field.name, field.write s)).map fun (name, value) => (some name, value)

/-- The names of the settings are distinct. -/
theorem nodup_names : ((fields : List (Field α)).map (·.name)).Nodup := by
  show ["max_nodes", "time_limit_ms", "cpu_time_limit_ms", "max_tree_memory_bytes",
    "target_lower_bound", "target_upper_bound", "abs_pruning_tol", "rel_pruning_tol",
    "node_selection", "branching_strategy", "node_score", "rel_node_size_tol",
    "strong_branching_max_depth", "num_workers", "sync_tick_ms", "drain_timeout_ms", "verbose",
    "log_freq"].Nodup
  decide

/-- The value of a setting is found under its name. -/
theorem lastValue?_members {field : Field α} (h : field ∈ fields) :
    lastValue? s.members field.name = some (field.write s) := by
  have hnodup :
      ((fields.map fun field : Field α => (field.name, field.write s)).map (·.1)).Nodup := by
    rw [List.map_map]
    exact nodup_names
  have hfilter := Json.filter_name hnodup (List.mem_map_of_mem h)
  unfold lastValue? members
  rw [← List.head?_filter, List.filter_reverse, hfilter]
  rfl

/-- Settings are read from their members one by one. -/
theorem foldlM_members (fs : List (Field α)) (h : ∀ field ∈ fs, field ∈ fields) (t : Settings α) :
    fs.foldlM (readMember s.members) t
      = fs.foldlM (fun t field => field.read (field.write s) t) t := by
  induction fs generalizing t with
  | nil => rfl
  | cons field fs ih =>
    have hread : readMember s.members t field = field.read (field.write s) t := by
      unfold readMember
      rw [lastValue?_members (h field List.mem_cons_self)]
    rw [List.foldlM_cons, List.foldlM_cons, hread]
    exact congrArg _ (funext fun u => ih (fun f hf => h f (List.mem_cons_of_mem _ hf)) u)

/-! ## Values of the members -/

/-- A value that can stand as a setting: it can be written and stored, and is no array or object. -/
structure IsValue (α : Type) [Scalar α] (j : Json) : Prop where
  /-- It can be written. -/
  writable : j.IsWritable
  /-- It can be stored. -/
  storable : j.isStorable α = true
  /-- It holds no other values. -/
  depth_eq : j.depth = 0

/-- An object of such values can be written. -/
theorem isWritable_toJson (h : ∀ field ∈ fields, IsValue α (field.write s)) :
    s.toJson.IsWritable :=
  .ofMembers (List.forall_mem_map.mpr fun field hfield => (h field hfield).writable)

/-- An object of such values can be stored. -/
theorem isStorable_toJson (h : ∀ field ∈ fields, IsValue α (field.write s)) :
    s.toJson.isStorable α = true := by
  show Json.isStorable.membersStorable α s.members = true
  unfold members
  revert h
  generalize (fields : List (Field α)) = fs
  intro h
  induction fs with
  | nil => rfl
  | cons field fs ih =>
    rw [List.map_cons, List.map_cons, Json.isStorable.membersStorable,
      (h field List.mem_cons_self).storable, ih fun f hf => h f (List.mem_cons_of_mem _ hf)]
    rfl

/-- An object of such values has depth one. -/
theorem depth_toJson (h : ∀ field ∈ fields, IsValue α (field.write s)) : s.toJson.depth = 1 := by
  show Json.depth.depthOfMembers s.members + 1 = 1
  rw [Nat.add_eq_right]
  unfold members
  revert h
  generalize (fields : List (Field α)) = fs
  intro h
  induction fs with
  | nil => rfl
  | cons field fs ih =>
    rw [List.map_cons, List.map_cons, Json.depth.depthOfMembers,
      (h field List.mem_cons_self).depth_eq, ih fun f hf => h f (List.mem_cons_of_mem _ hf)]
    rfl

/-- The text of such an object is read as the object. -/
theorem jsonOfText?_toText (h : ∀ field ∈ fields, IsValue α (field.write s)) :
    jsonOfText? α s.toText = some (.object s.members) := by
  have hparse : Json.parse? s.toText = some s.toJson := (isWritable_toJson h).parse?_render
  have haccepted : (s.toJson.isStorable α && decide (s.toJson.depth ≤ depthLimit)) = true := by
    rw [isStorable_toJson h, depth_toJson h]
    rfl
  unfold jsonOfText?
  rw [hparse, Option.filter, if_pos haccepted]
  rfl

/-! ## Forms -/

variable [Scalar.Legible α]

/-- A word stands as a setting. -/
theorem isValue_word {n : Nat} (h : n < wordRange) : IsValue α ((word wordRange).write n) :=
  ⟨.number (Numeral.isProper_ofNat n), Scalar.Legible.isSome_ofNat h, rfl⟩

omit [Scalar.Legible α] in
/-- A value that may be absent stands as a setting if it stands as one when it is there. -/
theorem isValue_optional {β : Type} {form : JsonForm β} {x : Option β}
    (h : ∀ y ∈ x, IsValue α (form.write y)) : IsValue α (form.optional.write x) := by
  cases x with
  | none => exact ⟨.null, rfl, rfl⟩
  | some y => exact h y rfl

/-- A scalar stands as a setting. -/
theorem isValue_scalar {x : α} (h : Scalar.ReadsBack x) : IsValue α (scalar.write x) := by
  have hcarries := carries_scalar h
  refine ⟨hcarries.writable, ?_, ?_⟩
  · unfold JsonForm.scalar Json.ofScalar
    dsimp only
    split
    · next hfinite =>
      show (Scalar.ofNumeral? _).isSome = true
      rw [h hfinite]
      rfl
    · rfl
  · unfold JsonForm.scalar Json.ofScalar
    dsimp only
    split
    · rfl
    · rfl

omit [Scalar.Legible α] in
/-- A name stands as a setting. -/
theorem isValue_string (name : String) : IsValue α (.ofString name) := ⟨.text name, rfl, rfl⟩

omit [Scalar.Legible α] in
/-- A truth value stands as a setting. -/
theorem isValue_bool (b : Bool) : IsValue α (.bool b) := ⟨.bool b, rfl, rfl⟩

omit [Scalar.Legible α] in
/-- A scalar that may be absent is read as absent if it is not finite. -/
theorem read_write_optional {x : Option α} (h : ∀ y ∈ x, Scalar.ReadsBack y) :
    scalar.optional.read (scalar.optional.write x) = some (x.filter Scalar.isFinite) := by
  cases x with
  | none => rfl
  | some y =>
    -- a scalar that is not finite is written like one that is absent
    cases hfinite : Scalar.isFinite y with
    | false =>
      have hwrite : scalar.write y = .null := if_neg (Bool.eq_false_iff.mp hfinite)
      show scalar.optional.read (scalar.write y) = _
      rw [hwrite, Option.filter, hfinite]
      rfl
    | true =>
      have hwrite : scalar.write y
          = .number (Layout.wire.numeral (Scalar.toDecimal Layout.wire.tie y)) := if_pos hfinite
      show scalar.optional.read (scalar.write y) = _
      rw [hwrite, Option.filter, hfinite, if_pos rfl]
      show (Scalar.ofNumeral? _).map some = _
      rw [h y rfl hfinite]
      rfl

/-! ## The settings -/

/-- The words of settings are in range. -/
structure Fits (s : Settings α) : Prop where
  /-- The number of nodes is a word. -/
  maxNodes_lt : s.maxNodes < wordRange
  /-- The limit on the time is a word. -/
  timeLimit_lt : ∀ n ∈ s.timeLimit, n < wordRange
  /-- The limit on the computing time is a word. -/
  cpuTimeLimit_lt : ∀ n ∈ s.cpuTimeLimit, n < wordRange
  /-- The limit on the memory is a word. -/
  memoryLimit_lt : ∀ n ∈ s.memoryLimit, n < wordRange
  /-- The depth of strong branching is a word. -/
  strongDepth_lt : s.strongDepth < wordRange
  /-- The number of workers is a word. -/
  workers_lt : s.workers < wordRange
  /-- The tick is a word. -/
  tick_lt : s.tick < wordRange
  /-- The time for late results is a word. -/
  drainTime_lt : s.drainTime < wordRange
  /-- The number of nodes between two logs is a word. -/
  logFrequency_lt : s.logFrequency < wordRange

/-- The scalars of settings. -/
def scalars (s : Settings α) : List α :=
  s.targetLower.toList ++ (s.targetUpper.toList
    ++ [s.absTolerance, s.relTolerance, s.sizeTolerance])

/-- The settings without the targets that are infinite. -/
def withFiniteTargets (s : Settings α) : Settings α :=
  { s with
    targetLower := s.targetLower.filter Scalar.isFinite
    targetUpper := s.targetUpper.filter Scalar.isFinite }

omit [Scalar.Legible α] in
/-- Without infinite targets, settings have no fault that they did not have. -/
theorem fault?_withFiniteTargets (h : s.fault? = none) : s.withFiniteTargets.fault? = none := by
  have htarget : ∀ (field : String) (target : Option α), targetFault? field target = none →
      targetFault? field (target.filter Scalar.isFinite) = none := by
    intro field target hnone
    cases target with
    | none => exact hnone
    | some x =>
      rw [Option.filter]
      split
      · exact hnone
      · rfl
  obtain ⟨habs, hrel, hsize, hone, hlog, hlower, hupper⟩ := fault?_eq_none.mp h
  exact fault?_eq_none.mpr
    ⟨habs, hrel, hsize, hone, hlog, htarget _ _ hlower, htarget _ _ hupper⟩

/-- The written name of a selection is accepted. -/
theorem nodeSelection_ofName?_name (selection : NodeSelection) :
    NodeSelection.ofName? selection.name = some selection := by
  cases selection <;> decide

/-- The written name of a rule is accepted. -/
theorem branchingRule_ofName?_name (rule : BranchingRule) :
    BranchingRule.ofName? rule.name = some rule := by
  cases rule <;> decide

/-- The written name of a scoring is accepted. -/
theorem scoring_ofName?_name (scoring : Scoring) : Scoring.ofName? scoring.name = some scoring := by
  cases scoring <;> decide

omit [Scalar.Legible α] in
/-- The names of the strategies are accepted. -/
theorem nameFault?_members : nameFault? (.object s.members) = none := by
  have hselection : lastValue? s.members "node_selection" = some (.ofString s.selection.name) :=
    lastValue?_members (List.mem_of_getElem? (show fields[8]? = some _ from rfl))
  have hrule : lastValue? s.members "branching_strategy" = some (.ofString s.rule.name) :=
    lastValue?_members (List.mem_of_getElem? (show fields[9]? = some _ from rfl))
  have hscoring : lastValue? s.members "node_score" = some (.ofString s.scoring.name) :=
    lastValue?_members (List.mem_of_getElem? (show fields[10]? = some _ from rfl))
  rw [← Option.not_isSome_iff_eq_none, isSome_nameFault?_object]
  rintro (⟨value, hvalue, hnone⟩ | ⟨value, hvalue, hnone⟩ | ⟨value, hvalue, hnone⟩)
  · cases hselection.symm.trans hvalue
    cases (nodeSelection_ofName?_name s.selection).symm.trans hnone
  · cases hrule.symm.trans hvalue
    cases (branchingRule_ofName?_name s.rule).symm.trans hnone
  · cases hscoring.symm.trans hvalue
    cases (scoring_ofName?_name s.scoring).symm.trans hnone

/-- Every setting of settings in range whose scalars read back stands as one. -/
theorem isValue_of_mem (hfits : s.Fits) (hback : ∀ x ∈ s.scalars, Scalar.ReadsBack x) :
    ∀ field ∈ fields, IsValue α (field.write s) := by
  simp only [fields, List.forall_mem_cons]
  exact ⟨isValue_word hfits.maxNodes_lt,
    isValue_optional fun n hn => isValue_word (hfits.timeLimit_lt n hn),
    isValue_optional fun n hn => isValue_word (hfits.cpuTimeLimit_lt n hn),
    isValue_optional fun n hn => isValue_word (hfits.memoryLimit_lt n hn),
    isValue_optional fun x hx => isValue_scalar (hback x (by
      simp [scalars, Option.mem_toList.mpr hx])),
    isValue_optional fun x hx => isValue_scalar (hback x (by
      simp [scalars, Option.mem_toList.mpr hx])),
    isValue_scalar (hback _ (by simp [scalars])), isValue_scalar (hback _ (by simp [scalars])),
    isValue_string _, isValue_string _, isValue_string _,
    isValue_scalar (hback _ (by simp [scalars])), isValue_word hfits.strongDepth_lt,
    isValue_word hfits.workers_lt, isValue_word hfits.tick_lt, isValue_word hfits.drainTime_lt,
    isValue_bool _, isValue_word hfits.logFrequency_lt, nofun⟩

/-- Settings are read from their members, without targets that are infinite. -/
theorem ofJson?_members (hfits : s.Fits) (hback : ∀ x ∈ s.scalars, Scalar.ReadsBack x)
    (hvalid : s.fault? = none) :
    ofJson? (.object s.members) = some s.withFiniteTargets := by
  obtain ⟨habs, hrel, hsize, -⟩ := fault?_eq_none.mp hvalid
  have hscalar : ∀ x ∈ s.scalars, Scalar.isFinite x = true →
      scalar.read (scalar.write x) = some x := fun x hx hfinite => by
    rw [(carries_scalar (hback x hx)).read_write, if_pos (by simp [hfinite])]
  have hword : ∀ n < wordRange, (word wordRange).read ((word wordRange).write n) = some n :=
    fun n hn => (carries_word (α := α) hn).read_eq
  have hoptional : ∀ x : Option Nat, (∀ n ∈ x, n < wordRange) →
      (word wordRange).optional.read ((word wordRange).optional.write x) = some x :=
    fun x hx => (carries_optional_word (α := α) hx).read_eq
  -- tolerances that pass the check are finite, so they are read back as they are
  have habs := hscalar s.absTolerance (by simp [scalars]) (toleranceFault?_eq_none.mp habs).1
  have hrel := hscalar s.relTolerance (by simp [scalars]) (toleranceFault?_eq_none.mp hrel).1
  have hsize := hscalar s.sizeTolerance (by simp [scalars]) (toleranceFault?_eq_none.mp hsize).1
  have hlower := read_write_optional (x := s.targetLower) fun x hx => hback x (by
    simp [scalars, Option.mem_toList.mpr hx])
  have hupper := read_write_optional (x := s.targetUpper) fun x hx => hback x (by
    simp [scalars, Option.mem_toList.mpr hx])
  have hselection := (carries_named (α := α) (nodeSelection_ofName?_name s.selection)).read_eq
  have hrule := (carries_named (α := α) (branchingRule_ofName?_name s.rule)).read_eq
  have hscoring := (carries_named (α := α) (scoring_ofName?_name s.scoring)).read_eq
  have hverbose := (carries_bool (α := α) s.verbose).read_eq
  show fields.foldlM (readMember s.members) standard = _
  rw [foldlM_members fields fun _ h => h]
  simp only [fields, List.foldlM_cons, List.foldlM_nil, Field.of, hword _ hfits.maxNodes_lt,
    hoptional _ hfits.timeLimit_lt, hoptional _ hfits.cpuTimeLimit_lt,
    hoptional _ hfits.memoryLimit_lt, hlower, hupper, habs, hrel, hsize,
    hword _ hfits.strongDepth_lt, hword _ hfits.workers_lt, hword _ hfits.tick_lt,
    hword _ hfits.drainTime_lt, hword _ hfits.logFrequency_lt, Option.map_some,
    hselection, hrule, hscoring, hverbose, Option.bind_eq_bind, Option.bind_some]
  rfl

/-- Valid settings come out of their text as they were, but for targets that are infinite: those are
written as if they were absent. -/
theorem ofText_toText (hvalid : s.validate = .ok ()) (hfits : s.Fits)
    (hback : ∀ x ∈ s.scalars, Scalar.ReadsBack x) : ofText s.toText = .ok s.withFiniteTargets := by
  rw [validate_eq_ok] at hvalid
  unfold ofText
  simp only [jsonOfText?_toText (isValue_of_mem hfits hback), nameFault?_members,
    ofJson?_members hfits hback hvalid, fault?_withFiniteTargets hvalid]

/-- Valid settings come out of their text unchanged exactly if no target is infinite. -/
theorem ofText_toText_eq_self_iff (hvalid : s.validate = .ok ()) (hfits : s.Fits)
    (hback : ∀ x ∈ s.scalars, Scalar.ReadsBack x) :
    ofText s.toText = .ok s ↔ (∀ x ∈ s.targetLower, Scalar.isFinite x = true)
      ∧ ∀ x ∈ s.targetUpper, Scalar.isFinite x = true := by
  have hself : ∀ target : Option α, target.filter Scalar.isFinite = target ↔
      ∀ x ∈ target, Scalar.isFinite x = true := fun target => by
    cases target with
    | none => exact ⟨fun _ _ hx => (nomatch hx), fun _ => rfl⟩
    | some x => simp [Option.filter]
  rw [ofText_toText hvalid hfits hback, Except.ok.injEq, ← hself, ← hself]
  constructor
  · intro heq
    exact ⟨congrArg targetLower heq, congrArg targetUpper heq⟩
  · rintro ⟨hlower, hupper⟩
    unfold withFiniteTargets
    rw [hlower, hupper]

end BranchBound.Settings
