import Mathlib.Data.Rat.Floor
import BranchBound.Proofs.Json.Reading
import BranchBound.Proofs.Scalar.Exact
import BranchBound.Proofs.Settings.Classes
import BranchBound.Proofs.Settings.Validity

/-! # Which objects are settings

An object gives a setting the last value that it has under its name. Settings are read from an
object if every value given is one that its setting can have, and if a search can run under the
settings that come out: those given, and the standard ones for the rest. Neither the order in which
different settings are given nor members under other names make a difference.

* **`Settings.Gives`**, **`Settings.Lacks`** — what an object has under a name.
* **`Settings.Allowed`** — every value given is one that its setting can have.
* **`Settings.Given`** — each setting is the one given, or the standard one.
* **`Settings.Rearranged`** — the same settings in another order, among other members.
* **`Settings.ofText_object`** — what the text of an object is read as. -/

namespace BranchBound.Settings

variable {α : Type} [Scalar α] {β : Type} {members others : List (Option String × Json)}
  {name : String}

/-! ## What an object gives -/

/-- A value is the last that an object has under a name. -/
def Gives (members : List (Option String × Json)) (name : String) (value : Json) : Prop :=
  ∃ before after, members = before ++ (some name, value) :: after ∧ ∀ m ∈ after, m.1 ≠ some name

/-- An object has nothing under a name. -/
def Lacks (members : List (Option String × Json)) (name : String) : Prop :=
  ∀ m ∈ members, m.1 ≠ some name

/-- The value that is looked up is the last one. -/
theorem lastValue?_eq_some {value : Json} :
    lastValue? members name = some value ↔ Gives members name value := by
  unfold lastValue? Gives
  rw [Option.map_eq_some_iff]
  constructor
  · rintro ⟨⟨other, _⟩, hfind, rfl⟩
    obtain ⟨hname, after, before, hsplit, hafter⟩ := List.find?_eq_some_iff_append.mp hfind
    rw [decide_eq_true_eq] at hname
    subst hname
    refine ⟨before.reverse, after.reverse, ?_, fun m hm => ?_⟩
    · rw [← List.reverse_reverse members, hsplit]
      simp
    · simpa using hafter m (List.mem_reverse.mp hm)
  · rintro ⟨before, after, rfl, hafter⟩
    refine ⟨(some name, value), List.find?_eq_some_iff_append.mpr ⟨by simp, after.reverse,
      before.reverse, by simp, fun m hm => ?_⟩, rfl⟩
    simpa using hafter m (List.mem_reverse.mp hm)

/-- Nothing is looked up if there is nothing. -/
theorem lastValue?_eq_none : lastValue? members name = none ↔ Lacks members name := by
  unfold lastValue? Lacks
  simp

/-- There is one last value at most. -/
theorem Gives.unique {value other : Json} (h : Gives members name value)
    (hother : Gives members name other) : value = other :=
  Option.some.inj ((lastValue?_eq_some.mpr h).symm.trans (lastValue?_eq_some.mpr hother))

/-- An object that has nothing under a name has no last value there. -/
theorem Lacks.not_gives {value : Json} (h : Lacks members name) : ¬ Gives members name value :=
  fun hgives => nomatch (lastValue?_eq_none.mpr h).symm.trans (lastValue?_eq_some.mpr hgives)

/-! ## What a setting can be -/

/-- A value is a natural number that fits a word, written without sign, point and power of ten. -/
def IsWord (value : Json) (n : Nat) : Prop :=
  ∃ digits, value = .number ⟨false, digits, [], none⟩ ∧ natOfDigits digits = n ∧ n < wordRange

/-- A value is a number. -/
def IsScalar (value : Json) (x : α) : Prop :=
  ∃ numeral, value = .number numeral ∧ Scalar.ofNumeral? numeral = some x

/-- A value is a truth value. -/
def IsTruth (value : Json) (b : Bool) : Prop := value = .bool b

/-- A value is an accepted name, whatever the case of its letters and the white space around it. -/
def IsName (table : List (β × List String)) (value : Json) (x : β) : Prop :=
  ∃ text names, value = .text (some text) ∧ (x, names) ∈ table ∧ Text.foldName text ∈ names

/-- A value is of a kind, or the empty value for nothing of it. -/
def IsOptional (stands : Json → β → Prop) (value : Json) : Option β → Prop
  | none => value = .null
  | some x => stands value x

/-- A form reads the values of a kind, as what they stand for. -/
def Reads (form : JsonForm β) (stands : Json → β → Prop) : Prop :=
  ∀ value x, form.read value = some x ↔ stands value x

/-- Words are read. -/
theorem reads_word : Reads (JsonForm.word wordRange) IsWord := by
  intro value n
  cases value with
  | number numeral =>
    obtain ⟨negative, whole, places, shift⟩ := numeral
    show (Numeral.toNat? _).filter (· < wordRange) = some n ↔ _
    constructor
    · intro hread
      obtain ⟨hnat, hlt⟩ := Option.filter_eq_some_iff.mp hread
      -- a word is written without sign, places and power
      unfold Numeral.toNat? at hnat
      split at hnat
      · next heq =>
        cases heq
        exact ⟨whole, rfl, Option.some.inj hnat, by simpa using hlt⟩
      · cases hnat
    · rintro ⟨digits, heq, hvalue, hlt⟩
      cases heq
      exact Option.filter_eq_some_iff.mpr ⟨congrArg some hvalue, by simpa using hlt⟩
  | _ => exact ⟨nofun, fun ⟨_, heq, _⟩ => nomatch heq⟩

/-- Numbers are read. -/
theorem reads_scalar : Reads (JsonForm.scalar (α := α)) IsScalar := by
  intro value x
  cases value with
  | number numeral =>
    refine ⟨fun hread => ⟨numeral, rfl, hread⟩, ?_⟩
    rintro ⟨_, heq, hread⟩
    cases heq
    exact hread
  | _ => exact ⟨nofun, fun ⟨_, heq, _⟩ => nomatch heq⟩

/-- Truth values are read. -/
theorem reads_bool : Reads JsonForm.bool IsTruth := by
  intro value b
  cases value with
  | bool other => exact ⟨fun hread => congrArg Json.bool (Option.some.inj hread),
      fun heq => congrArg some (Json.bool.inj heq)⟩
  | _ => exact ⟨nofun, nofun⟩

/-- Values that may be absent are read if those that are there are, and if the empty value is none
of them. -/
theorem Reads.optional {form : JsonForm β} {stands : Json → β → Prop} (h : Reads form stands)
    (hnull : form.read .null = none) : Reads form.optional (IsOptional stands) := by
  intro value x
  -- the empty value is read as absent before the form sees it
  by_cases hvalue : value = .null
  · subst hvalue
    cases x with
    | none => exact ⟨fun _ => rfl, fun _ => rfl⟩
    | some x => exact ⟨nofun, fun hx => nomatch hnull.symm.trans ((h .null x).mpr hx)⟩
  · have hread : form.optional.read value = (form.read value).map some := by
      unfold JsonForm.optional
      dsimp only
      split
      · contradiction
      · rfl
    rw [hread]
    cases x with
    | none => simpa [IsOptional] using hvalue
    | some x => simpa [IsOptional] using h value x

/-- A name is looked up in a table whose values share no names. -/
theorem lookupName_eq_some {table : List (β × List String)} {text : String} {x : β}
    (hdistinct : table.Pairwise fun a b => ∀ name ∈ a.2, name ∉ b.2) :
    lookupName table text = some x ↔ ∃ names, (x, names) ∈ table ∧ Text.foldName text ∈ names := by
  unfold lookupName
  rw [Option.map_eq_some_iff]
  constructor
  · rintro ⟨⟨_, names⟩, hfind, rfl⟩
    exact ⟨names, List.mem_of_find?_eq_some hfind, by simpa using List.find?_some hfind⟩
  · rintro ⟨names, hmem, hname⟩
    -- an earlier entry would be found first, but it does not share the name
    induction table with
    | nil => cases hmem
    | cons entry table ih =>
      obtain ⟨hentry, hdistinct⟩ := List.pairwise_cons.mp hdistinct
      rcases List.mem_cons.mp hmem with rfl | hmem
      · exact ⟨_, List.find?_cons_of_pos (by simpa using hname), rfl⟩
      · have hother : Text.foldName text ∉ entry.2 := fun h => hentry _ hmem _ h hname
        rw [List.find?_cons_of_neg (by simpa using hother)]
        exact ih hdistinct hmem

/-- Names are read if no two values of the table share a name. -/
theorem reads_named {table : List (β × List String)} {written : β → String}
    (hdistinct : table.Pairwise fun a b => ∀ name ∈ a.2, name ∉ b.2) :
    Reads (.named (lookupName table) written) (IsName table) := by
  intro value x
  show JsonForm.string.read value >>= lookupName table = some x ↔ _
  rw [Option.bind_eq_bind, Option.bind_eq_some_iff]
  constructor
  · rintro ⟨text, hread, hname⟩
    obtain ⟨names, hnames⟩ := (lookupName_eq_some hdistinct).mp hname
    exact ⟨text, names, Option.some.inj (bind_read_string.mp hread), hnames⟩
  · rintro ⟨text, names, rfl, hnames⟩
    exact ⟨text, rfl, (lookupName_eq_some hdistinct).mpr ⟨names, hnames⟩⟩

/-! ## Settings as given -/

/-- A setting is the value given, or the standard one if none is given. -/
def Takes (members : List (Option String × Json)) (name : String) (stands : Json → β → Prop)
    (standard x : β) : Prop :=
  (∃ value, Gives members name value ∧ stands value x) ∨ Lacks members name ∧ x = standard

/-- If a value is given, it stands for one of the setting. -/
def Allows (members : List (Option String × Json)) (name : String) (stands : Json → β → Prop) :
    Prop :=
  ∀ value, Gives members name value → ∃ x, stands value x

/-- Every value given is one that its setting can have. -/
structure Allowed (α : Type) [Scalar α] (members : List (Option String × Json)) : Prop where
  /-- Numbers of nodes and workers, depths and durations are words. -/
  words : ∀ name ∈ ["max_nodes", "strong_branching_max_depth", "num_workers", "sync_tick_ms",
    "drain_timeout_ms", "log_freq"], Allows members name IsWord
  /-- Limits that may be absent are words or empty. -/
  limits : ∀ name ∈ ["time_limit_ms", "cpu_time_limit_ms", "max_tree_memory_bytes"],
    Allows members name (IsOptional IsWord)
  /-- Targets are numbers or empty. -/
  targets : ∀ name ∈ ["target_lower_bound", "target_upper_bound"],
    Allows members name (IsOptional (IsScalar (α := α)))
  /-- Tolerances are numbers. -/
  tolerances : ∀ name ∈ ["abs_pruning_tol", "rel_pruning_tol", "rel_node_size_tol"],
    Allows members name (IsScalar (α := α))
  /-- The selection of nodes is one of its names. -/
  selection : Allows members "node_selection" (IsName NodeSelection.names)
  /-- The branching rule is one of its names. -/
  rule : Allows members "branching_strategy" (IsName BranchingRule.names)
  /-- The scoring is one of its names. -/
  scoring : Allows members "node_score" (IsName Scoring.names)
  /-- Whether progress is logged is a truth value. -/
  verbose : Allows members "verbose" IsTruth

/-- A setting is the one that an object gives, or the standard one if it gives none. -/
def Sets (members : List (Option String × Json)) (name : String) (stands : Json → β → Prop)
    (get : Settings α → β) (s : Settings α) : Prop :=
  Takes members name stands (get standard) (get s)

/-- Each setting is the one that an object gives, or the standard one. -/
structure Given (members : List (Option String × Json)) (s : Settings α) : Prop where
  /-- The number of nodes. -/
  maxNodes : Sets members "max_nodes" IsWord (·.maxNodes) s
  /-- The limit on the wall-clock time. -/
  timeLimit : Sets members "time_limit_ms" (IsOptional IsWord) (·.timeLimit) s
  /-- The limit on the computing time. -/
  cpuTimeLimit : Sets members "cpu_time_limit_ms" (IsOptional IsWord) (·.cpuTimeLimit) s
  /-- The limit on the memory. -/
  memoryLimit : Sets members "max_tree_memory_bytes" (IsOptional IsWord) (·.memoryLimit) s
  /-- The target of the lower bound. -/
  targetLower : Sets members "target_lower_bound" (IsOptional IsScalar) (·.targetLower) s
  /-- The target of the upper bound. -/
  targetUpper : Sets members "target_upper_bound" (IsOptional IsScalar) (·.targetUpper) s
  /-- The absolute tolerance. -/
  absTolerance : Sets members "abs_pruning_tol" IsScalar (·.absTolerance) s
  /-- The relative tolerance. -/
  relTolerance : Sets members "rel_pruning_tol" IsScalar (·.relTolerance) s
  /-- The selection of nodes. -/
  selection : Sets members "node_selection" (IsName NodeSelection.names) (·.selection) s
  /-- The branching rule. -/
  rule : Sets members "branching_strategy" (IsName BranchingRule.names) (·.rule) s
  /-- The scoring. -/
  scoring : Sets members "node_score" (IsName Scoring.names) (·.scoring) s
  /-- The tolerance for the size of nodes. -/
  sizeTolerance : Sets members "rel_node_size_tol" IsScalar (·.sizeTolerance) s
  /-- The depth of strong branching. -/
  strongDepth : Sets members "strong_branching_max_depth" IsWord (·.strongDepth) s
  /-- The number of workers. -/
  workers : Sets members "num_workers" IsWord (·.workers) s
  /-- How often a manager wakes up. -/
  tick : Sets members "sync_tick_ms" IsWord (·.tick) s
  /-- How long late results are waited for. -/
  drainTime : Sets members "drain_timeout_ms" IsWord (·.drainTime) s
  /-- Whether progress is logged. -/
  verbose : Sets members "verbose" IsTruth (·.verbose) s
  /-- How often progress is logged. -/
  logFrequency : Sets members "log_freq" IsWord (·.logFrequency) s

omit [Scalar α] in
/-- A setting that a form reads is the one given. -/
theorem readMember_bind {form : JsonForm β} {stands : Json → β → Prop} {get : Settings α → β}
    {put : β → Settings α → Settings α} {s t : Settings α} {f : Settings α → Option (Settings α)}
    (hreads : Reads form stands) (hput : put (get s) s = s) :
    readMember members s (.of name form get put) >>= f = some t ↔
      ∃ x, Takes members name stands (get s) x ∧ f (put x s) = some t := by
  -- a setting that is not given keeps its value, which is what `hput` is for
  cases hvalue : lastValue? members name with
  | none =>
    have hlacks := lastValue?_eq_none.mp hvalue
    have hread : readMember members s (.of name form get put) = some s := by
      simp only [readMember, Field.of, hvalue]
    rw [hread]
    constructor
    · intro h
      exact ⟨get s, .inr ⟨hlacks, rfl⟩, by rwa [hput]⟩
    · rintro ⟨x, ⟨value, hgives, -⟩ | ⟨-, rfl⟩, h⟩
      · exact absurd hgives hlacks.not_gives
      · rwa [hput] at h
  | some value =>
    have hgives := lastValue?_eq_some.mp hvalue
    have hread : readMember members s (.of name form get put)
        = (form.read value).map (put · s) := by
      simp only [readMember, Field.of, hvalue]
    rw [hread, Option.bind_eq_bind, Option.bind_map, Option.bind_eq_some_iff]
    constructor
    · rintro ⟨x, hx, h⟩
      exact ⟨x, .inl ⟨value, hgives, (hreads value x).mp hx⟩, h⟩
    · rintro ⟨x, ⟨other, hother, hstands⟩ | ⟨hlacks, -⟩, h⟩
      · cases hgives.unique hother
        exact ⟨x, (hreads value x).mpr hstands, h⟩
      · exact absurd hgives hlacks.not_gives

/-- Settings are read from an object as given. -/
theorem ofJson?_object {s : Settings α} : ofJson? (.object members) = some s ↔ Given members s := by
  have hlimit := reads_word.optional rfl
  have htarget := (reads_scalar (α := α)).optional rfl
  have hselection : Reads (.named NodeSelection.ofName? NodeSelection.name)
      (IsName NodeSelection.names) := reads_named (by decide)
  have hrule : Reads (.named BranchingRule.ofName? BranchingRule.name)
      (IsName BranchingRule.names) := reads_named (by decide)
  have hscoring : Reads (.named Scoring.ofName? Scoring.name) (IsName Scoring.names) :=
    reads_named (by decide)
  show fields.foldlM (readMember members) standard = some s ↔ _
  -- one conjunct for each field, in the order of the list
  simp only [fields, List.foldlM_cons, List.foldlM_nil, readMember_bind reads_word,
    readMember_bind hlimit, readMember_bind htarget, readMember_bind reads_scalar,
    readMember_bind hselection, readMember_bind hrule, readMember_bind hscoring,
    readMember_bind reads_bool]
  constructor
  · rintro ⟨_, hmaxNodes, _, htimeLimit, _, hcpuTimeLimit, _, hmemoryLimit, _, hlower, _, hupper,
      _, habs, _, hrel, _, hselection, _, hrule, _, hscoring, _, hsize, _, hdepth, _, hworkers,
      _, htick, _, hdrain, _, hverbose, _, hlog, heq⟩
    cases heq
    exact ⟨hmaxNodes, htimeLimit, hcpuTimeLimit, hmemoryLimit, hlower, hupper, habs, hrel,
      hselection, hrule, hscoring, hsize, hdepth, hworkers, htick, hdrain, hverbose, hlog⟩
  · intro h
    exact ⟨_, h.maxNodes, _, h.timeLimit, _, h.cpuTimeLimit, _, h.memoryLimit, _, h.targetLower,
      _, h.targetUpper, _, h.absTolerance, _, h.relTolerance, _, h.selection, _, h.rule,
      _, h.scoring, _, h.sizeTolerance, _, h.strongDepth, _, h.workers, _, h.tick,
      _, h.drainTime, _, h.verbose, _, h.logFrequency, rfl⟩

/-- A value that a setting can have is taken from an object that allows it. -/
theorem Allows.exists_takes {stands : Json → β → Prop} (h : Allows members name stands)
    (standard : β) : ∃ x, Takes members name stands standard x := by
  cases hvalue : lastValue? members name with
  | none => exact ⟨standard, .inr ⟨lastValue?_eq_none.mp hvalue, rfl⟩⟩
  | some value =>
    have hgives := lastValue?_eq_some.mp hvalue
    obtain ⟨x, hx⟩ := h value hgives
    exact ⟨x, .inl ⟨value, hgives, hx⟩⟩

/-- An object that a setting is taken from allows its value. -/
theorem Takes.allows {stands : Json → β → Prop} {standard x : β}
    (h : Takes members name stands standard x) : Allows members name stands := by
  intro value hgives
  rcases h with ⟨other, hother, hx⟩ | ⟨hlacks, -⟩
  · exact ⟨x, hgives.unique hother ▸ hx⟩
  · exact absurd hgives hlacks.not_gives

/-- Settings are given just if every value given is one that its setting can have. -/
theorem exists_given : (∃ s : Settings α, Given members s) ↔ Allowed α members := by
  constructor
  · rintro ⟨s, h⟩
    refine ⟨?_, ?_, ?_, ?_, h.selection.allows, h.rule.allows, h.scoring.allows,
      h.verbose.allows⟩
    · simp only [List.forall_mem_cons]
      exact ⟨h.maxNodes.allows, h.strongDepth.allows, h.workers.allows, h.tick.allows,
        h.drainTime.allows, h.logFrequency.allows, nofun⟩
    · simp only [List.forall_mem_cons]
      exact ⟨h.timeLimit.allows, h.cpuTimeLimit.allows, h.memoryLimit.allows, nofun⟩
    · simp only [List.forall_mem_cons]
      exact ⟨h.targetLower.allows, h.targetUpper.allows, nofun⟩
    · simp only [List.forall_mem_cons]
      exact ⟨h.absTolerance.allows, h.relTolerance.allows, h.sizeTolerance.allows, nofun⟩
  · rintro ⟨hwords, hlimits, htargets, htolerances, hselection, hrule, hscoring, hverbose⟩
    simp only [List.forall_mem_cons] at hwords hlimits htargets htolerances
    obtain ⟨hmaxNodes, hdepth, hworkers, htick, hdrain, hlog, -⟩ := hwords
    obtain ⟨htimeLimit, hcpuTimeLimit, hmemoryLimit, -⟩ := hlimits
    obtain ⟨hlower, hupper, -⟩ := htargets
    obtain ⟨habs, hrel, hsize, -⟩ := htolerances
    -- the settings are made up of the values that the members allow, one by one
    exact ⟨⟨_, _, _, _, _, _, _, _, _, _, _, _, _, _, _, _, _, _⟩,
      (hmaxNodes.exists_takes _).choose_spec, (htimeLimit.exists_takes _).choose_spec,
      (hcpuTimeLimit.exists_takes _).choose_spec, (hmemoryLimit.exists_takes _).choose_spec,
      (hlower.exists_takes _).choose_spec, (hupper.exists_takes _).choose_spec,
      (habs.exists_takes _).choose_spec, (hrel.exists_takes _).choose_spec,
      (hselection.exists_takes _).choose_spec, (hrule.exists_takes _).choose_spec,
      (hscoring.exists_takes _).choose_spec, (hsize.exists_takes _).choose_spec,
      (hdepth.exists_takes _).choose_spec, (hworkers.exists_takes _).choose_spec,
      (htick.exists_takes _).choose_spec, (hdrain.exists_takes _).choose_spec,
      (hverbose.exists_takes _).choose_spec, (hlog.exists_takes _).choose_spec⟩

/-- One settings are given at most. -/
theorem Given.unique {s t : Settings α} (hs : Given members s) (ht : Given members t) : s = t :=
  Option.some.inj ((ofJson?_object.mpr hs).symm.trans (ofJson?_object.mpr ht))

/-! ## The order of the members -/

/-- Members are put in another order, in which those of one name follow each other as before, and
members come or go whose names are those of no setting. -/
inductive Rearranged (α : Type) [Scalar α] :
    List (Option String × Json) → List (Option String × Json) → Prop
  /-- No members. -/
  | nil : Rearranged α [] []
  /-- The same member in front. -/
  | cons (m) {ms ns} : Rearranged α ms ns → Rearranged α (m :: ms) (m :: ns)
  /-- Two members of different names change places. -/
  | swap {m n ms} : m.1 ≠ n.1 → Rearranged α (m :: n :: ms) (n :: m :: ms)
  /-- A member goes whose name is that of no setting. -/
  | skip {m ms} : (∀ field ∈ (fields : List (Field α)), m.1 ≠ some field.name) →
      Rearranged α (m :: ms) ms
  /-- A member comes where one went. -/
  | symm {ms ns} : Rearranged α ms ns → Rearranged α ns ms
  /-- One rearrangement after the other. -/
  | trans {ms ns os} : Rearranged α ms ns → Rearranged α ns os → Rearranged α ms os

/-- The last value of a setting is that of the first members unless one of the others gives it. -/
theorem lastValue?_cons (m : Option String × Json) :
    lastValue? (m :: members) name
      = (lastValue? members name <|> if m.1 = some name then some m.2 else none) := by
  unfold lastValue?
  rw [List.reverse_cons, List.find?_append]
  generalize List.find? _ members.reverse = found
  cases found with
  | some n => rfl
  | none =>
    by_cases hname : m.1 = some name
    · simp [hname]
    · simp [hname]

/-- The last value of a setting stays the same when members are rearranged. -/
theorem Rearranged.lastValue?_eq (h : Rearranged α members others) {field : Field α}
    (hfield : field ∈ fields) : lastValue? members field.name = lastValue? others field.name := by
  induction h with
  | nil => rfl
  | cons m h ih => rw [lastValue?_cons, lastValue?_cons, ih]
  | @swap m n ms hne =>
    simp only [lastValue?_cons]
    cases lastValue? ms field.name with
    | some value => rfl
    | none =>
      -- at most one of the two has the name
      by_cases hm : m.1 = some field.name
      · have hn : n.1 ≠ some field.name := fun hn => hne (hm.trans hn.symm)
        simp [hm, hn]
      · simp [hm]
  | skip hno =>
    rw [lastValue?_cons, if_neg (hno field hfield)]
    cases lastValue? _ field.name <;> rfl
  | symm h ih => exact ih.symm
  | trans h h' ih ih' => exact ih.trans ih'

/-- What is read depends on the last values of the settings alone. -/
theorem ofJson?_congr
    (h : ∀ field ∈ (fields : List (Field α)), lastValue? members field.name
      = lastValue? others field.name) :
    (ofJson? (.object members) : Option (Settings α)) = ofJson? (.object others) := by
  show fields.foldlM (readMember members) standard = fields.foldlM (readMember others) standard
  generalize (standard : Settings α) = s
  revert h
  generalize (fields : List (Field α)) = fs
  intro h
  induction fs generalizing s with
  | nil => rfl
  | cons field fs ih =>
    have hread : readMember members s field = readMember others s field := by
      unfold readMember
      rw [h field List.mem_cons_self]
    rw [List.foldlM_cons, List.foldlM_cons, hread]
    exact congrArg _ (funext fun u => ih u fun f hf => h f (List.mem_cons_of_mem _ hf))

/-- Which name is not accepted depends on the last values of the settings alone. -/
theorem nameFault?_congr
    (h : ∀ field ∈ (fields : List (Field α)), lastValue? members field.name
      = lastValue? others field.name) :
    nameFault? (.object members) = nameFault? (.object others) := by
  have hselection : lastValue? members "node_selection" = lastValue? others "node_selection" :=
    h _ (List.mem_of_getElem? (show fields[8]? = some _ from rfl))
  have hrule : lastValue? members "branching_strategy" = lastValue? others "branching_strategy" :=
    h _ (List.mem_of_getElem? (show fields[9]? = some _ from rfl))
  have hscoring : lastValue? members "node_score" = lastValue? others "node_score" :=
    h _ (List.mem_of_getElem? (show fields[10]? = some _ from rfl))
  simp only [nameFault?, hselection, hrule, hscoring]

/-! ## What an object is read as -/

/-- A name that is given for a setting is accepted. -/
theorem Takes.not_misnames {table : List (β × List String)} {standard x : β}
    (hdistinct : table.Pairwise fun a b => ∀ name ∈ a.2, name ∉ b.2)
    (h : Takes members name (IsName table) standard x) :
    ¬ Misnames members name (lookupName table) := by
  rintro ⟨text, hlast, hnone⟩
  have hgives := lastValue?_eq_some.mp hlast
  rcases h with ⟨value, hvalue, other, names, rfl, hmem, hname⟩ | ⟨hlacks, -⟩
  · cases hgives.unique hvalue
    cases hnone.symm.trans ((lookupName_eq_some hdistinct).mpr ⟨names, hmem, hname⟩)
  · exact hlacks.not_gives hgives

/-- Settings are given only with names that are accepted. -/
theorem Given.nameFault?_eq_none {s : Settings α} (h : Given members s) :
    nameFault? (.object members) = none := by
  rw [← Option.not_isSome_iff_eq_none, isSome_nameFault?_object]
  rintro (hselection | hrule | hscoring)
  · exact h.selection.not_misnames (by decide) hselection
  · exact h.rule.not_misnames (by decide) hrule
  · exact h.scoring.not_misnames (by decide) hscoring

/-- The settings that are read from an object are those given, if a search can run under them. -/
theorem ofText_object_eq_ok {text : String} {s : Settings α}
    (h : jsonOfText? α text = some (.object members)) :
    ofText text = .ok s ↔ Given members s ∧ s.validate = .ok () := by
  unfold ofText
  simp only [h]
  constructor
  · intro hok
    split at hok
    · cases hok
    · split at hok
      · cases hok
      · next t hread =>
        split at hok
        · cases hok
        · next hfault =>
          cases hok
          exact ⟨ofJson?_object.mp hread, validate_eq_ok.mpr hfault⟩
  · rintro ⟨hgiven, hvalid⟩
    simp only [hgiven.nameFault?_eq_none, ofJson?_object.mpr hgiven, validate_eq_ok.mp hvalid]

/-- The text of an object describes settings just if every value given is one that its setting can
have and a search can run under the settings that come out. These are the ones read: each is the
one given last, or the standard one if none is given. What is read, or what is found wrong, does not
depend on the order of different settings and on members under other names. -/
theorem ofText_object {text : String} (h : jsonOfText? α text = some (.object members)) :
    ((∃ s : Settings α, ofText text = .ok s) ↔
        Allowed α members ∧ ∀ s : Settings α, Given members s → s.validate = .ok ())
      ∧ (Allowed α members → ∃! s : Settings α, Given members s)
      ∧ (∀ s : Settings α, ofText text = .ok s ↔ Given members s ∧ s.validate = .ok ())
      ∧ ∀ other others, jsonOfText? α other = some (.object others) →
        Rearranged α members others →
        (ofText other : Except (Error α) (Settings α)) = ofText text := by
  refine ⟨?_, ?_, fun s => ofText_object_eq_ok h, ?_⟩
  · constructor
    · rintro ⟨s, hs⟩
      obtain ⟨hgiven, hvalid⟩ := (ofText_object_eq_ok h).mp hs
      exact ⟨exists_given.mp ⟨s, hgiven⟩, fun t ht => ht.unique hgiven ▸ hvalid⟩
    · rintro ⟨hallowed, hvalid⟩
      obtain ⟨s, hgiven⟩ := exists_given.mpr hallowed
      exact ⟨s, (ofText_object_eq_ok h).mpr ⟨hgiven, hvalid s hgiven⟩⟩
  · intro hallowed
    obtain ⟨s, hgiven⟩ := exists_given.mpr hallowed
    exact ⟨s, hgiven, fun t ht => ht.unique hgiven⟩
  · -- the text is read through the last value of each field and nothing else
    intro other others hother hrearranged
    unfold ofText
    simp only [h, hother, ofJson?_congr fun field hfield => hrearranged.lastValue?_eq hfield,
      nameFault?_congr (α := α) fun field hfield => hrearranged.lastValue?_eq hfield]

/-- An object with a setting given twice, a name in capital letters among white space, an empty
value and a member under another name. -/
def sampleText : String :=
  "\x7b\"max_nodes\": 5, \"node_selection\": \" DFS \", \"max_nodes\": 7, "
    ++ "\"time_limit_ms\": null, \"color\": []\x7d"

/-- The members of this object. -/
def sampleMembers : List (Option String × Json) :=
  [(some "max_nodes", .number ⟨false, ['5'], [], none⟩), (some "node_selection", .text " DFS "),
    (some "max_nodes", .number ⟨false, ['7'], [], none⟩), (some "time_limit_ms", .null),
    (some "color", .array [])]

/-- The same settings in another order. -/
def rearrangedText : String :=
  "\x7b\"node_selection\": \" DFS \", \"max_nodes\": 5, \"max_nodes\": 7, "
    ++ "\"time_limit_ms\": null\x7d"

/-- The members of the other object. -/
def rearrangedMembers : List (Option String × Json) :=
  [(some "node_selection", .text " DFS "), (some "max_nodes", .number ⟨false, ['5'], [], none⟩),
    (some "max_nodes", .number ⟨false, ['7'], [], none⟩), (some "time_limit_ms", .null)]

/-- Both objects are read from their texts. -/
theorem jsonOfText?_sampleText :
    jsonOfText? (Extended ℚ) sampleText = some (.object sampleMembers)
      ∧ jsonOfText? (Extended ℚ) rearrangedText = some (.object rearrangedMembers) := by
  have hsample : Json.parse? sampleText = some (.object sampleMembers) :=
    Json.parse?_of_tokens (by decide +kernel)
  have hrearranged : Json.parse? rearrangedText = some (.object rearrangedMembers) :=
    Json.parse?_of_tokens (by decide +kernel)
  unfold jsonOfText?
  rw [hsample, hrearranged, Option.filter, if_pos (by decide +kernel), Option.filter,
    if_pos (by decide +kernel)]
  exact ⟨rfl, rfl⟩

/-- The two objects are rearrangements of each other. -/
theorem rearranged_sampleMembers :
    Rearranged (Extended ℚ) sampleMembers rearrangedMembers := by
  have hcolor : "color" ∉ (fields : List (Field (Extended ℚ))).map (·.name) := by decide +kernel
  exact .trans (.swap (by decide)) (.cons _ (.cons _ (.cons _ (.cons _ (.skip
    fun field hfield heq =>
      hcolor (List.mem_map.mpr ⟨field, hfield, (Option.some.inj heq).symm⟩))))))

/-- The last value of a setting given twice counts, a name is accepted in capital letters, what is
not given is standard, and the other object is read in the same way. -/
theorem ofText_object_sampleText :
    (∃ s : Settings (Extended ℚ), ofText sampleText = .ok s ∧ s.maxNodes = 7
        ∧ s.selection = .depthFirst ∧ s.timeLimit = none ∧ s.workers = 4)
      ∧ (ofText rearrangedText : Except (Error (Extended ℚ)) (Settings (Extended ℚ)))
        = ofText sampleText := by
  obtain ⟨hsample, hother⟩ := jsonOfText?_sampleText
  obtain ⟨-, -, hok, hsame⟩ := ofText_object hsample
  refine ⟨?_, hsame _ _ hother rearranged_sampleMembers⟩
  obtain ⟨s, hread, hfault, hs⟩ :
      ∃ s ∈ (ofJson? (.object sampleMembers) : Option (Settings (Extended ℚ))),
        s.fault?.isNone ∧ s.maxNodes = 7 ∧ s.selection = .depthFirst ∧ s.timeLimit = none
          ∧ s.workers = 4 := by
    decide +kernel
  exact ⟨s, (hok s).mpr ⟨ofJson?_object.mp hread,
    validate_eq_ok.mpr (Option.isNone_iff_eq_none.mp hfault)⟩, hs⟩

end BranchBound.Settings
