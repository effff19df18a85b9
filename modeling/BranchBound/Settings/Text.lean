import BranchBound.Json.Form
import BranchBound.Json.Reader
import BranchBound.Json.Writer
import BranchBound.Settings.Basic
import BranchBound.Word

/-! # Settings as text

Settings are written as a JSON object with one member per setting. A text may leave settings out, in
any order, or list the values alone, in the order of `Settings.fields`; settings that are not given
have their standard values.

* **`Settings.fields`** — for each setting, how it is named, read and written.
* **`Settings.toText`**, **`Settings.ofText`** — the text of settings, and the settings of a text or
  what is wrong with it. -/

namespace BranchBound

namespace Settings

variable {α : Type} [Scalar α]

/-- A setting: its name, and how its value is read into settings and written from them. -/
structure Field (α : Type) where
  /-- The name of the setting. -/
  name : String
  /-- The settings with the value that a JSON value stands for. -/
  read : Json → Settings α → Option (Settings α)
  /-- The JSON value of the setting. -/
  write : Settings α → Json

/-- The setting of a name and a form, given how it is taken from settings and put into them. -/
def Field.of {β : Type} (name : String) (form : JsonForm β) (get : Settings α → β)
    (put : β → Settings α → Settings α) : Field α :=
  ⟨name, fun j s => (form.read j).map (put · s), fun s => form.write (get s)⟩

/-- All settings, in their order. -/
def fields : List (Field α) :=
  let word := JsonForm.word wordRange
  [.of "max_nodes" word (·.maxNodes) fun v s => { s with maxNodes := v },
    .of "time_limit_ms" word.optional (·.timeLimit) fun v s => { s with timeLimit := v },
    .of "cpu_time_limit_ms" word.optional (·.cpuTimeLimit) fun v s => { s with cpuTimeLimit := v },
    .of "max_tree_memory_bytes" word.optional (·.memoryLimit) fun v s =>
      { s with memoryLimit := v },
    .of "target_lower_bound" JsonForm.scalar.optional (·.targetLower) fun v s =>
      { s with targetLower := v },
    .of "target_upper_bound" JsonForm.scalar.optional (·.targetUpper) fun v s =>
      { s with targetUpper := v },
    .of "abs_pruning_tol" JsonForm.scalar (·.absTolerance) fun v s => { s with absTolerance := v },
    .of "rel_pruning_tol" JsonForm.scalar (·.relTolerance) fun v s => { s with relTolerance := v },
    .of "node_selection" (.named NodeSelection.ofName? NodeSelection.name) (·.selection) fun v s =>
      { s with selection := v },
    .of "branching_strategy" (.named BranchingRule.ofName? BranchingRule.name) (·.rule) fun v s =>
      { s with rule := v },
    .of "node_score" (.named Scoring.ofName? Scoring.name) (·.scoring) fun v s =>
      { s with scoring := v },
    .of "rel_node_size_tol" JsonForm.scalar (·.sizeTolerance) fun v s =>
      { s with sizeTolerance := v },
    .of "strong_branching_max_depth" word (·.strongDepth) fun v s => { s with strongDepth := v },
    .of "num_workers" word (·.workers) fun v s => { s with workers := v },
    .of "sync_tick_ms" word (·.tick) fun v s => { s with tick := v },
    .of "drain_timeout_ms" word (·.drainTime) fun v s => { s with drainTime := v },
    .of "verbose" JsonForm.bool (·.verbose) fun v s => { s with verbose := v },
    .of "log_freq" word (·.logFrequency) fun v s => { s with logFrequency := v }]

/-- The JSON form of settings. -/
def toJson (s : Settings α) : Json :=
  .ofMembers (fields.map fun field => (field.name, field.write s))

/-- The text of settings. -/
def toText (s : Settings α) : String := s.toJson.render

/-- The value of the last member of a name. -/
def lastValue? (members : List (Option String × Json)) (name : String) : Option Json :=
  (members.reverse.find? fun (other, _) => other = some name).map (·.2)

/-- Reads a member into settings; a setting that is absent is left as it is. -/
def readMember (members : List (Option String × Json)) (s : Settings α) (field : Field α) :
    Option (Settings α) :=
  match lastValue? members field.name with
  | some value => field.read value s
  | none => some s

/-- Reads values into settings, one for each of the first settings. -/
def readItems : List Json → List (Field α) → Settings α → Option (Settings α)
  | [], _, s => some s
  | _ :: _, [], _ => none
  | item :: items, field :: fields, s => field.read item s >>= readItems items fields

/-- The settings that a JSON value stands for. -/
def ofJson? : Json → Option (Settings α)
  | .object members => fields.foldlM (readMember members) standard
  | .array items => readItems items fields standard
  | _ => none

/-- The fault of the first strategy name in an object that is not accepted. -/
def nameFault? : Json → Option NameFault
  | .object members =>
      let faultOf {β : Type} (name : String) (read : String → Except NameFault β) :
          Option NameFault :=
        match (lastValue? members name).bind JsonForm.string.read with
        | some value =>
            match read value with
            | .error fault => some fault
            | .ok _ => none
        | none => none
      faultOf "node_selection" NodeSelection.read
        <|> faultOf "branching_strategy" BranchingRule.read
        <|> faultOf "node_score" Scoring.read
  | _ => none

/-- How deeply a text of settings may be nested. -/
def depthLimit : Nat := 127

/-- The JSON value of a text that may describe settings. -/
def jsonOfText? (α : Type) [Scalar α] (text : String) : Option Json :=
  (Json.parse? text).filter fun j => j.isStorable α && j.depth ≤ depthLimit

/-- Reads settings. A strategy name that is not accepted is an error of its own, if it stands in an
object; every other text that describes no settings is malformed, and the settings must be such
that a search can run under them. -/
def ofText (text : String) : Except (Error α) (Settings α) :=
  match jsonOfText? α text with
  | none => .error (.invalidSettings .malformed)
  | some j =>
      match nameFault? j with
      | some fault => .error (.unknownStrategy fault)
      | none =>
          match ofJson? j with
          | none => .error (.invalidSettings .malformed)
          | some s =>
              match s.fault? with
              | some fault => .error (.invalidSettings fault)
              | none => .ok s

end Settings

end BranchBound
