import BranchBound.Json.Form
import BranchBound.Json.Reader
import BranchBound.Json.Writer
import BranchBound.Team.Worker

/-! # Messages as text

Orders and replies are written as JSON, so that they can cross the border of a process. Structures
are objects with all their parts, alternatives are objects with one member, and an alternative that
nothing comes with is a string. Numbers that are not finite have no JSON form: they are written as
the empty value, and a message that holds one is not read back.

* **`Order.jsonForm`**, **`Reply.jsonForm`** — how messages are read from JSON and written to it.
* **`JsonForm.toText`**, **`JsonForm.ofText`** — the text of a message, the message of a text. -/

namespace BranchBound

/-- The JSON form of lengths of time. The nanoseconds may exceed a second, as long as the seconds
still fit a word once they are carried over. -/
def Duration.jsonForm : JsonForm Duration where
  read j := do
    let [some seconds, some nanoseconds] ← j.record? ["secs", "nanos"] | none
    let seconds ← (JsonForm.word wordRange).read seconds
    let nanoseconds ← (JsonForm.word depthRange).read nanoseconds
    let duration := Duration.ofParts seconds nanoseconds
    if j.hasOnly ["secs", "nanos"] && duration.seconds < wordRange then some duration else none
  write d := .ofMembers [("secs", .ofNat d.seconds), ("nanos", .ofNat d.subseconds)]

/-- The JSON form of reasons. -/
def Reason.jsonForm : JsonForm Reason where
  read j := j.unitVariant? >>= ofName?
  write reason := .ofString reason.name

/-- The JSON form of stages. -/
def Stage.jsonForm : JsonForm Stage where
  read j :=
    match j.variant? with
    | some ("Fathomed", reason) => (Reason.jsonForm.read reason).map fathomed
    | _ => j.unitVariant? >>= ofName?
  write
    | fathomed reason => .ofVariant "Fathomed" (Reason.jsonForm.write reason)
    | stage => .ofString stage.name

/-- The JSON form of tags. -/
def Tag.jsonForm : JsonForm Tag where
  read j := j.unitVariant? >>= ofName?
  write tag := .ofString tag.name

variable {α : Type} [Scalar α]

/-- The parts of a node. -/
def Node.partNames : List String :=
  ["pruning_score", "lower_bounds", "upper_bounds", "dataset_index", "id", "depth", "augmented"]

/-- The JSON form of nodes. The index of the data subset may be left out. -/
def Node.jsonForm : JsonForm (Node α) where
  read j := do
    let [some score, some lower, some upper, dataset, some id, some depth, some augmented] ←
      j.record? partNames | none
    return {
      score := ← JsonForm.scalar.read score
      box := ⟨← JsonForm.scalar.list.read lower, ← JsonForm.scalar.list.read upper⟩
      dataset := ← (JsonForm.word depthRange).optional.read (dataset.getD .null)
      id := ← (JsonForm.word wordRange).read id
      depth := ← (JsonForm.word depthRange).read depth
      augmented := ← JsonForm.bool.read augmented }
  write n := .ofMembers [
    ("pruning_score", JsonForm.scalar.write n.score),
    ("lower_bounds", JsonForm.scalar.list.write n.box.lower),
    ("upper_bounds", JsonForm.scalar.list.write n.box.upper),
    ("dataset_index", (JsonForm.word depthRange).optional.write n.dataset),
    ("id", .ofNat n.id),
    ("depth", .ofNat n.depth),
    ("augmented", .bool n.augmented)]

/-- The JSON form of feasible points with their values. -/
def Candidate.jsonForm : JsonForm (Candidate α) where
  read j := do
    let [some value, some point] ← j.record? ["objective_value", "point"] | none
    return ⟨← JsonForm.scalar.read value, ← JsonForm.scalar.list.read point⟩
  write c := .ofMembers [
    ("objective_value", JsonForm.scalar.write c.value),
    ("point", JsonForm.scalar.list.write c.point)]

/-- The parts of a report. -/
def Report.partNames : List String :=
  ["node", "lower_bound", "lbp_point", "lbp_calls", "ubp_calls", "infeasible", "converged",
    "status", "state", "trace", "new_incumbent", "busy"]

/-- The JSON form of reports. The better point may be left out. -/
def Report.jsonForm : JsonForm (Report α) where
  read j := do
    let [some node, some lowerBound, some point, some lowerCalls, some upperCalls, some infeasible,
      some converged, some tag, some stage, some trace, candidate, some busy] ←
      j.record? partNames | none
    return {
      node := ← Node.jsonForm.read node
      lowerBound := ← JsonForm.scalar.read lowerBound
      point := ← JsonForm.scalar.list.read point
      lowerCalls := ← (JsonForm.word wordRange).read lowerCalls
      upperCalls := ← (JsonForm.word wordRange).read upperCalls
      infeasible := ← JsonForm.bool.read infeasible
      converged := ← JsonForm.bool.read converged
      tag := ← Tag.jsonForm.read tag
      stage := ← Stage.jsonForm.read stage
      trace := ← Stage.jsonForm.list.read trace
      candidate := ← Candidate.jsonForm.optional.read (candidate.getD .null)
      busy := ← Duration.jsonForm.read busy }
  write r := .ofMembers [
    ("node", Node.jsonForm.write r.node),
    ("lower_bound", JsonForm.scalar.write r.lowerBound),
    ("lbp_point", JsonForm.scalar.list.write r.point),
    ("lbp_calls", .ofNat r.lowerCalls),
    ("ubp_calls", .ofNat r.upperCalls),
    ("infeasible", .bool r.infeasible),
    ("converged", .bool r.converged),
    ("status", Tag.jsonForm.write r.tag),
    ("state", Stage.jsonForm.write r.stage),
    ("trace", Stage.jsonForm.list.write r.trace),
    ("new_incumbent", Candidate.jsonForm.optional.write r.candidate),
    ("busy", Duration.jsonForm.write r.busy)]

/-- The JSON form of orders. -/
def Order.jsonForm : JsonForm (Order α) where
  read j :=
    match j.variant? with
    | some ("Node", node) => (Node.jsonForm.read node).map process
    | some ("Incumbent", c) => (Candidate.jsonForm.read c).map improve
    | some ("Status", tag) => (Tag.jsonForm.read tag).map stop
    | _ => none
  write
    | process node => .ofVariant "Node" (Node.jsonForm.write node)
    | improve c => .ofVariant "Incumbent" (Candidate.jsonForm.write c)
    | stop tag => .ofVariant "Status" (Tag.jsonForm.write tag)

/-- The JSON form of replies. -/
def Reply.jsonForm : JsonForm (Reply α) where
  read j :=
    match j.variant? with
    | some ("Report", r) => (Report.jsonForm.read r).map report
    | some ("Failed", text) => (JsonForm.string.read text).map failed
    | _ => none
  write
    | report r => .ofVariant "Report" (Report.jsonForm.write r)
    | failed text => .ofVariant "Failed" (.ofString text)

/-- The text of a value that has a JSON form. -/
def JsonForm.toText {β : Type} (form : JsonForm β) (x : β) : String := (form.write x).render

/-- Reads a message; a text that is none breaks the rules between manager and workers. -/
def JsonForm.ofText {β : Type} (form : JsonForm β) (text : String) : Except (Error α) β :=
  match Json.parse? text >>= form.read with
  | some message => .ok message
  | none => .error (.protocol .undecodable)

end BranchBound
