import BranchBound.Proofs.Json.Forms
import BranchBound.Proofs.Json.Reading
import BranchBound.Team.Wire

/-! # Messages cross a border unchanged

Every part of a message is written so that it is read again as what it was. Only a scalar that is
not finite is written as the empty value, which stands for an absent part elsewhere; since no part
that may be absent is a scalar itself, such a message is refused and never read as another one.

* **`Node.carries`**, **`Report.carries`** and their like — a form carries what it is the form of.
* **`Team.messages_unchanged`** — orders and replies come out of their texts as they were, or not at
  all. -/

namespace BranchBound

open JsonForm

/-- A form carries reasons. -/
theorem Reason.carries {α : Type} [Scalar α] (reason : Reason) :
    Reason.jsonForm.Carries reason ([] : List α) := by
  refine ⟨.text _, ?_⟩
  cases reason <;> rfl

/-- A form carries stages. -/
theorem Stage.carries {α : Type} [Scalar α] (stage : Stage) :
    Stage.jsonForm.Carries stage ([] : List α) := by
  cases stage with
  | fathomed reason =>
    have hreason := Reason.carries (α := α) reason
    refine ⟨.ofMembers (List.forall_mem_singleton.mpr hreason.writable), ?_⟩
    show (Reason.jsonForm.read (Reason.jsonForm.write reason)).map Stage.fathomed = _
    rw [hreason.read_eq]
    rfl
  | _ => exact ⟨.text _, rfl⟩

/-- A form carries tags. -/
theorem Tag.carries {α : Type} [Scalar α] (tag : Tag) : Tag.jsonForm.Carries tag ([] : List α) := by
  refine ⟨.text _, ?_⟩
  cases tag <;> rfl

/-- A form carries lengths of time whose seconds are words. -/
theorem Duration.carries {α : Type} [Scalar α] {d : Duration} (h : d.seconds < wordRange) :
    Duration.jsonForm.Carries d ([] : List α) := by
  have hsubseconds : d.subseconds < depthRange :=
    (Nat.mod_lt d.nanoseconds (by decide)).trans (by decide)
  have hlong := carries_word (α := α) h
  have hshort := carries_word (α := α) hsubseconds
  have hrecord : (Duration.jsonForm.write d).record? ["secs", "nanos"]
      = some [some ((word wordRange).write d.seconds),
        some ((word depthRange).write d.subseconds)] :=
    Json.record?_ofMembers rfl (by decide)
  have honly : (Duration.jsonForm.write d).hasOnly ["secs", "nanos"] = true := by
    simp [Duration.jsonForm, Json.ofMembers, Json.hasOnly]
  constructor
  · refine .ofMembers ?_
    simp only [List.forall_mem_cons]
    exact ⟨hlong.writable, hshort.writable, nofun⟩
  · -- the written value stays a name, so that nothing unfolds it
    obtain ⟨j, hj⟩ : ∃ j, Duration.jsonForm.write d = j := ⟨_, rfl⟩
    rw [hj] at hrecord honly ⊢
    unfold Duration.jsonForm
    simp only [hrecord, Option.bind_eq_bind, Option.bind_some, hlong.read_eq, hshort.read_eq]
    rw [Duration.ofParts_seconds_subseconds, honly, decide_eq_true h]
    rfl

variable {α : Type} [Scalar α] [Scalar.Legible α]

/-- The scalars of a node. -/
def Node.scalars (n : Node α) : List α := n.score :: (n.box.lower ++ n.box.upper)

/-- The id of a node, its depth and its subset of data fit their words. -/
structure Node.Fits (n : Node α) : Prop where
  /-- The id is a word. -/
  id_lt : n.id < wordRange
  /-- The depth is in range. -/
  depth_lt : n.depth < depthRange
  /-- The index of the subset of data is in range. -/
  dataset_lt : ∀ d ∈ n.dataset, d < depthRange

/-- A form carries nodes. -/
theorem Node.carries {n : Node α} (hfits : n.Fits)
    (hback : ∀ x ∈ n.scalars, Scalar.ReadsBack x) : Node.jsonForm.Carries n n.scalars := by
  have hscore := carries_scalar (hback n.score List.mem_cons_self)
  have hlower : scalar.list.Carries n.box.lower n.box.lower :=
    carries_scalars fun x hx => hback x (by simp [scalars, hx])
  have hupper : scalar.list.Carries n.box.upper n.box.upper :=
    carries_scalars fun x hx => hback x (by simp [scalars, hx])
  have hdataset := carries_optional_word (α := α) hfits.dataset_lt
  have hid := carries_word (α := α) hfits.id_lt
  have hdepth := carries_word (α := α) hfits.depth_lt
  have haugmented := carries_bool (α := α) n.augmented
  have hrecord : (Node.jsonForm.write n).record? partNames = some [some (scalar.write n.score),
      some (scalar.list.write n.box.lower), some (scalar.list.write n.box.upper),
      some ((word depthRange).optional.write n.dataset), some ((word wordRange).write n.id),
      some ((word depthRange).write n.depth), some (JsonForm.bool.write n.augmented)] :=
    Json.record?_ofMembers rfl (by decide)
  constructor
  · refine .ofMembers ?_
    simp only [List.forall_mem_cons]
    exact ⟨hscore.writable, hlower.writable, hupper.writable, hdataset.writable, hid.writable,
      hdepth.writable, haugmented.writable, nofun⟩
  · obtain ⟨j, hj⟩ : ∃ j, Node.jsonForm.write n = j := ⟨_, rfl⟩
    rw [hj] at hrecord ⊢
    unfold Node.jsonForm
    simp only [hrecord, Option.bind_eq_bind, Option.bind_some, hscore.read_write,
      hlower.read_write, hupper.read_write, Option.getD_some, hdataset.read_eq, hid.read_eq,
      hdepth.read_eq, haugmented.read_eq, ite_some_bind]
    simp only [scalars, List.all_cons, List.all_append, List.all_nil, Bool.and_true,
      Bool.and_eq_true, ite_and]
    rfl

/-- The scalars of a point with its value. -/
def Candidate.scalars (c : Candidate α) : List α := c.value :: c.point

/-- A form carries points with their values. -/
theorem Candidate.carries {c : Candidate α} (hback : ∀ x ∈ c.scalars, Scalar.ReadsBack x) :
    Candidate.jsonForm.Carries c c.scalars := by
  have hvalue := carries_scalar (hback c.value List.mem_cons_self)
  have hpoint : scalar.list.Carries c.point c.point :=
    carries_scalars fun x hx => hback x (List.mem_cons_of_mem _ hx)
  have hrecord : (Candidate.jsonForm.write c).record? ["objective_value", "point"]
      = some [some (scalar.write c.value), some (scalar.list.write c.point)] :=
    Json.record?_ofMembers rfl (by decide)
  constructor
  · refine .ofMembers ?_
    simp only [List.forall_mem_cons]
    exact ⟨hvalue.writable, hpoint.writable, nofun⟩
  · obtain ⟨j, hj⟩ : ∃ j, Candidate.jsonForm.write c = j := ⟨_, rfl⟩
    rw [hj] at hrecord ⊢
    unfold Candidate.jsonForm
    simp only [hrecord, Option.bind_eq_bind, Option.bind_some, hvalue.read_write,
      hpoint.read_write, ite_some_bind]
    simp only [scalars, List.all_cons, List.all_nil, Bool.and_true, Bool.and_eq_true, ite_and]
    rfl

/-- The scalars of a report. -/
def Report.scalars (r : Report α) : List α :=
  r.node.scalars ++ r.lowerBound :: (r.point ++ r.candidate.elim [] Candidate.scalars)

/-- The words of a report are in range. -/
structure Report.Fits (r : Report α) : Prop where
  /-- So are those of the node. -/
  node : r.node.Fits
  /-- The number of calls for a lower bound is a word. -/
  lowerCalls_lt : r.lowerCalls < wordRange
  /-- The number of calls for a point is a word. -/
  upperCalls_lt : r.upperCalls < wordRange
  /-- The seconds spent on the node are a word. -/
  seconds_lt : r.busy.seconds < wordRange

/-- A form carries reports. -/
theorem Report.carries {r : Report α} (hfits : r.Fits)
    (hback : ∀ x ∈ r.scalars, Scalar.ReadsBack x) : Report.jsonForm.Carries r r.scalars := by
  have hnode := Node.carries hfits.node fun x hx => hback x (by simp [scalars, hx])
  have hlower := carries_scalar (hback r.lowerBound (by simp [scalars]))
  have hpoint : scalar.list.Carries r.point r.point :=
    carries_scalars fun x hx => hback x (by simp [scalars, hx])
  have hlowerCalls := carries_word (α := α) hfits.lowerCalls_lt
  have hupperCalls := carries_word (α := α) hfits.upperCalls_lt
  have hinfeasible := carries_bool (α := α) r.infeasible
  have hconverged := carries_bool (α := α) r.converged
  have htag := Tag.carries (α := α) r.tag
  have hstage := Stage.carries (α := α) r.stage
  have htrace : Stage.jsonForm.list.Carries r.trace (r.trace.flatMap fun _ => ([] : List α)) :=
    Carries.list fun stage _ => stage.carries
  -- stages carry no scalars
  rw [show (r.trace.flatMap fun _ => ([] : List α)) = [] by simp] at htrace
  have hcandidate : Candidate.jsonForm.optional.Carries r.candidate
      (r.candidate.elim [] Candidate.scalars) :=
    Carries.optional (fun c hc => Candidate.carries fun x hx => hback x (by
      rw [Option.mem_def] at hc
      simp [scalars, hc, hx])) fun _ _ => nofun
  have hbusy := Duration.carries (α := α) hfits.seconds_lt
  have hrecord : (Report.jsonForm.write r).record? partNames = some [
      some (Node.jsonForm.write r.node), some (scalar.write r.lowerBound),
      some (scalar.list.write r.point), some ((word wordRange).write r.lowerCalls),
      some ((word wordRange).write r.upperCalls), some (JsonForm.bool.write r.infeasible),
      some (JsonForm.bool.write r.converged), some (Tag.jsonForm.write r.tag),
      some (Stage.jsonForm.write r.stage), some (Stage.jsonForm.list.write r.trace),
      some (Candidate.jsonForm.optional.write r.candidate),
      some (Duration.jsonForm.write r.busy)] :=
    Json.record?_ofMembers rfl (by decide)
  constructor
  · refine .ofMembers ?_
    simp only [List.forall_mem_cons]
    exact ⟨hnode.writable, hlower.writable, hpoint.writable, hlowerCalls.writable,
      hupperCalls.writable, hinfeasible.writable, hconverged.writable, htag.writable,
      hstage.writable, htrace.writable, hcandidate.writable, hbusy.writable, nofun⟩
  · obtain ⟨j, hj⟩ : ∃ j, Report.jsonForm.write r = j := ⟨_, rfl⟩
    rw [hj] at hrecord ⊢
    unfold Report.jsonForm
    dsimp only
    rw [hrecord]
    show (Node.jsonForm.read (Node.jsonForm.write r.node)).bind _ = _
    rw [hnode.read_write]
    simp only [Option.bind_eq_bind, Option.bind_some, hlower.read_write, hpoint.read_write,
      hlowerCalls.read_eq, hupperCalls.read_eq, hinfeasible.read_eq, hconverged.read_eq,
      htag.read_eq, hstage.read_eq, htrace.read_eq, Option.getD_some, hcandidate.read_write,
      hbusy.read_eq, ite_some_bind]
    simp only [scalars, List.all_cons, List.all_append, List.all_nil, Bool.and_true,
      Bool.and_eq_true, ite_and]
    rfl

/-- The scalars of an order. -/
def Order.scalars : Order α → List α
  | process node => node.scalars
  | improve c => c.scalars
  | stop _ => []

/-- The words of an order are in range. -/
def Order.Fits : Order α → Prop
  | process node => node.Fits
  | improve _ | stop _ => True

omit [Scalar.Legible α] in
/-- A form carries what comes with an alternative if it carries the alternative. -/
theorem carries_variant {β γ : Type} {form : JsonForm β} {inner : JsonForm γ} {x : β} {y : γ}
    {xs : List α} {name : String} {make : γ → β} (hmake : make y = x)
    (hwrite : form.write x = .ofVariant name (inner.write y))
    (hread : ∀ j, form.read (.ofVariant name j) = (inner.read j).map make)
    (hinner : inner.Carries y xs) : form.Carries x xs := by
  refine ⟨?_, ?_⟩
  · rw [hwrite]
    exact .ofMembers (List.forall_mem_singleton.mpr hinner.writable)
  · rw [hwrite, hread, hinner.read_write, ← hmake]
    split
    · rfl
    · rfl

/-- A form carries orders. -/
theorem Order.carries {m : Order α} (hfits : m.Fits)
    (hback : ∀ x ∈ m.scalars, Scalar.ReadsBack x) : Order.jsonForm.Carries m m.scalars := by
  cases m with
  | process node => exact carries_variant rfl rfl (fun _ => rfl) (Node.carries hfits hback)
  | improve c => exact carries_variant rfl rfl (fun _ => rfl) (Candidate.carries hback)
  | stop tag => exact carries_variant rfl rfl (fun _ => rfl) tag.carries

/-- The scalars of a reply. -/
def Reply.scalars : Reply α → List α
  | report r => r.scalars
  | failed _ => []

/-- The words of a reply are in range. -/
def Reply.Fits : Reply α → Prop
  | report r => r.Fits
  | failed _ => True

/-- A form carries replies. -/
theorem Reply.carries {m : Reply α} (hfits : m.Fits)
    (hback : ∀ x ∈ m.scalars, Scalar.ReadsBack x) : Reply.jsonForm.Carries m m.scalars := by
  cases m with
  | report r => exact carries_variant rfl rfl (fun _ => rfl) (Report.carries hfits hback)
  | failed text => exact carries_variant rfl rfl (fun _ => rfl) (carries_string text)

omit [Scalar.Legible α] in
/-- What a form carries is read from its text, or the text is none of a message. -/
theorem JsonForm.Carries.ofText_toText {β : Type} {form : JsonForm β} {x : β} {xs : List α}
    (h : form.Carries x xs) : (form.ofText (form.toText x) : Except (Error α) β)
      = if xs.all Scalar.isFinite then .ok x else .error (.protocol .undecodable) := by
  unfold JsonForm.ofText JsonForm.toText
  rw [h.writable.parse?_render]
  rw [Option.bind_eq_bind, Option.bind_some, h.read_write]
  cases xs.all Scalar.isFinite with
  | true => rfl
  | false => rfl

/-- Every order and every reply comes out of its text as it was, if all of its scalars are finite; a
message with a scalar that is not finite is refused, so that no message comes out as another one.
The words of the message are in range, and its finite scalars are read as they were written. -/
theorem Team.messages_unchanged :
    (∀ m : Order α, m.Fits → (∀ x ∈ m.scalars, Scalar.ReadsBack x) →
      (Order.jsonForm.ofText (Order.jsonForm.toText m) : Except (Error α) (Order α))
        = if m.scalars.all Scalar.isFinite then .ok m else .error (.protocol .undecodable))
    ∧ ∀ m : Reply α, m.Fits → (∀ x ∈ m.scalars, Scalar.ReadsBack x) →
      (Reply.jsonForm.ofText (Reply.jsonForm.toText m) : Except (Error α) (Reply α))
        = if m.scalars.all Scalar.isFinite then .ok m else .error (.protocol .undecodable) :=
  ⟨fun _ hfits hback => (Order.carries hfits hback).ofText_toText,
    fun _ hfits hback => (Reply.carries hfits hback).ofText_toText⟩

/-- A node to process. -/
def Team.sampleNode : Node Float := ⟨0.5, ⟨[0, -2.25], [1, 100]⟩, none, 3, 1, false⟩

/-- The node was infeasible: its score is infinite. -/
def Team.infeasibleReport : Report Float := (Report.start sampleNode).fathom .infeasible

/-- The node is ordered as it was, and the report that it is infeasible is refused. -/
theorem Team.messages_unchanged_sampleNode :
    (Order.jsonForm.ofText (Order.jsonForm.toText (.process sampleNode))
        : Except (Error Float) (Order Float)) = .ok (.process sampleNode)
      ∧ (Reply.jsonForm.ofText (Reply.jsonForm.toText (.report infeasibleReport))
        : Except (Error Float) (Reply Float)) = .error (.protocol .undecodable) := by
  have hnode : sampleNode.Fits := ⟨by decide, by decide, nofun⟩
  have hreport : infeasibleReport.Fits :=
    ⟨⟨by decide, by decide, nofun⟩, by decide, by decide, by decide⟩
  constructor
  · have h := (messages_unchanged (α := Float)).1 (.process sampleNode) hnode (by decide +kernel)
    rwa [if_pos (by decide +kernel)] at h
  · have h := (messages_unchanged (α := Float)).2 (.report infeasibleReport) hreport
      (by decide +kernel)
    rwa [if_neg (by decide +kernel)] at h

end BranchBound
