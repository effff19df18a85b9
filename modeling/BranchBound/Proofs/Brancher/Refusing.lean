import BranchBound.Proofs.Brancher.Pedigree
import BranchBound.Proofs.Brancher.Selecting

/-! # Requests that are refused

A brancher refuses a request for one of a few reasons: a node does not fit the variables, none is
open, a node is not waited for, or none of its dimensions can be split. The reasons are all looked
at before anything is done, except for one: a node that is confirmed is no longer waited for by the
time its history turns out to name a variable that there is not. Whatever is requested of a new
brancher, every history it keeps names a variable that there is, and so a request that is refused
changes nothing.

* **`Brancher.refusal?`** — the error that a request is answered with.
* **`Brancher.Refuses`** — the reasons for the errors.
* **`Brancher.refusal?_eq_some_iff`** — there are no other reasons, as long as the histories name
  variables.
* **`Chronicle.known_run`** — they do.
* **`Brancher.after_refused`** — what is refused changes nothing. -/

namespace BranchBound

variable {α : Type} [Scalar α]

namespace Brancher

/-- The error of an answer. -/
def errorOf? {β : Type} : Except (Error α) β → Option (Error α)
  | .error e => some e
  | .ok _ => none

/-- The error that a request is answered with, if it is refused. -/
def refusal? (b : Brancher α) : Request α → Option (Error α)
  | .insertRoot n => errorOf? (b.insertRoot n).1
  | .next => errorOf? b.next.1
  | .confirm id processed => errorOf? (b.confirm id processed).1
  | .cancel id => errorOf? (b.cancel id).1
  | .branch n point objective tolerance => errorOf? (b.branch n point objective tolerance).1
  | .insertNode n => errorOf? (b.insertNode n).1
  | .allChildren n point => errorOf? (b.allChildren n point).1
  | .lowerThreshold _ | .setTolerances .. | .setSelection _ | .setRule _ | .setScoring _ => none

/-- A node is refused because its bounds are not as many as the variables. -/
def Misfit (b : Brancher α) (n : Node α) (e : Error α) : Prop :=
  n.box.hasDimension b.vars.length = false
    ∧ e = .invalidProblem
      (.wrongDimension n.id n.box.lower.length n.box.upper.length b.vars.length)

/-- A node comes up for branching that is wide enough to be split, and none of its dimensions can
be. -/
structure Unsplittable (b : Brancher α) (n : Node α) (tolerance : α) : Prop where
  /-- It has bounds for all variables. -/
  fits : n.box.hasDimension b.vars.length = true
  /-- It holds a point. -/
  full : (roundDiscrete b.vars n.box).isEmpty = false
  /-- It holds more than one. -/
  wide : (roundDiscrete b.vars n.box).isPoint = false
  /-- It is above the size tolerance. -/
  large : b.isBelowTolerance (roundDiscrete b.vars n.box) tolerance = false
  /-- All its dimensions are too narrow, or those of the domain are where that counts. -/
  narrow : ∀ i v, b.vars[i]? = some v → (roundDiscrete b.vars n.box).width i ≤ 0
    ∨ b.rule = .relativeDiameter ∧ v.width ≤ 0

/-- Why a request is refused, and the error that it is answered with. -/
def Refuses (b : Brancher α) : Request α → Error α → Prop
  | .insertRoot n, e | .insertNode n, e | .allChildren n _, e => b.Misfit n e
  | .next, e => b.frontier.isEmpty = true ∧ e = .emptyTree
  | .confirm id _, e | .cancel id, e => id ∉ b.waiting.ids ∧ e = .unknownNode id
  | .branch n _ _ tolerance, e =>
      b.Misfit n e ∨ b.Unsplittable n tolerance ∧ e = .invalidProblem (.nothingToSplit n.id)
  | .lowerThreshold _, _ | .setTolerances .., _ | .setSelection _, _ | .setRule _, _
  | .setScoring _, _ => False

variable {b c : Brancher α} {n : Node α} {point : List α} {objective tolerance : α}
  {request : Request α} {e : Error α}

/-! ## One operation each -/

omit [Scalar α] in
/-- An answer with an error is that error. -/
theorem errorOf?_eq_some_iff {β : Type} {answer : Except (Error α) β} :
    errorOf? answer = some e ↔ answer = .error e := by
  cases answer with
  | error cause => rw [errorOf?, Option.some.injEq, Except.error.injEq]
  | ok => exact ⟨nofun, nofun⟩

omit [Scalar α] in
/-- A node does not fit if its bounds are not as many as the variables. -/
theorem dimensionFault?_eq_some_iff : b.dimensionFault? n = some e ↔ b.Misfit n e := by
  unfold dimensionFault? Misfit
  cases n.box.hasDimension b.vars.length <;> simp [eq_comm]

/-- A node can be queued if it fits. -/
theorem insertScored_refused_iff {score : α} :
    (b.insertScored n score).1 = .error e ↔ b.Misfit n e := by
  rw [← dimensionFault?_eq_some_iff, insertScored]
  cases b.dimensionFault? n with
  | none => exact ⟨nofun, nofun⟩
  | some cause => rw [Option.some.injEq, Except.error.injEq]

/-- A node can be split in every dimension if it fits. -/
theorem allChildren_refused_iff : (b.allChildren n point).1 = .error e ↔ b.Misfit n e := by
  rw [← dimensionFault?_eq_some_iff, allChildren]
  cases b.dimensionFault? n with
  | none =>
    refine ⟨fun h => ?_, nofun⟩
    dsimp only at h
    split at h <;> cases h
  | some cause => rw [Option.some.injEq, Except.error.injEq]

/-- No dimension is chosen just if each of them is too narrow. -/
theorem choose_eq_none_iff_narrow {box : Box α} :
    b.choose box point = none ↔ ∀ i v, b.vars[i]? = some v → box.width i ≤ 0
      ∨ b.rule = .relativeDiameter ∧ v.width ≤ 0 := by
  rw [choose_eq_none_iff, List.eq_nil_iff_forall_not_mem]
  constructor
  · intro h i v hv
    by_contra hwide
    rw [not_or, not_and] at hwide
    -- a dimension that is wide enough has a score, whatever the rule
    have hscore : ∃ score, b.dimensionScore? box point i v = some score := by
      unfold dimensionScore?
      dsimp only
      rw [if_neg hwide.1]
      split
      · exact ⟨_, rfl⟩
      · exact ⟨_, rfl⟩
      · next hrule => exact ⟨_, if_neg (hwide.2 hrule)⟩
    obtain ⟨score, hscore⟩ := hscore
    exact h (i, score) (mem_candidates_iff_score.mpr ⟨v, hv, hscore⟩)
  · rintro h found hfound
    obtain ⟨v, hv, hscore⟩ := mem_candidates_iff_score.mp hfound
    unfold dimensionScore? at hscore
    dsimp only at hscore
    rcases h found.1 v hv with hnarrow | ⟨hrule, hdomain⟩
    · rw [if_pos hnarrow] at hscore
      cases hscore
    · rw [hrule] at hscore
      dsimp only at hscore
      rw [if_pos hdomain] at hscore
      split at hscore <;> cases hscore

/-- Where a dimension is chosen, it is that of a variable. -/
theorem bind_choose_eq_none_iff {box : Box α} :
    ((b.choose box point).bind fun i => b.vars[i]?.map (i, ·)) = none
      ↔ b.choose box point = none := by
  cases hchoose : b.choose box point with
  | none => exact ⟨fun _ => rfl, fun _ => rfl⟩
  | some i =>
    obtain ⟨v, hv, -⟩ := width_of_choose hchoose
    rw [Option.bind_some, hv]
    exact ⟨nofun, nofun⟩

/-- A node that is to be branched is refused if it does not fit or cannot be split. -/
theorem branch_refused_iff :
    (b.branch n point objective tolerance).1 = .error e
      ↔ b.Misfit n e
        ∨ b.Unsplittable n tolerance ∧ e = .invalidProblem (.nothingToSplit n.id) := by
  constructor
  · intro h
    rcases hbranch : b.branch n point objective tolerance with ⟨answer, c⟩
    rw [hbranch] at h
    cases h
    -- of the exits of branching only two are refusals
    cases branch_exit hbranch with
    | misfit hfault => exact .inl (dimensionFault?_eq_some_iff.mp hfault)
    | stuck hfits hfull hwide hlarge hnone =>
      refine .inr ⟨⟨dimensionFault_eq_none_iff.mp hfits, hfull, hwide, hlarge, ?_⟩, rfl⟩
      exact choose_eq_none_iff_narrow.mp (bind_choose_eq_none_iff.mp hnone)
  · rintro (hmisfit | ⟨h, rfl⟩)
    · rw [branch, dimensionFault?_eq_some_iff.mpr hmisfit]
    · have hchoose : b.choose (roundDiscrete b.vars n.box) point = none :=
        choose_eq_none_iff_narrow.mpr h.narrow
      unfold branch
      simp only [dimensionFault_eq_none_iff.mpr h.fits, h.full, h.wide, h.large,
        bind_choose_eq_none_iff.mpr hchoose, Bool.false_eq_true, if_false]

/-- Whether a node can be branched depends on the variables and the rule. -/
theorem Refuses.branch_congr (h : c.Refuses (.branch n point objective tolerance) e)
    (hvars : c.vars = b.vars) (hrule : c.rule = b.rule) :
    b.Refuses (.branch n point objective tolerance) e := by
  rcases h with ⟨hmisfit, heq⟩ | ⟨h, heq⟩
  · rw [hvars] at hmisfit heq
    exact .inl ⟨hmisfit, heq⟩
  · refine .inr ⟨⟨hvars ▸ h.fits, hvars ▸ h.full, hvars ▸ h.wide, ?_, ?_⟩, heq⟩
    · have hlarge := h.large
      unfold isBelowTolerance at hlarge ⊢
      rw [hvars] at hlarge
      exact hlarge
    · have hnarrow := h.narrow
      rw [hvars, hrule] at hnarrow
      exact hnarrow

/-- A node is handed out if one is open. -/
theorem next_refused_iff (hb : b.frontier.Consistent) :
    b.next.1 = .error e ↔ b.frontier.isEmpty = true ∧ e = .emptyTree := by
  rw [hb.isEmpty_iff, ← hb.pop?_eq_none, next]
  cases b.frontier.pop? with
  | none => simp [eq_comm]
  | some p => exact ⟨nofun, nofun⟩

/-- A node is confirmed if it is waited for. -/
theorem confirm_refused_iff (hknown : ∀ entry ∈ b.waiting, entry.2.history.Known b.vars.length)
    {id : Nat} : (b.confirm id n).1 = .error e ↔ id ∉ b.waiting.ids ∧ e = .unknownNode id := by
  rcases confirm_cases hknown id n with ⟨hid, _, heq⟩ | ⟨hid, heq⟩ <;> rw [heq]
  · exact ⟨nofun, fun h => absurd hid h.1⟩
  · simp [hid, eq_comm]

omit [Scalar α] in
/-- A node is cancelled if it is waited for. -/
theorem cancel_refused_iff {id : Nat} :
    (b.cancel id).1 = .error e ↔ id ∉ b.waiting.ids ∧ e = .unknownNode id := by
  rcases b.cancel_cases id with ⟨hid, heq⟩ | ⟨hid, heq⟩ <;> rw [heq]
  · exact ⟨nofun, fun h => absurd hid h.1⟩
  · simp [hid, eq_comm]

/-! ## All requests -/

/-- As long as the histories of the nodes that are waited for name variables, a request is refused
for one of the reasons and for no other. -/
theorem refusal?_eq_some_iff (hb : b.frontier.Consistent)
    (hknown : ∀ entry ∈ b.waiting, entry.2.history.Known b.vars.length) :
    b.refusal? request = some e ↔ b.Refuses request e := by
  cases request with
  | insertRoot | insertNode => exact errorOf?_eq_some_iff.trans insertScored_refused_iff
  | next => exact errorOf?_eq_some_iff.trans (next_refused_iff hb)
  | confirm => exact errorOf?_eq_some_iff.trans (confirm_refused_iff hknown)
  | cancel => exact errorOf?_eq_some_iff.trans cancel_refused_iff
  | branch => exact errorOf?_eq_some_iff.trans branch_refused_iff
  | allChildren => exact errorOf?_eq_some_iff.trans allChildren_refused_iff
  | lowerThreshold | setTolerances | setSelection | setRule | setScoring => exact ⟨nofun, nofun⟩

/-- As long as the histories of the nodes that are waited for name variables, a request that is
refused changes nothing. -/
theorem after_eq_self (hknown : ∀ entry ∈ b.waiting, entry.2.history.Known b.vars.length)
    (h : b.refusal? request = some e) : b.after request = b := by
  cases request with
  | insertRoot n => exact insertScored_error (Prod.ext (errorOf?_eq_some_iff.mp h) rfl)
  | insertNode n => exact insertScored_error (Prod.ext (errorOf?_eq_some_iff.mp h) rfl)
  | next => exact (handed_of_next_error (Prod.ext (errorOf?_eq_some_iff.mp h) rfl)).2
  | confirm id n =>
    have hanswer := errorOf?_eq_some_iff.mp h
    show (b.confirm id n).2 = b
    -- a confirmation that is granted is no refusal
    rcases confirm_cases hknown id n with ⟨-, _, heq⟩ | ⟨-, heq⟩ <;> rw [heq] at hanswer ⊢
    cases hanswer
  | cancel id =>
    have hanswer := errorOf?_eq_some_iff.mp h
    show (b.cancel id).2 = b
    rcases b.cancel_cases id with ⟨-, heq⟩ | ⟨-, heq⟩ <;> rw [heq] at hanswer ⊢
    cases hanswer
  | branch => exact branch_error (Prod.ext (errorOf?_eq_some_iff.mp h) rfl)
  | allChildren => exact allChildren_error (Prod.ext (errorOf?_eq_some_iff.mp h) rfl)
  | lowerThreshold | setTolerances | setSelection | setRule | setScoring => cases h

end Brancher

namespace Chronicle

variable {s : Chronicle α} {b : Brancher α}

/-! ## The histories of a new brancher -/

/-- The children that a request makes name a variable that there is. -/
theorem known_made {pair : OpenNode α × OpenNode α} {request : Brancher.Request α}
    (h : pair ∈ b.made request) :
    pair.1.history.Known b.vars.length ∧ pair.2.history.Known b.vars.length := by
  obtain ⟨_, -, -, ⟨hv, -, -, hsplit⟩⟩ := Brancher.parted_of_mem_made h
  exact Brancher.split_histories hsplit (List.getElem?_eq_some_iff.mp hv).1

/-- So do all children on record, whatever was requested. -/
theorem known_run (requests : List (Brancher.Request α))
    (h : ∀ pair ∈ s.made, pair.1.history.Known s.brancher.vars.length
      ∧ pair.2.history.Known s.brancher.vars.length) :
    ∀ pair ∈ (s.run requests).made, pair.1.history.Known s.brancher.vars.length
      ∧ pair.2.history.Known s.brancher.vars.length := by
  induction requests generalizing s with
  | nil => exact h
  | cons request rest ih =>
    have hvars : (s.perform request).brancher.vars = s.brancher.vars :=
      (s.brancher.after_unchanged request).1
    rw [← hvars]
    refine ih fun pair hpair => ?_
    rw [hvars]
    rcases List.mem_append.mp hpair with hnew | hold
    · exact known_made (List.mem_reverse.mp hnew)
    · exact h pair hold

/-- And so do the nodes that are waited for. -/
theorem known_waiting [Scalar.Ordered α] {vars : List (Variable α)} (h : Brancher.new vars = .ok b)
    (requests : List (Brancher.Request α)) :
    ∀ entry ∈ ((start b).run requests).brancher.waiting,
      entry.2.history.Known ((start b).run requests).brancher.vars.length := by
  intro entry hentry
  have hfaithful := (faithful_start h).run requests
  rw [vars_run]
  obtain ⟨n, hn, heq⟩ := hfaithful.remembers entry hentry
  rw [heq]
  rcases Faithful.records_lastOut hfaithful.out hn with hunsplit | ⟨pair, hpair, hside⟩
  · intro p hp
    rw [hunsplit] at hp
    cases hp
  · obtain ⟨hdown, hup⟩ := known_run (s := start b) requests nofun pair hpair
    rcases hside with rfl | rfl
    · exact hdown
    · exact hup

/-- The brancher beside a chronicle is the one that the requests lead to. -/
theorem brancher_run (s : Chronicle α) (requests : List (Brancher.Request α)) :
    (s.run requests).brancher = requests.foldl Brancher.after s.brancher := by
  induction requests generalizing s with
  | nil => rfl
  | cons request rest ih => exact ih (s.perform request)

end Chronicle

namespace Brancher

variable {b : Brancher α}

/-- Whatever is requested of a new brancher, with nodes and tolerances of any kind: it refuses a
request for one of the reasons and for no other, and a request that it refuses changes nothing, in
the tree, in what is waited for or in what was learned. -/
theorem after_refused [Scalar.Ordered α] {vars : List (Variable α)} (h : Brancher.new vars = .ok b)
    (requests : List (Request α)) (request : Request α) (e : Error α) :
    let c := requests.foldl after b
    (c.refusal? request = some e ↔ c.Refuses request e)
      ∧ (c.refusal? request = some e → c.after request = c) := by
  intro c
  have hc : c = ((Chronicle.start b).run requests).brancher :=
    ((Chronicle.start b).brancher_run requests).symm
  have hknown := Chronicle.known_waiting h requests
  have hconsistent := ((Chronicle.faithful_start h).run requests).consistent
  rw [← hc] at hknown hconsistent
  exact ⟨refusal?_eq_some_iff hconsistent hknown, after_eq_self hknown⟩

/-- Requests with a node that has no bounds, and with nodes that are back. -/
def refusedRequests : List (Request (Extended ℚ)) :=
  let bare : Node (Extended ℚ) := { mixedNode with box := ⟨[], []⟩ }
  [.insertRoot bare, .insertNode bare, .allChildren bare [], .branch bare [] 0 0,
    .confirm 0 mixedNode, .cancel 3]

/-- They are refused once a node was split, in one dimension and in all of them, and a child came
back; each of them leaves the brancher as it is. -/
theorem after_refused_mixedRequests :
    ∃ c : Brancher (Extended ℚ), c = Chronicle.mixedRequests.foldl after mixedBrancher
      ∧ c.waiting.length = 4
      ∧ ∀ request ∈ refusedRequests, ∃ e, c.refusal? request = some e ∧ c.Refuses request e
        ∧ c.after request = c := by
  have hnew : Brancher.new mixedBrancher.vars = .ok mixedBrancher := rfl
  have hrefused : ∀ request ∈ refusedRequests,
      ((Chronicle.mixedRequests.foldl after mixedBrancher).refusal? request).isSome = true := by
    decide +kernel
  refine ⟨_, rfl, by decide +kernel, fun request hmem => ?_⟩
  obtain ⟨e, he⟩ := Option.isSome_iff_exists.mp (hrefused request hmem)
  obtain ⟨hrefuses, hsame⟩ := after_refused hnew Chronicle.mixedRequests request e
  exact ⟨e, he, hrefuses.mp he, hsame he⟩

end Brancher

end BranchBound
