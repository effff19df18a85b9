import BranchBound.Proofs.Frontier.Collection
import BranchBound.Proofs.Frontier.Thresholds
import BranchBound.Proofs.Scalar.Binary64Laws
import Mathlib.Data.List.Induction

/-! # When open nodes are examined

A node is held against the threshold when it is offered, and all open nodes are whenever the
threshold is lowered. Tolerances count from the next of these occasions on. So a node that is open
scored below the threshold under the tolerances in force when it was examined last; a frontier whose
tolerances were tightened since may hold nodes that its threshold dominates, and hand them out.

* **`Frontier.Sweeps`**, **`Frontier.Examines`** — which requests examine an open node.
* **`Frontier.ExaminedBy`** — the request that examined an open node last, in a run of requests.
* **`Frontier.Steady`** — a run of requests in which the tolerances never catch up with an open
  node.
* **`Frontier.examined_run`** — what holds of the open nodes after any requests.
* **`Frontier.pop_dominated_stiffened`** — a dominated node that is handed out. -/

namespace BranchBound.Frontier

variable {α : Type} [Scalar α] {f g : Frontier α} {m n : OpenNode α} {op : Op α} {ops : List (Op α)}

/-! ## Requests -/

/-- The frontier after some requests. -/
def after (f : Frontier α) (ops : List (Op α)) : Frontier α := (f.run ops).2

/-- Nothing is asked. -/
@[simp] theorem after_nil (f : Frontier α) : f.after [] = f := rfl

/-- A request comes before the others. -/
@[simp] theorem after_cons (f : Frontier α) (op : Op α) (ops : List (Op α)) :
    f.after (op :: ops) = (f.step op).2.after ops := rfl

/-- Requests may be made in two portions. -/
@[simp] theorem after_append (f : Frontier α) (xs ys : List (Op α)) :
    f.after (xs ++ ys) = (f.after xs).after ys := by
  induction xs generalizing f with
  | nil => rfl
  | cons op rest ih => exact ih (f.step op).2

/-- The request sweeps the open nodes: it lowers the threshold, or sets it to the value that it
has. -/
def Sweeps (f : Frontier α) : Op α → Prop
  | .lowerThreshold threshold => ¬ (Scalar.isNaN threshold = true ∨ f.threshold < threshold)
  | _ => False

instance (f : Frontier α) (op : Op α) : Decidable (f.Sweeps op) := by
  cases op <;> unfold Sweeps <;> infer_instance

/-- The request examines an open node: it offers the node, which is not dominated, or it sweeps the
open nodes and the node is one of them. -/
def Examines (f : Frontier α) (m : OpenNode α) (op : Op α) : Prop :=
  op = .insert m ∧ f.dominates m.score = false ∨ m ∈ f.toList ∧ f.Sweeps op

/-- The node that is offered has a defined score. -/
def Op.Scored : Op α → Prop
  | .insert n => Scalar.isNaN n.score = false
  | _ => True

instance (op : Op α) : Decidable op.Scored := by
  cases op <;> unfold Op.Scored <;> infer_instance

/-- The request sets no tolerances under which the threshold falls while nodes are open. -/
def Lenient (f : Frontier α) : Op α → Prop
  | .setTolerances rel abs =>
      f.toList = [] ∨ f.adjustedThreshold ≤ (f.setTolerances rel abs).adjustedThreshold
  | _ => True

instance (f : Frontier α) (op : Op α) : Decidable (f.Lenient op) := by
  cases op <;> unfold Lenient <;> infer_instance

/-- No request in a run sets such tolerances. -/
def Steady (f : Frontier α) : List (Op α) → Prop
  | [] => True
  | op :: ops => f.Lenient op ∧ Steady (f.step op).2 ops

instance decidableSteady : (f : Frontier α) → (ops : List (Op α)) → Decidable (f.Steady ops)
  | _, [] => inferInstanceAs (Decidable True)
  | f, op :: ops =>
      have := decidableSteady (f.step op).2 ops
      inferInstanceAs (Decidable (f.Lenient op ∧ (f.step op).2.Steady ops))

/-- In a run of requests, an open node was examined last by one that came between others: it scored
below the threshold then and has been open since, and the threshold is the same. -/
structure ExaminedBy (f : Frontier α) (ops : List (Op α)) (m : OpenNode α) (before : List (Op α))
    (op : Op α) (later : List (Op α)) : Prop where
  /-- The place of the request in the run. -/
  place : ops = before ++ op :: later
  /-- It examines the node. -/
  examines : (f.after before).Examines m op
  /-- The node is open from then on. -/
  stays : ∀ xs ys, later = xs ++ ys → m ∈ (f.after (before ++ op :: xs)).toList
  /-- No later request examines it. -/
  last : ∀ xs x ys, later = xs ++ x :: ys → ¬ (f.after (before ++ op :: xs)).Examines m x
  /-- The threshold is still the same. -/
  threshold : (f.after ops).threshold = (f.after (before ++ [op])).threshold
  /-- The node scored below it, under the tolerances in force then. -/
  below : m.score < (f.after (before ++ [op])).adjustedThreshold

/-! ## One request -/

/-- A frontier dominates the scores from its threshold under the tolerances on. -/
theorem dominates_eq_true {score : α} :
    f.dominates score = true ↔ f.adjustedThreshold ≤ score :=
  decide_eq_true_iff

/-- A request leaves the limits alone, or it sweeps and sets the threshold, or it sets the
tolerances. -/
theorem limits_step (f : Frontier α) (op : Op α) :
    f.SameLimits (f.step op).2
      ∨ (∃ threshold, op = .lowerThreshold threshold ∧ f.Sweeps op
        ∧ (f.withThreshold threshold).SameLimits (f.step op).2)
      ∨ ∃ rel abs, op = .setTolerances rel abs := by
  cases op with
  | insert n => exact .inl (f.sameLimits_insert n)
  | pop =>
    refine .inl ?_
    unfold step
    dsimp only
    split
    · exact .refl f
    · next hpop => exact sameLimits_pop hpop
  | lowerThreshold threshold =>
    by_cases hignored : Scalar.isNaN threshold = true ∨ f.threshold < threshold
    · refine .inl ?_
      show f.SameLimits (f.lowerThreshold threshold).2
      rw [lowerThreshold_of_ignored hignored]
      exact .refl f
    · exact .inr (.inl ⟨threshold, rfl, hignored, sameLimits_lowerThreshold hignored⟩)
  | setSelection selection => exact .inl (f.sameLimits_setSelection selection)
  | setTolerances rel abs => exact .inr (.inr ⟨rel, abs, rfl⟩)
  | takeId | reserveIds => exact .inl ⟨rfl, rfl, rfl⟩

/-- Only a request that lowers the threshold changes it. -/
theorem threshold_step (h : ¬ f.Sweeps op) : (f.step op).2.threshold = f.threshold := by
  rcases f.limits_step op with hsame | ⟨_, rfl, hsweeps, -⟩ | ⟨_, _, rfl⟩
  · exact hsame.threshold
  · exact absurd hsweeps h
  · rfl

/-- The nodes that are open after a request were open before, or the request offers them. They are
not dominated if the request examines them. -/
theorem Consistent.mem_step (hf : f.Consistent) (hm : m ∈ (f.step op).2.toList) :
    op = .insert m ∧ f.dominates m.score = false
      ∨ m ∈ f.toList ∧ (f.Sweeps op → (f.step op).2.dominates m.score = false) := by
  cases op with
  | insert n =>
    change m ∈ (f.insert n).2.toList at hm
    cases hdom : f.dominates n.score with
    | true =>
      rw [insert_of_dominates hdom] at hm
      exact .inr ⟨hm, False.elim⟩
    | false =>
      rw [Frontier.insert_of_not_dominates hdom, (hf.toList_place n).mem_iff] at hm
      rcases List.mem_cons.mp hm with rfl | hm
      · exact .inl ⟨rfl, hdom⟩
      · exact .inr ⟨hm, False.elim⟩
  | pop =>
    refine .inr ⟨?_, False.elim⟩
    unfold step at hm
    dsimp only at hm
    split at hm
    · exact hm
    · next hpop => exact (hf.toList_pop hpop).mem_iff.mpr (List.mem_cons_of_mem _ hm)
  | lowerThreshold threshold =>
    -- a sweep only leaves nodes that the new threshold does not dominate
    change m ∈ (f.lowerThreshold threshold).2.toList at hm
    by_cases hignored : Scalar.isNaN threshold = true ∨ f.threshold < threshold
    · rw [lowerThreshold_of_ignored hignored] at hm
      exact .inr ⟨hm, fun hsweeps => absurd hignored hsweeps⟩
    · have hlimits := sameLimits_lowerThreshold hignored
      rw [lowerThreshold_of_not_ignored hignored, (hf.toList_fathomFrom threshold).mem_iff,
        List.mem_filter, Bool.not_eq_true'] at hm
      exact .inr ⟨hm.1, fun _ => (hlimits.dominates m.score).trans hm.2⟩
  | setSelection selection =>
    exact .inr ⟨(toList_setSelection f selection).mem_iff.mp hm, False.elim⟩
  | setTolerances | takeId | reserveIds => exact .inr ⟨hm, False.elim⟩

/-- A node that is open after a request was examined by it and is not dominated, or it was open
before and was not examined. -/
theorem Consistent.examined_or_open (hf : f.Consistent) (hm : m ∈ (f.step op).2.toList) :
    f.Examines m op ∧ (f.step op).2.dominates m.score = false
      ∨ m ∈ f.toList ∧ ¬ f.Examines m op := by
  by_cases hexamines : f.Examines m op
  · refine .inl ⟨hexamines, ?_⟩
    rcases hexamines with ⟨rfl, hdom⟩ | ⟨-, hsweeps⟩
    · exact ((f.sameLimits_insert m).dominates _).trans hdom
    · rcases hf.mem_step hm with ⟨rfl, -⟩ | ⟨-, hdom⟩
      · exact hsweeps.elim
      · exact hdom hsweeps
  · rcases hf.mem_step hm with ⟨rfl, hdom⟩ | ⟨hopen, -⟩
    · exact absurd (.inl ⟨rfl, hdom⟩) hexamines
    · exact .inr ⟨hopen, hexamines⟩

/-- A frontier stays consistent whatever is asked. -/
theorem Consistent.step [Scalar.Ordered α] (hf : f.Consistent) (op : Op α) :
    (f.step op).2.Consistent := by
  cases op with
  | insert n => exact hf.insert n
  | pop =>
    unfold Frontier.step
    dsimp only
    split
    · exact hf
    · next hpop => exact hf.pop hpop
  | lowerThreshold threshold => exact hf.lowerThreshold threshold
  | setSelection selection => exact hf.setSelection selection
  | setTolerances | takeId | reserveIds => exact hf.of_eq rfl rfl rfl rfl

/-- A frontier stays consistent through any requests. -/
theorem Consistent.after [Scalar.Ordered α] (hf : f.Consistent) (ops : List (Op α)) :
    (f.after ops).Consistent := by
  induction ops generalizing f with
  | nil => exact hf
  | cons op rest ih => exact ih (hf.step op)

/-- The open nodes have defined scores if those that are offered do. -/
theorem Consistent.scored_after [Scalar.Ordered α] (hf : f.Consistent)
    (hscores : ∀ m ∈ f.toList, Scalar.isNaN m.score = false) (hscored : ∀ op ∈ ops, op.Scored) :
    ∀ m ∈ (f.after ops).toList, Scalar.isNaN m.score = false := by
  induction ops generalizing f with
  | nil => exact hscores
  | cons op rest ih =>
    refine ih (hf.step op) (fun m hm => ?_) fun x hx => hscored x (List.mem_cons_of_mem _ hx)
    rcases hf.mem_step hm with ⟨rfl, -⟩ | ⟨hopen, -⟩
    · exact hscored _ List.mem_cons_self
    · exact hscores m hopen

/-! ## Defined thresholds -/

/-- The threshold is defined, and so is the absolute tolerance. -/
structure Defined (f : Frontier α) : Prop where
  /-- The threshold. -/
  threshold : Scalar.isNaN f.threshold = false
  /-- The absolute tolerance. -/
  absTolerance : Scalar.isNaN f.absTolerance = false

/-- Limits that are defined stay so if they do not change. -/
theorem SameLimits.defined (h : f.SameLimits g) (hf : f.Defined) : g.Defined where
  threshold := h.threshold.symm ▸ hf.threshold
  absTolerance := h.absTolerance.symm ▸ hf.absTolerance

variable [Scalar.Congruent α]

/-- A new frontier has no threshold and no tolerances. -/
theorem defined_new (selection : NodeSelection) :
    (Frontier.new selection : Frontier α).Defined where
  threshold := Scalar.Ordered.isNaN_infinity
  absTolerance := Scalar.Congruent.isNaN_of_isFinite Scalar.Congruent.isFinite_zero

/-- The greater of two values is defined if one of them is. -/
theorem isNaN_greatest {x y : α} (h : Scalar.isNaN x = false ∨ Scalar.isNaN y = false) :
    Scalar.isNaN (Scalar.greatest x y) = false := by
  unfold Scalar.greatest
  split
  · next hx =>
    rcases hx with hlt | hy
    · exact Scalar.Ordered.isNaN_right_of_le (Scalar.le_of_lt hlt)
    · exact h.resolve_right fun hy' => by rw [hy] at hy'; cases hy'
  · next hy => exact Bool.eq_false_iff.mpr fun hnan => hy (.inr hnan)

/-- A defined threshold is defined under the tolerances. -/
theorem Defined.adjustedThreshold (hf : f.Defined) :
    Scalar.isNaN f.adjustedThreshold = false := by
  unfold Frontier.adjustedThreshold toleranceAdjusted
  split
  · next hfinite =>
    exact (Scalar.Congruent.same_sub hfinite
      (.refl (isNaN_greatest (.inl hf.absTolerance)))).isNaN
  · exact hf.threshold

/-- The threshold stays defined whatever is asked. -/
theorem Defined.step (hf : f.Defined) (op : Op α) : (f.step op).2.Defined := by
  rcases f.limits_step op with hsame | ⟨threshold, rfl, hsweeps, hsame⟩ | ⟨rel, abs, rfl⟩
  · exact hsame.defined hf
  · refine hsame.defined ⟨?_, hf.absTolerance⟩
    exact Bool.eq_false_iff.mpr fun hnan => hsweeps (.inl hnan)
  · refine ⟨hf.threshold, isNaN_greatest (.inr ?_)⟩
    exact Scalar.Congruent.isNaN_of_isFinite Scalar.Congruent.isFinite_zero

/-- The threshold stays defined through any requests. -/
theorem Defined.after (hf : f.Defined) (ops : List (Op α)) : (f.after ops).Defined := by
  induction ops generalizing f with
  | nil => exact hf
  | cons op rest ih => exact ih (hf.step op)

/-! ## Runs without stiffer tolerances -/

/-- A request that lowers the threshold leaves the open nodes below it, whatever they scored
before. -/
theorem Consistent.below_of_sweeps (hf : f.Consistent) (hdef : f.Defined) (hsweeps : f.Sweeps op)
    (hscores : ∀ m ∈ f.toList, Scalar.isNaN m.score = false) : (f.step op).2.Below := by
  intro m hm
  obtain ⟨n, hn, rfl⟩ := mem_nodes.mp hm
  rcases hf.mem_step hn with ⟨rfl, -⟩ | ⟨hopen, hdom⟩
  · exact hsweeps.elim
  · exact (lt_adjustedThreshold_iff (hscores n hopen) (hdef.step op).adjustedThreshold).mpr
      (hdom hsweeps)

/-- Requests under which the tolerances do not catch up with an open node leave the open nodes below
the threshold. -/
theorem Consistent.below_step (hf : f.Consistent) (hdef : f.Defined) (hbelow : f.Below)
    (hscored : op.Scored) (hlenient : f.Lenient op) : (f.step op).2.Below := by
  have hopen : ∀ m ∈ f.toList, m.score < f.adjustedThreshold :=
    fun m hm => hbelow m.node (mem_nodes.mpr ⟨m, hm, rfl⟩)
  -- a request that leaves the limits alone adds no node that they dominate
  rcases f.limits_step op with hsame | ⟨_, rfl, hsweeps, -⟩ | ⟨rel, abs, rfl⟩
  · intro m hm
    obtain ⟨n, hn, rfl⟩ := mem_nodes.mp hm
    rw [hsame.adjustedThreshold]
    rcases hf.mem_step hn with ⟨rfl, hdom⟩ | ⟨hmem, -⟩
    · exact (lt_adjustedThreshold_iff hscored hdef.adjustedThreshold).mpr hdom
    · exact hopen n hmem
  · exact hf.below_of_sweeps hdef hsweeps fun m hm =>
      Scalar.Ordered.isNaN_left_of_le (Scalar.le_of_lt (hopen m hm))
  · intro m hm
    rcases hlenient with hempty | hle
    · obtain ⟨n, hn, -⟩ := mem_nodes.mp hm
      exact absurd (hempty ▸ hn) List.not_mem_nil
    · exact Scalar.lt_of_lt_of_le (hbelow m hm) hle

/-- The open nodes stay below the threshold through any such requests. -/
theorem Consistent.below_after (hf : f.Consistent) (hdef : f.Defined) (hbelow : f.Below)
    (hscored : ∀ op ∈ ops, op.Scored) (hsteady : f.Steady ops) : (f.after ops).Below := by
  induction ops generalizing f with
  | nil => exact hbelow
  | cons op rest ih =>
    have hfirst := hscored op List.mem_cons_self
    exact ih (hf.step op) (hdef.step op) (hf.below_step hdef hbelow hfirst hsteady.1)
      (fun x hx => hscored x (List.mem_cons_of_mem _ hx)) hsteady.2

/-! ## Any requests -/

/-- An open node that the last request examines and that is not dominated then scores below the
threshold. -/
theorem Defined.examinedBy_last {x : Op α} (hf : f.Defined) (hexamines : (f.after ops).Examines m x)
    (hopen : m ∈ (f.after (ops ++ [x])).toList) (hscore : Scalar.isNaN m.score = false)
    (hdom : ((f.after ops).step x).2.dominates m.score = false) :
    f.ExaminedBy (ops ++ [x]) m ops x [] where
  place := rfl
  examines := hexamines
  stays xs ys hnil := by
    rw [(List.append_eq_nil_iff.mp hnil.symm).1]
    exact hopen
  last xs y ys hnil :=
    absurd hnil.symm (List.append_ne_nil_of_right_ne_nil _ (List.cons_ne_nil y ys))
  threshold := rfl
  below := by
    rw [after_append, after_cons, after_nil]
    exact (lt_adjustedThreshold_iff hscore ((hf.after ops).step x).adjustedThreshold).mpr hdom

omit [Scalar.Congruent α] in
/-- A node that was examined last by some request still is after one that does not examine it and
leaves it open. -/
theorem ExaminedBy.snoc {before later : List (Op α)} {x : Op α}
    (h : f.ExaminedBy ops m before op later) (hx : ¬ (f.after ops).Examines m x)
    (hopen : m ∈ (f.after (ops ++ [x])).toList) :
    f.ExaminedBy (ops ++ [x]) m before op (later ++ [x]) where
  place := by rw [h.place, List.append_assoc, List.cons_append]
  examines := h.examines
  stays xs ys hsplit := by
    rcases List.eq_nil_or_concat ys with rfl | ⟨rest, z, rfl⟩
    · rw [List.append_nil] at hsplit
      rwa [← hsplit, ← List.cons_append, ← List.append_assoc, ← h.place]
    · rw [List.concat_eq_append, ← List.append_assoc] at hsplit
      exact h.stays xs rest (List.append_inj' hsplit rfl).1
  last xs y ys hsplit := by
    rcases List.eq_nil_or_concat ys with rfl | ⟨rest, z, rfl⟩
    · obtain ⟨rfl, hxy⟩ := List.append_inj' hsplit rfl
      cases hxy
      rwa [← h.place]
    · rw [List.concat_eq_append, ← List.cons_append, ← List.append_assoc] at hsplit
      exact h.last xs y rest (List.append_inj' hsplit rfl).1
  threshold := by
    -- a sweep would examine the node, which has been open all along
    have hsame : m ∈ (f.after ops).toList := h.place ▸ h.stays later [] (List.append_nil _).symm
    have hkept : ¬ (f.after ops).Sweeps x := fun hsweeps => hx (.inr ⟨hsame, hsweeps⟩)
    rw [after_append, after_cons, after_nil, threshold_step hkept]
    exact h.threshold
  below := h.below

/-- After any requests, each open node was examined by one of them and scored below the threshold
then. -/
theorem Consistent.exists_examinedBy (hf : f.Consistent) (hdef : f.Defined) (hempty : f.toList = [])
    (hscored : ∀ op ∈ ops, op.Scored) :
    ∀ m ∈ (f.after ops).toList, ∃ before op later, f.ExaminedBy ops m before op later := by
  -- The last request examines a node, or it leaves the node as the requests before it did.
  induction ops using List.reverseRecOn with
  | nil =>
    intro m hm
    rw [after_nil, hempty] at hm
    cases hm
  | append_singleton xs x ih =>
    intro m hopen
    have hscore := hf.scored_after (by rw [hempty]; exact nofun) hscored m hopen
    have hm := hopen
    rw [after_append, after_cons, after_nil] at hm
    rcases (hf.after xs).examined_or_open hm with ⟨hexamines, hdom⟩ | ⟨hbefore, hexamines⟩
    · exact ⟨xs, x, [], hdef.examinedBy_last hexamines hopen hscore hdom⟩
    · obtain ⟨before, op, later, h⟩ :=
        ih (fun op hop => hscored op (List.mem_append_left _ hop)) m hbefore
      exact ⟨before, op, later ++ [x], h.snoc hexamines hopen⟩

/-- In a run of requests, the tolerances never catch up with an open node, or they did not since a
request lowered the threshold. -/
def Settled (f : Frontier α) (ops : List (Op α)) : Prop :=
  f.Steady ops ∨ ∃ before op later, ops = before ++ op :: later ∧ (f.after before).Sweeps op
    ∧ (f.after (before ++ [op])).Steady later

/-- After any requests that offer nodes of defined scores, each open node scored below the threshold
under the tolerances in force when it was examined last; it has been open since, and the threshold
is the same. No open node is dominated, and none that is handed out, unless the tolerances were made
stiffer while nodes were open and the threshold has not been lowered since. -/
theorem examined_run (selection : NodeSelection) (ops : List (Op α))
    (hscored : ∀ op ∈ ops, op.Scored) :
    (∀ m ∈ ((Frontier.new selection).after ops).toList,
      ∃ before op later, (Frontier.new selection).ExaminedBy ops m before op later)
    ∧ ((Frontier.new selection).Settled ops →
      (∀ m ∈ ((Frontier.new selection).after ops).toList,
        m.score < ((Frontier.new selection).after ops).adjustedThreshold)
      ∧ ∀ n g, ((Frontier.new selection).after ops).pop? = some (n, g) →
        n.score < ((Frontier.new selection).after ops).adjustedThreshold) := by
  have hf := consistent_new (α := α) selection
  have hdef := defined_new (α := α) selection
  refine ⟨hf.exists_examinedBy hdef (toList_new selection) hscored, fun hsettled => ?_⟩
  have hbelow : ((Frontier.new selection).after ops).Below := by
    rcases hsettled with hsteady | ⟨before, op, later, rfl, hsweeps, hsteady⟩
    · have hnew : (Frontier.new selection : Frontier α).Below := fun m hm => by
        obtain ⟨n, hn, -⟩ := mem_nodes.mp hm
        rw [toList_new] at hn
        cases hn
      exact hf.below_after hdef hnew hscored hsteady
    · -- the nodes may be dominated before the sweep, but their scores are defined
      have hscores := hf.scored_after (by rw [toList_new]; exact nofun)
        fun x hx => hscored x (List.mem_append_left _ hx)
      have hlowered := (hf.after before).below_of_sweeps (hdef.after before) hsweeps hscores
      rw [after_append, after_cons, after_nil] at hsteady
      rw [after_append, after_cons]
      exact ((hf.after before).step op).below_after ((hdef.after before).step op) hlowered
        (fun x hx => hscored x (List.mem_append_right _ (List.mem_cons_of_mem _ hx))) hsteady
  -- the node that is handed out is one of the open ones
  have hopen : ∀ m ∈ ((Frontier.new selection).after ops).toList,
      m.score < ((Frontier.new selection).after ops).adjustedThreshold :=
    fun m hm => hbelow m.node (mem_nodes.mpr ⟨m, hm, rfl⟩)
  refine ⟨hopen, fun n g hpop => hopen n ?_⟩
  exact ((hf.after ops).toList_pop hpop).mem_iff.mpr List.mem_cons_self

/-- Requests after which the tolerances are stiffer than they were when two nodes were examined. -/
def stiffened : List (Op Float) :=
  [.insert (sampleNode 0 1), .insert (sampleNode (-3) 2), .lowerThreshold 1, .setTolerances 0 1]

/-- The threshold is set anew after these. -/
def swept : List (Op Float) := stiffened ++ [.lowerThreshold 1]

/-- Setting the threshold anew removes the one node that it dominates by now. The other one was
examined like that. -/
theorem examined_run_swept :
    (∀ op ∈ swept, op.Scored) ∧ (Frontier.new .breadthFirst).Settled swept
      ∧ ((Frontier.new .breadthFirst).after swept).size = 1
      ∧ ∀ m ∈ ((Frontier.new .breadthFirst).after swept).toList,
        (∃ before op later, (Frontier.new .breadthFirst).ExaminedBy swept m before op later)
        ∧ m.score < ((Frontier.new .breadthFirst).after swept).adjustedThreshold := by
  have hscored : ∀ op ∈ swept, op.Scored := by decide +kernel
  have hsettled : (Frontier.new .breadthFirst).Settled swept :=
    .inr ⟨stiffened, .lowerThreshold 1, [], rfl, by decide +kernel, trivial⟩
  obtain ⟨hexamined, hbelow⟩ := examined_run .breadthFirst _ hscored
  exact ⟨hscored, hsettled, by decide +kernel,
    fun m hm => ⟨hexamined m hm, (hbelow hsettled).1 m hm⟩⟩

/-- Before that, a node that the threshold dominates is open and comes out next. -/
theorem pop_dominated_stiffened :
    (∀ op ∈ stiffened, op.Scored)
      ∧ ∃ n g, ((Frontier.new .breadthFirst).after stiffened).pop? = some (n, g)
        ∧ n ∈ ((Frontier.new .breadthFirst).after stiffened).toList
        ∧ ((Frontier.new .breadthFirst).after stiffened).adjustedThreshold ≤ n.score := by
  refine ⟨by decide +kernel, ?_⟩
  have hpop : (((Frontier.new .breadthFirst).after stiffened).pop?.any fun taken =>
      ((Frontier.new .breadthFirst).after stiffened).dominates taken.1.score) = true := by
    decide +kernel
  obtain ⟨⟨n, g⟩, hpop, hdom⟩ := (Option.any_eq_true _ _).mp hpop
  have hopen := ((consistent_new .breadthFirst).after stiffened).toList_pop hpop
  exact ⟨n, g, hpop, hopen.mem_iff.mpr List.mem_cons_self, dominates_eq_true.mp hdom⟩

end BranchBound.Frontier
