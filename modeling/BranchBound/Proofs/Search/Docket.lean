import BranchBound.Proofs.Brancher.Offspring
import BranchBound.Proofs.Search.Refusing
import BranchBound.Proofs.Search.Remembering

/-! # The docket of a search

Whoever drives a search can keep a docket of its nodes from the answers alone: which of them are
out, which came back, and how the reports on them were answered.

A node that comes up for branching as a single point is queued once more, and its id is noted; when
it comes up again it was evaluated twice and is closed. The note is looked up only if the box is a
single point as it was reported, whereas the box that is queued is one after its bounds were moved
to whole numbers, with some slack. So it matters that a noted id belongs to a single point wherever
its node is, and that no report empties the box of its node or moves a bound outwards.

* **`Docket`** — a search with its docket; `Docket.perform` does an operation and writes down the
  answer, and `Docket.Step` is an operation that follows the protocol.
* **`Answer.Closes`** — nothing comes of a node any more.
* **`Docket.Kept`** — the search agrees with its docket; every operation that follows the protocol
  keeps that (`Kept.perform`). -/

namespace BranchBound

variable {α : Type} [Scalar α]

/-! ## Boxes -/

namespace Box

variable {a b : Box α}

/-- The pairs of bounds of a box are those of the dimensions that are bounded from both sides. -/
theorem all_zip_iff {P : α × α → Bool} : (b.lower.zip b.upper).all P = true
    ↔ ∀ i, i < b.lower.length → i < b.upper.length → P (b.lowerAt i, b.upperAt i) = true := by
  rw [List.all_eq_true, List.forall_mem_iff_getElem]
  constructor
  · intro h i hlower hupper
    have hi := h i (by rw [List.length_zip]; omega)
    rw [List.getElem_zip] at hi
    rwa [lowerAt, upperAt, List.getD_eq_getElem _ _ hlower, List.getD_eq_getElem _ _ hupper]
  · intro h i hi
    rw [List.length_zip] at hi
    have hlower : i < b.lower.length := by omega
    have hupper : i < b.upper.length := by omega
    have hP := h i hlower hupper
    rw [lowerAt, upperAt, List.getD_eq_getElem _ _ hlower, List.getD_eq_getElem _ _ hupper] at hP
    rwa [List.getElem_zip]

/-- No bound was moved outwards if no bound of a dimension was. -/
theorem shrunk_iff : a.Shrunk b ↔ a.lower.length = b.lower.length ∧ a.upper.length = b.upper.length
    ∧ (∀ i < b.lower.length, a.lowerAt i = b.lowerAt i ∨ b.lowerAt i ≤ a.lowerAt i)
    ∧ ∀ i < b.upper.length, a.upperAt i = b.upperAt i ∨ a.upperAt i ≤ b.upperAt i := by
  constructor
  · exact fun h => ⟨h.lower_length, h.upper_length, fun i _ => h.lower i, fun i _ => h.upper i⟩
  · rintro ⟨hlower, hupper, hraised, hlowered⟩
    refine ⟨hlower, hupper, fun i => ?_, fun i => ?_⟩
    · by_cases hi : i < b.lower.length
      · exact hraised i hi
      · -- bounds beyond the last dimension read as zero
        refine .inl ?_
        rw [lowerAt, lowerAt, List.getD_eq_default _ _ (by omega),
          List.getD_eq_default _ _ (by omega)]
    · by_cases hi : i < b.upper.length
      · exact hlowered i hi
      · refine .inl ?_
        rw [upperAt, upperAt, List.getD_eq_default _ _ (by omega),
          List.getD_eq_default _ _ (by omega)]

/-- What a single point shrank to is that point, unless it is empty. -/
theorem Shrunk.isPoint_of_isPoint [Scalar.Ordered α] (h : a.Shrunk b)
    (hfull : a.isEmpty = false) (hpoint : b.isPoint = true) : a.isPoint = true := by
  rw [Box.isPoint, all_zip_iff] at hpoint ⊢
  rw [Box.isEmpty, List.any_eq_not_all_not, Bool.not_eq_false', all_zip_iff] at hfull
  intro i hlower hupper
  obtain ⟨hle, hge⟩ := Scalar.Ordered.beq_iff_le_ge.mp
    (hpoint i (h.lower_length ▸ hlower) (h.upper_length ▸ hupper))
  have hlow : b.lowerAt i ≤ a.lowerAt i := by
    rcases h.lower i with heq | hraised
    · rw [heq]
      exact Scalar.Ordered.le_refl (Scalar.Ordered.isNaN_left_of_le hle)
    · exact hraised
  have hhigh : a.upperAt i ≤ b.upperAt i := by
    rcases h.upper i with heq | hlowered
    · rw [heq]
      exact Scalar.Ordered.le_refl (Scalar.Ordered.isNaN_left_of_le hge)
    · exact hlowered
  -- the bounds lie between two equal ones, and are in order
  refine Scalar.Ordered.beq_iff_le_ge.mpr
    ⟨?_, Scalar.Ordered.le_trans hhigh (Scalar.Ordered.le_trans hge hlow)⟩
  refine Scalar.le_of_not_lt (Scalar.Ordered.isNaN_left_of_le hhigh)
    (Scalar.Ordered.isNaN_right_of_le hlow) ?_
  simpa using hfull i hlower hupper

end Box

/-! ## Names -/

/-- A node may be replaced by another one of the same id, which has to be a single point if the id
is noted. -/
theorem Names.replace {live : Multiset (Node α)} {requeued : List Nat} {next : Nat} {n m : Node α}
    (h : Names (n ::ₘ live) requeued next) (hid : m.id = n.id)
    (hpoint : n.id ∈ requeued → m.box.isPoint = true) : Names (m ::ₘ live) requeued next where
  nodup := by
    have hnodup := h.nodup
    rwa [Multiset.map_cons, ← hid, ← Multiset.map_cons] at hnodup
  below k hk := by
    rcases Multiset.mem_cons.mp hk with rfl | hk
    · exact hid ▸ h.below n (Multiset.mem_cons_self n live)
    · exact h.below k (Multiset.mem_cons_of_mem hk)
  requeued_below := h.requeued_below
  isPoint k hk hnoted := by
    rcases Multiset.mem_cons.mp hk with rfl | hk
    · exact hpoint (hid ▸ hnoted)
    · exact h.isPoint k (Multiset.mem_cons_of_mem hk) hnoted

/-! ## The docket -/

deriving instance DecidableEq for Box, Node

/-- The answer to a report that was accepted. -/
structure Answer where
  /-- The id of the node. -/
  id : Nat
  /-- The stage in which it was reported. -/
  reported : Stage
  /-- Its final stage. -/
  final : Stage
  deriving DecidableEq, Repr

/-- The node is closed: it was fathomed in its processing, or was evaluated twice. -/
def Answer.Closes (a : Answer) : Prop :=
  match a.reported with
  | .fathomed reason => a.final = .fathomed reason
  | .postprocessed => a.final = .fathomed .fixedPointEvaluated
  | _ => False

/-- A node that is closed was fathomed. -/
theorem Answer.Closes.fathomed {a : Answer} (h : a.Closes) :
    ∃ reason, a.final = .fathomed reason := by
  unfold Answer.Closes at h
  split at h
  · exact ⟨_, h⟩
  · exact ⟨_, h⟩
  · exact h.elim

/-- The number of children of a node in its final stage. -/
def Stage.children : Stage → Nat
  | .branched => 2
  | _ => 0

/-- Branching gives out ids to the children and to no other node. -/
theorem Brancher.Branched.nextId {b c : Brancher α} {parent : Node α} {point : List α}
    {objective : α} {outcome : Brancher.Branching}
    (h : Brancher.Branched b parent point objective outcome c)
    (hroom : b.frontier.nextId + 2 < wordRange) :
    c.frontier.nextId = b.frontier.nextId + outcome.stage.children := by
  cases h with
  | dropped => rfl
  | requeued =>
    rw [Brancher.offer_frontier, Frontier.nextId_insert]
    rfl
  | split hv hsplit =>
    obtain ⟨-, -, rfl⟩ := Brancher.split_ids hsplit hroom
    rw [Brancher.offer_frontier, Brancher.offer_frontier, Frontier.nextId_insert,
      Frontier.nextId_insert]
    rfl

/-- The report on a single point whose id is noted closes the node. -/
theorem Search.closes_of_twice {s t : Search α} {r : Report α} {final : Stage}
    (hpoint : r.node.box.isPoint = true) (hnoted : r.node.id ∈ s.requeued)
    (hsettle : s.settle r = (.ok final, t)) : Answer.Closes ⟨r.node.id, r.stage, final⟩ := by
  cases Search.settlement hsettle with
  | fathomed hstage => simp only [Answer.Closes, hstage]
  | twice hstage => simp only [Answer.Closes, hstage]
  | branched _ honce => exact absurd ⟨hpoint, hnoted⟩ honce

/-- Such a report can be acted on, if processing came to an end. -/
theorem Search.exists_settle_of_twice {s : Search α} {r : Report α}
    (hpoint : r.node.box.isPoint = true) (hnoted : r.node.id ∈ s.requeued)
    (hstage : r.stage = .postprocessed ∨ ∃ reason, r.stage = .fathomed reason) :
    ∃ final t, s.settle r = (.ok final, t) := by
  rcases hstage with hstage | ⟨reason, hstage⟩
  · exact ⟨_, _, (Search.Settlement.twice hstage hpoint hnoted).settle_eq⟩
  · exact ⟨_, _, (Search.Settlement.fathomed hstage).settle_eq⟩

/-- The box of a report is not empty and lies within that of a node. -/
def Report.Narrows (r : Report α) (n : Node α) : Prop :=
  r.node.box.isEmpty = false ∧ r.node.box.Shrunk n.box

instance [DecidableEq α] (a b : Box α) : Decidable (a.Shrunk b) :=
  decidable_of_iff _ Box.shrunk_iff.symm

instance [DecidableEq α] (r : Report α) (n : Node α) : Decidable (r.Narrows n) :=
  inferInstanceAs (Decidable (_ ∧ _))

/-- A search with what its driver knows from the answers. -/
structure Docket (α : Type) where
  /-- The search. -/
  search : Search α
  /-- The nodes that are out, as they were handed out. -/
  out : List (Node α) := []
  /-- The nodes that came back, as they were reported or, if they were cancelled, as they were
  handed out, and that have neither been settled nor queued since. -/
  back : List (Node α) := []
  /-- The answers to the reports that were accepted, the newest in front. -/
  answers : List Answer := []
  /-- The number of ids that were given out; the first one is that of the root. -/
  given : Nat := 1

namespace Docket

/-- The nodes that have another id. -/
def others (id : Nat) (nodes : List (Node α)) : List (Node α) := nodes.filter (·.id ≠ id)

/-- Writes down the answer to a report. -/
def answer (d : Docket α) (r : Report α) (final : Stage) : Docket α :=
  { d with
    answers := ⟨r.node.id, r.stage, final⟩ :: d.answers
    given := d.given + final.children }

/-- Writes down the children that a brancher has handed out. -/
def handOut (d : Docket α) (b : Brancher α) (nodes : List (Node α)) : Docket α :=
  { d with
    search := { d.search with brancher := b }
    out := nodes.reverse ++ d.out
    given := d.given + nodes.length }

/-- Does an operation and writes down the answer. -/
def perform (d : Docket α) (op : Search.Op α) : Docket α :=
  let after := { d with search := d.search.perform op }
  match op with
  | .next =>
      match d.search.next.1 with
      | .ok n => { after with out := n :: d.out }
      | .error _ => after
  | .record r =>
      match (d.search.record r).1 with
      | .ok () => { after with out := others r.node.id d.out, back := r.node :: d.back }
      | .error _ => after
  | .settle r =>
      match (d.search.settle r).1 with
      | .ok final => { after.answer r final with back := others r.node.id d.back }
      | .error _ => after
  | .apply r =>
      match (d.search.apply r).1 with
      | .ok final => { after.answer r final with out := others r.node.id d.out }
      | .error _ => { after with out := others r.node.id d.out }
  | .cancel id =>
      match (d.search.brancher.cancel id).1 with
      | .ok () => { after with
          out := others id d.out
          back := d.out.filter (·.id = id) ++ d.back }
      | .error _ => after
  | .insertEvaluated n =>
      match (d.search.insertEvaluated n).1 with
      | .ok _ => { after with back := others n.id d.back }
      | .error _ => after
  | .strongChildren r =>
      match (d.search.strongChildren r).1 with
      | .ok nodes => d.handOut (d.search.strongChildren r).2.brancher nodes
      | .error _ => after
  | _ => after

/-- Operations that follow the protocol: an accepted report narrows the node that is out under its
id, and only what came back is settled or queued. -/
def Admits (d : Docket α) : Search.Op α → Prop
  | .record r => (d.search.record r).1.isOk → ∀ n ∈ d.out, n.id = r.node.id → r.Narrows n
  | .apply r => (d.search.apply r).1.isOk → ∀ n ∈ d.out, n.id = r.node.id → r.Narrows n
  | .settle r => r.node ∈ d.back
  | .insertEvaluated n => n ∈ d.back
  | _ => True

/-- An operation that follows the protocol is done. -/
inductive Step : Docket α → Docket α → Prop
  /-- Any such operation. -/
  | op {d : Docket α} (op : Search.Op α) (h : d.Admits op) : Step d (d.perform op)

/-- Any number of such operations are done. -/
abbrev Run : Docket α → Docket α → Prop := Relation.ReflTransGen Step

instance [DecidableEq α] (d : Docket α) (op : Search.Op α) : Decidable (d.Admits op) := by
  cases op <;> unfold Admits <;> infer_instance

/-- Does one operation after the other, if they follow the protocol. -/
def performAll [DecidableEq α] (d : Docket α) (ops : List (Search.Op α)) : Option (Docket α) :=
  ops.foldlM (fun d op => if d.Admits op then some (d.perform op) else none) d

variable {d e : Docket α} {n : Node α} {r : Report α} {s : Search α} {id : Nat} {final : Stage}

/-- The ids of the nodes that were answered to be queued once more. -/
def fixed (d : Docket α) : List Nat := (d.answers.filter (·.final = .fixed)).map (·.id)

/-- The nodes that are open, out or back. -/
def live (d : Docket α) : Multiset (Node α) :=
  d.search.brancher.frontier.nodes + (↑d.out + ↑d.back)

omit [Scalar α] in
/-- Children may be handed out in two portions. -/
theorem handOut_handOut (d : Docket α) (b c : Brancher α) (xs ys : List (Node α)) :
    (d.handOut b xs).handOut c ys = d.handOut c (xs ++ ys) := by
  simp only [handOut, List.reverse_append, List.append_assoc, List.length_append, Nat.add_assoc]

/-- The docket is about what the operations make of the search. -/
theorem search_perform (d : Docket α) (op : Search.Op α) :
    (d.perform op).search = d.search.perform op := by
  cases op <;> unfold perform <;> dsimp only <;> split <;> rfl

/-- No id is given back. -/
theorem given_le_perform (d : Docket α) (op : Search.Op α) : d.given ≤ (d.perform op).given := by
  cases op <;> unfold perform <;> dsimp only <;> (try split) <;>
    first | exact Nat.le_refl _ | exact Nat.le_add_right _ _

omit [Scalar α] in
/-- If the ids of some nodes are distinct, all others have another id than one of them. -/
theorem coe_eq_cons_others {nodes : List (Node α)} (hnodup : (nodes.map Node.id).Nodup)
    (hn : n ∈ nodes) : (↑nodes : Multiset (Node α)) = n ::ₘ ↑(others n.id nodes) := by
  rw [Multiset.cons_coe, Multiset.coe_eq_coe]
  induction nodes with
  | nil => cases hn
  | cons m rest ih =>
    rw [List.map_cons, List.nodup_cons] at hnodup
    -- the node is the first of its id, and none of the others has it
    by_cases heq : m.id = n.id
    · have hm : n = m := by
        rcases List.mem_cons.mp hn with hn | hn
        · exact hn
        · exact absurd (heq ▸ List.mem_map_of_mem hn) hnodup.1
      rw [others, List.filter_cons_of_neg (by simpa using heq), List.filter_eq_self.mpr, hm]
      intro k hk
      refine decide_eq_true fun hkn => hnodup.1 ?_
      rw [heq, ← hkn]
      exact List.mem_map_of_mem hk
    · have hrest : n ∈ rest :=
        (List.mem_cons.mp hn).resolve_left fun hnm => heq (congrArg Node.id hnm.symm)
      rw [others, List.filter_cons_of_pos (by simpa using heq)]
      exact ((ih hnodup.2 hrest).cons m).trans (List.Perm.swap _ _ _)

/-- What is kept: the nodes that are open, out or back have names of their own, the ids that were
given out are counted, and the nodes that are out are waited for. The ids that are noted are those
that were answered to be queued once more, and every later report on such a node closed it. -/
structure Kept (d : Docket α) : Prop where
  /-- The nodes have names of their own. -/
  names : Names d.live d.search.requeued d.search.brancher.frontier.nextId
  /-- The ids that were given out are counted. -/
  nextId : d.search.brancher.frontier.nextId = d.given
  /-- The nodes that are out are waited for. -/
  waiting : d.search.brancher.waiting.ids.Perm (d.out.map Node.id)
  /-- The ids that are noted are on the docket. -/
  requeued : d.search.requeued = d.fixed
  /-- Every later report closed its node. -/
  closed : d.answers.Pairwise fun later earlier =>
    earlier.id = later.id → earlier.final = .fixed → later.Closes

namespace Kept

/-! ### Names -/

/-- The ids of the nodes that are out, and of those that are back, are distinct. -/
theorem nodup (h : d.Kept) : (d.out.map Node.id).Nodup ∧ (d.back.map Node.id).Nodup := by
  have hnodup := h.names.nodup
  rw [live, Multiset.map_add, Multiset.map_add] at hnodup
  have hrest := Multiset.nodup_of_le (Multiset.le_add_left _ _) hnodup
  exact ⟨Multiset.coe_nodup.mp (Multiset.nodup_of_le (Multiset.le_add_right _ _) hrest),
    Multiset.coe_nodup.mp (Multiset.nodup_of_le (Multiset.le_add_left _ _) hrest)⟩

/-- The names, with a node that is out put in front. -/
theorem names_out (h : d.Kept) (hn : n ∈ d.out) :
    Names (n ::ₘ (d.search.brancher.frontier.nodes + (↑(others n.id d.out) + ↑d.back)))
      d.search.requeued d.search.brancher.frontier.nextId := by
  have hnames := h.names
  rwa [live, coe_eq_cons_others h.nodup.1 hn, Multiset.cons_add, Multiset.add_cons] at hnames

/-- The names, with a node that is back put in front. -/
theorem names_back (h : d.Kept) (hn : n ∈ d.back) :
    Names (n ::ₘ (d.search.brancher.frontier.nodes + (↑d.out + ↑(others n.id d.back))))
      d.search.requeued d.search.brancher.frontier.nextId := by
  have hnames := h.names
  rwa [live, coe_eq_cons_others h.nodup.2 hn, Multiset.add_cons, Multiset.add_cons] at hnames

/-- No open node shares its id with one that is out. -/
theorem notMem_waiting (h : d.Kept) {m : Node α} (hm : m ∈ d.search.brancher.frontier.nodes) :
    m.id ∉ d.search.brancher.waiting.ids := by
  intro hid
  have hnodup := h.names.nodup
  rw [live, Multiset.map_add, Multiset.map_add] at hnodup
  refine Multiset.disjoint_left.mp (Multiset.disjoint_of_nodup_add hnodup)
    (Multiset.mem_map_of_mem Node.id hm) (Multiset.mem_add.mpr (.inl ?_))
  exact Multiset.mem_coe.mpr (h.waiting.mem_iff.mp hid)

/-- A node that is waited for is out. -/
theorem exists_out (h : d.Kept) (hid : id ∈ d.search.brancher.waiting.ids) :
    ∃ n ∈ d.out, n.id = id :=
  List.mem_map.mp (h.waiting.mem_iff.mp hid)

/-- The nodes that are out once those of an id are not waited for any more. -/
theorem waiting_erase (h : d.Kept) (id : Nat) :
    (d.search.brancher.waiting.erase id).ids.Perm ((others id d.out).map Node.id) := by
  have hfilter := h.waiting.filter (· ≠ id)
  rw [List.filter_map] at hfilter
  rw [Waiting.ids_erase]
  exact hfilter

/-! ### One operation -/

/-- No node became open, and the nodes that are out are waited for. -/
theorem keeps (h : d.Kept) (hkeeps : d.search.Keeps s)
    (hwaiting : s.brancher.waiting = d.search.brancher.waiting) : Kept { d with search := s } where
  names := hkeeps.names h.names
  nextId := hkeeps.nextId.trans h.nextId
  waiting := hwaiting ▸ h.waiting
  requeued := hkeeps.requeued.trans h.requeued
  closed := h.closed

/-- Handing out a node. -/
theorem next (h : d.Kept) (hs : d.search.brancher.frontier.Consistent)
    (hnext : d.search.next = (.ok n, s)) : Kept { d with search := s, out := n :: d.out } := by
  obtain ⟨m, f, hpop, rfl, rfl⟩ := Async.next_ok hnext
  have hnodes := hs.nodes_pop hpop
  obtain ⟨slot, -, -, rfl⟩ := Frontier.pop?_eq_some hpop
  refine ⟨?_, h.nextId, ?_, h.requeued, h.closed⟩
  · have hnames := h.names
    rw [live, hnodes, Multiset.cons_add, ← Multiset.add_cons, ← Multiset.cons_add] at hnames
    exact hnames
  · show (Waiting.insert _ m.id _).ids.Perm (m.id :: d.out.map Node.id)
    have hnew : m.id ∉ d.search.brancher.waiting.ids :=
      h.notMem_waiting (m := m.node) (hnodes ▸ Multiset.mem_cons_self _ _)
    rw [Waiting.ids_insert_of_notMem hnew]
    exact h.waiting.cons _

variable [Scalar.Ordered α]

/-- A report was recorded, or could not be: its node is out no more. -/
theorem forget (h : d.Kept) (hs : d.search.Recalls fun _ => True) (r : Report α) :
    Kept { d with search := (d.search.record r).2, out := others r.node.id d.out } := by
  have hkeeps := d.search.keeps_record hs.consistent r
  refine ⟨?_, hkeeps.nextId.trans h.nextId, ?_, hkeeps.requeued.trans h.requeued, h.closed⟩
  · refine (hkeeps.names h.names).of_le ?_
    refine Multiset.add_le_add_left (Multiset.add_le_add_right ?_)
    exact Multiset.coe_le.mpr List.filter_sublist.subperm
  · show (d.search.record r).2.brancher.waiting.ids.Perm _
    rw [hs.waiting_record]
    exact h.waiting_erase r.node.id

/-- Recording a report that narrows the node that is out under its id. -/
theorem record (h : d.Kept) (hs : d.search.Recalls fun _ => True)
    (hrecord : (d.search.record r).1 = .ok ())
    (hnarrows : ∀ n ∈ d.out, n.id = r.node.id → r.Narrows n) :
    Kept { d with
      search := (d.search.record r).2
      out := others r.node.id d.out
      back := r.node :: d.back } := by
  have hforget := h.forget hs r
  refine ⟨?_, hforget.nextId, hforget.waiting, hforget.requeued, hforget.closed⟩
  obtain ⟨entry, hlookup, -⟩ := Search.record_ok hrecord
  have hid : r.node.id ∈ d.search.brancher.waiting.ids := by
    by_contra hid
    rw [Waiting.lookup_eq_none_iff.mpr hid] at hlookup
    cases hlookup
  obtain ⟨n, hn, heq⟩ := h.exists_out hid
  obtain ⟨hfull, hbox⟩ := hnarrows n hn heq
  have hnames := h.names_out hn
  have hpoint := hnames.isPoint n (Multiset.mem_cons_self _ _)
  -- the report stands for the node under the same name, narrowed but not emptied
  have hreported := hnames.replace heq.symm fun hnoted =>
    hbox.isPoint_of_isPoint hfull (hpoint hnoted)
  rw [heq, ← Multiset.add_cons, ← Multiset.add_cons] at hreported
  exact (d.search.keeps_record hs.consistent r).names hreported

omit [Scalar.Ordered α] in
/-- What a new answer says of the ids that were answered before. -/
theorem closed_cons (h : d.Kept) {a : Answer} (ha : a.id ∈ d.search.requeued → a.Closes) :
    (a :: d.answers).Pairwise fun later earlier =>
      earlier.id = later.id → earlier.final = .fixed → later.Closes := by
  refine List.pairwise_cons.mpr ⟨fun earlier hearlier hid hfixed => ha ?_, h.closed⟩
  rw [h.requeued, ← hid]
  exact List.mem_map_of_mem (List.mem_filter.mpr ⟨hearlier, decide_eq_true hfixed⟩)

omit [Scalar.Ordered α] in
/-- Acting on a report of which no node comes. -/
theorem close (h : d.Kept) (hback : r.node ∈ d.back) (hkeeps : d.search.Keeps s)
    (hwaiting : s.brancher.waiting = d.search.brancher.waiting) (reason : Reason)
    (hcloses : r.node.id ∈ d.search.requeued →
      Answer.Closes ⟨r.node.id, r.stage, .fathomed reason⟩) :
    Kept { answer { d with search := s } r (.fathomed reason) with
      back := others r.node.id d.back } where
  names := hkeeps.names ((h.names_back hback).of_le (Multiset.le_cons_self _ _))
  nextId := hkeeps.nextId.trans h.nextId
  waiting := hwaiting ▸ h.waiting
  requeued := hkeeps.requeued.trans h.requeued
  closed := h.closed_cons hcloses

/-- Acting on a report whose node the brancher branches. -/
theorem branch (h : d.Kept) (hs : d.search.brancher.frontier.Consistent)
    (hback : r.node ∈ d.back) {outcome : Brancher.Branching} {b : Brancher α}
    (hbranched : d.search.brancher.Branched r.node r.point r.lowerBound outcome b)
    (hids : d.given + 2 < wordRange)
    (hcloses : r.node.id ∈ d.search.requeued →
      Answer.Closes ⟨r.node.id, r.stage, outcome.stage⟩) :
    Kept { answer { d with search := d.search.branched r b outcome } r outcome.stage with
      back := others r.node.id d.back } := by
  obtain ⟨hbrancher, hrequeued⟩ := d.search.requeued_branched r b outcome
  have hroom : d.search.brancher.frontier.nextId + 2 < wordRange := by
    rw [h.nextId]
    exact hids
  -- the node leaves those that are back, and its parts take the next two ids
  refine ⟨?_, ?_, ?_, ?_, h.closed_cons hcloses⟩
  · have hnames := (hbranched.names hs (h.names_back hback) rfl hroom).1
    rw [← hbrancher, ← hrequeued] at hnames
    exact hnames
  · show (d.search.branched r b outcome).brancher.frontier.nextId = _
    rw [hbrancher, hbranched.nextId hroom, h.nextId]
    rfl
  · show (d.search.branched r b outcome).brancher.waiting.ids.Perm _
    rw [hbrancher, hbranched.waiting]
    exact h.waiting
  · show (d.search.branched r b outcome).requeued = _
    rw [hrequeued, h.requeued]
    cases outcome <;> rfl

/-- Acting on a report on a node that is back. -/
theorem settle (h : d.Kept) (hs : d.search.brancher.frontier.Consistent)
    (hback : r.node ∈ d.back) (hsettle : d.search.settle r = (.ok final, s))
    (hids : d.given + 2 < wordRange) :
    Kept { answer { d with search := s } r final with back := others r.node.id d.back } := by
  have hpoint := (h.names_back hback).isPoint _ (Multiset.mem_cons_self _ _)
  -- a single point that comes back for the second time is not branched again
  have hcloses : r.node.id ∈ d.search.requeued → Answer.Closes ⟨r.node.id, r.stage, final⟩ :=
    fun hnoted => Search.closes_of_twice (hpoint hnoted) hnoted hsettle
  have hwaiting := (d.search.settle_frame r).1
  rw [hsettle] at hwaiting
  cases Search.settlement hsettle with
  | fathomed =>
    exact h.close hback ((Search.Keeps.refl hs).countFathomed r) hwaiting _ hcloses
  | twice =>
    have hkeeps : d.search.Keeps
        { d.search with stats.fathomed := d.search.stats.fathomed + 1 } :=
      (Search.Keeps.refl hs).of_eq rfl rfl rfl
    exact h.close hback hkeeps hwaiting _ hcloses
  | branched _ _ hbranch =>
    exact h.branch hs hback (Brancher.branch_cases hbranch).2 hids hcloses

/-- Taking in a report that narrows the node that is out under its id. -/
theorem apply (h : d.Kept) (hs : d.search.Recalls fun _ => True)
    (hnarrows : ∀ n ∈ d.out, n.id = r.node.id → r.Narrows n)
    (happly : d.search.apply r = (.ok final, s)) (hids : d.given + 2 < wordRange) :
    Kept { answer { d with search := s } r final with out := others r.node.id d.out } := by
  obtain ⟨hrecord, hsettle⟩ := Search.apply_ok happly
  have hrecorded := h.record hs hrecord hnarrows
  have hsettled := hrecorded.settle (hs.record r).consistent List.mem_cons_self hsettle hids
  -- the node of the report comes back and is settled at once
  have hback : others r.node.id (r.node :: d.back) = d.back := by
    have hnodup := hrecorded.nodup.2
    rw [List.map_cons, List.nodup_cons] at hnodup
    rw [others, List.filter_cons_of_neg (by simp), List.filter_eq_self]
    exact fun n hn => decide_eq_true fun heq => hnodup.1 (heq ▸ List.mem_map_of_mem hn)
  rw [hback] at hsettled
  exact hsettled

omit [Scalar.Ordered α] in
/-- Cancelling a node that is out. -/
theorem cancel (h : d.Kept) (id : Nat) :
    Kept { d with
      search := { d.search with brancher.waiting := d.search.brancher.waiting.erase id }
      out := others id d.out
      back := d.out.filter (·.id = id) ++ d.back } := by
  refine ⟨?_, h.nextId, h.waiting_erase id, h.requeued, h.closed⟩
  have hnames := h.names
  -- the nodes of the id move from those that are out to those that are back
  have hperm : (d.out.filter (·.id = id) ++ others id d.out).Perm d.out := by
    have hsplit := List.filter_append_perm (fun n : Node α => decide (n.id = id)) d.out
    simpa only [others, ne_eq, decide_not] using hsplit
  have hlive : (↑d.out + ↑d.back : Multiset (Node α))
      = ↑(others id d.out) + ↑(d.out.filter (·.id = id) ++ d.back) := by
    rw [← Multiset.coe_eq_coe.mpr hperm, ← Multiset.coe_add, ← Multiset.coe_add,
      add_comm (↑(d.out.filter (·.id = id)) : Multiset (Node α)), add_assoc]
  rw [live, hlive] at hnames
  exact hnames

omit [Scalar.Ordered α] in
/-- Queuing a node that is back. -/
theorem insertEvaluated (h : d.Kept) (hs : d.search.brancher.frontier.Consistent)
    (hback : n ∈ d.back) {taken : Bool} (hinsert : d.search.insertEvaluated n = (.ok taken, s)) :
    Kept { d with search := s, back := others n.id d.back } := by
  have hnames := h.names_back hback
  rw [Search.eq_of_insertEvaluated_ok hinsert,
    Frontier.reserveIds_of_lt (hnames.below n (Multiset.mem_cons_self _ _))]
  refine ⟨?_, (Frontier.nextId_insert _ _).trans h.nextId, h.waiting, h.requeued, h.closed⟩
  show Names ((d.search.brancher.frontier.insert _).2.nodes + _) d.search.requeued
    (d.search.brancher.frontier.insert _).2.nextId
  rw [Frontier.nextId_insert]
  refine hnames.of_le ?_
  rw [← Multiset.cons_add]
  exact Multiset.add_le_add_right (hs.nodes_insert_le _)

/-! ### Children in every dimension -/

omit [Scalar.Ordered α] in
/-- Handing out the children of a split. -/
theorem handOut (h : d.Kept) {parent : Node α} {point : List α} {i : Nat} {kind : VariableKind}
    {down up : OpenNode α} {c : Brancher α}
    (hsplit : d.search.brancher.split parent i kind point = ((down, up), c))
    (hids : d.given + 2 < wordRange) :
    (d.handOut ((c.handOut down).handOut up) [down.node, up.node]).Kept := by
  have hnext := h.nextId
  obtain ⟨hdown, hup, rfl⟩ := Brancher.split_ids hsplit (by omega)
  -- the new ids are above all that are waited for, so neither entry overwrites another
  have hbelow : ∀ id ∈ d.search.brancher.waiting.ids, id < d.search.brancher.frontier.nextId := by
    intro id hid
    obtain ⟨n, hn, rfl⟩ := h.exists_out hid
    exact (h.names_out hn).below n (Multiset.mem_cons_self _ _)
  have hdownWaiting : down.id ∉ d.search.brancher.waiting.ids := fun hid =>
    absurd (hbelow _ hid) (by omega)
  have hids : (d.search.brancher.waiting.insert down.id ⟨down.score, down.history⟩).ids
      = down.id :: d.search.brancher.waiting.ids := Waiting.ids_insert_of_notMem hdownWaiting
  have hupWaiting :
      up.id ∉ (d.search.brancher.waiting.insert down.id ⟨down.score, down.history⟩).ids := by
    rw [hids, List.mem_cons, not_or]
    exact ⟨by omega, fun hid => absurd (hbelow _ hid) (by omega)⟩
  refine ⟨?_, ?_, ?_, h.requeued, h.closed⟩
  · have hnames := (h.names.child (n := down.node) hdown).child (n := up.node) hup
    rw [live, ← Multiset.add_cons, ← Multiset.add_cons, ← Multiset.cons_add, ← Multiset.cons_add,
      Multiset.cons_coe, Multiset.cons_coe] at hnames
    exact hnames
  · show d.search.brancher.frontier.nextId + 2 = d.given + 2
    rw [hnext]
  · show ((d.search.brancher.waiting.insert down.id _).insert up.id _).ids.Perm
      (up.id :: down.id :: d.out.map Node.id)
    rw [Waiting.ids_insert_of_notMem hupWaiting, hids]
    exact (h.waiting.cons _).cons _

omit [Scalar.Ordered α] in
/-- Handing out the children in every dimension. -/
theorem strongChildren (h : d.Kept) {nodes : List (Node α)}
    (hall : d.search.strongChildren r = (.ok nodes, s))
    (hids : d.given + nodes.length + 2 < wordRange) :
    (d.handOut s.brancher nodes).Kept := by
  rcases hanswer : d.search.brancher.allChildren r.node r.point with ⟨answer, b⟩
  rw [Search.strongChildren, hanswer] at hall
  cases hall
  refine Brancher.allChildren_induct (motive := fun found c =>
    d.given + found.length + 2 < wordRange → (d.handOut c found).Kept) hanswer (fun _ => h) ?_ hids
  intro _ found c i v down up e _ _ hsplit hfound hroom
  -- there are ids for the two children, because there are for all that were handed out with them
  rw [show (found ++ [down.node, up.node]).length = found.length + 2 from List.length_append]
    at hroom
  have hhanded := (hfound (by omega)).handOut hsplit (show d.given + found.length + 2 < _ by omega)
  rwa [handOut_handOut] at hhanded

/-! ### Any operation -/

/-- An operation that follows the protocol keeps all this, as long as there are ids. -/
theorem perform (h : d.Kept) (hs : d.search.Recalls fun _ => True) {op : Search.Op α}
    (hadmits : d.Admits op) (hids : (d.perform op).given + 2 < wordRange) :
    (d.perform op).Kept := by
  have hrefl := Search.Keeps.refl hs.consistent
  have hroom : d.given + 2 < wordRange := by
    have hle := d.given_le_perform op
    omega
  cases op with
  | atTime => exact h.keeps (hrefl.of_eq rfl rfl rfl) rfl
  | offer c => exact h.keeps (hrefl.offer c) (Search.waiting_offer d.search c)
  | countFathomed r =>
    exact h.keeps (hrefl.countFathomed r)
      (congrArg Brancher.waiting (d.search.countFathomed_frame r).1)
  | countBranched => exact h.keeps (hrefl.of_eq rfl rfl rfl) rfl
  | countDropped => exact h.keeps (hrefl.of_eq rfl rfl rfl) rfl
  | next =>
    rcases hnext : d.search.next with ⟨e | n, s⟩ <;>
      simp only [Docket.perform, Search.perform, hnext]
    · rw [Search.next_eq_of_error hnext]
      exact h
    · exact h.next hs.consistent hnext
  | record r =>
    rcases hrecord : (d.search.record r).1 with e | _ <;>
      simp only [Docket.perform, Search.perform, hrecord]
    · refine h.keeps (d.search.keeps_record hs.consistent r) ?_
      rw [hs.waiting_record, Waiting.erase_of_notMem (hs.notMem_of_record_error hrecord)]
    · exact h.record hs hrecord (hadmits (by rw [hrecord]; rfl))
  | settle r =>
    rcases hsettle : d.search.settle r with ⟨e | final, s⟩ <;>
      simp only [Docket.perform, Search.perform, hsettle]
    · rw [(Search.settle_error hsettle).1]
      exact h
    · exact h.settle hs.consistent hadmits hsettle hroom
  | apply r =>
    rcases happly : d.search.apply r with ⟨e | final, s⟩ <;>
      simp only [Docket.perform, Search.perform, happly]
    · rw [(Search.apply_error happly).1]
      exact h.forget hs r
    · exact h.apply hs (hadmits (by rw [happly]; rfl)) happly hroom
  | cancel id =>
    rcases d.search.brancher.cancel_cases id with ⟨-, hcancel⟩ | ⟨-, hcancel⟩ <;>
      simp only [Docket.perform, Search.perform, hcancel]
    · exact h.cancel id
    · exact h
  | insertEvaluated n =>
    rcases hinsert : d.search.insertEvaluated n with ⟨e | taken, s⟩ <;>
      simp only [Docket.perform, Search.perform, hinsert]
    · rw [Search.insertEvaluated_eq_of_error hinsert]
      exact h
    · exact h.insertEvaluated hs.consistent hadmits hinsert
  | strongChildren r =>
    rcases hall : d.search.strongChildren r with ⟨e | nodes, s⟩ <;>
      simp only [Docket.perform, Search.perform, hall] at hids ⊢
    · rw [Search.strongChildren_eq_of_error hall]
      exact h
    · exact h.strongChildren hall hids

end Kept

end Docket

end BranchBound
