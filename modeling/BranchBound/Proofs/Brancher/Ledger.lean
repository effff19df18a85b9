import BranchBound.Proofs.Brancher.Children
import BranchBound.Proofs.Search.Reporting
import Mathlib.Data.Multiset.UnionInter

/-! # The names of the nodes of a brancher

Whoever drives a brancher can keep a ledger of its nodes from the requests and the answers alone:
which nodes are out, which came back and may re-enter, and which ids were ever seen. The ledger and
the brancher agree as long as a node is branched or queued again only after it came back, and as
long as the ids do not run out: no two nodes share an id, and exactly the nodes that are out by the
ledger are waited for.

* **`Ledger`** — the ledger; `Ledger.Admits` says which requests follow the protocol.
* **`Audited`** — a brancher with its ledger; `Audited.perform` does a request and writes down the
  answer, and `Audited.Step` is a request that follows the protocol.
* **`Audited.Kept`** — the agreement, which every such request keeps (`Kept.perform`).
* **`Audited.Exact`** — what it comes to for the driver. -/

namespace BranchBound

variable {α : Type}

/-! ## The open nodes -/

/-- The dimension of a split lies below a bound. -/
def History.Known (k : Nat) (h : History α) : Prop := ∀ p, h.split? = some p → p.1 < k

namespace Frontier

/-- The open nodes with their histories. -/
def members (f : Frontier α) : Multiset (OpenNode α) := ↑f.toList

variable [Scalar α] {f g : Frontier α} {n : OpenNode α}

/-- Offering a node opens no other one. -/
theorem Consistent.members_insert_le (h : f.Consistent) (n : OpenNode α) :
    (f.insert n).2.members ≤ n ::ₘ f.members := by
  cases hdom : f.dominates n.score with
  | true =>
    rw [insert_of_dominates hdom]
    exact Multiset.le_cons_self f.members n
  | false =>
    rw [Frontier.insert_of_not_dominates hdom, members, members, Multiset.cons_coe]
    exact le_of_eq (Multiset.coe_eq_coe.mpr (h.toList_place n))

/-- The node that is taken out was open. -/
theorem Consistent.members_pop (h : f.Consistent) (hpop : f.pop? = some (n, g)) :
    f.members = n ::ₘ g.members :=
  Multiset.coe_eq_coe.mpr (h.toList_pop hpop)

/-- Lowering the threshold opens no node. -/
theorem Consistent.members_lowerThreshold_le (h : f.Consistent) (threshold : α) :
    (f.lowerThreshold threshold).2.members ≤ f.members := by
  by_cases hignored : Scalar.isNaN threshold = true ∨ f.threshold < threshold
  · rw [lowerThreshold_of_ignored hignored]
  · rw [lowerThreshold_of_not_ignored hignored, members, members]
    refine le_trans (le_of_eq (Multiset.coe_eq_coe.mpr (h.toList_fathomFrom threshold))) ?_
    exact Multiset.coe_le.mpr List.filter_sublist.subperm

end Frontier

/-! ## The nodes that are waited for -/

namespace Waiting

/-- What is remembered once a node was handed out. -/
theorem mem_insert {w : Waiting α} {id : Nat} {entry : HandedOut α} {e : Nat × HandedOut α}
    (h : e ∈ w.insert id entry) : e = (id, entry) ∨ e ∈ w :=
  (List.mem_cons.mp h).imp_right fun hmem => (List.mem_filter.mp hmem).1

/-- A node that is not waited for is waited for besides the others once it was handed out. -/
theorem ids_insert_of_notMem {w : Waiting α} {id : Nat} {entry : HandedOut α} (h : id ∉ w.ids) :
    (w.insert id entry).ids = id :: w.ids := by
  rw [ids_insert, List.filter_eq_self.mpr]
  intro other hother
  exact decide_eq_true fun heq => h (heq ▸ hother)

end Waiting

/-! ## The ledger -/

/-- What is known of the nodes of a brancher from the requests and the answers. -/
structure Ledger where
  /-- The root. -/
  root : Option Nat := none
  /-- The nodes that were handed out and neither confirmed nor cancelled since. -/
  out : List Nat := []
  /-- The nodes that were confirmed or cancelled and have not re-entered since. -/
  settled : List Nat := []
  /-- The root and all children, the newest in front. -/
  seen : List Nat := []
  /-- The number of nodes that were handed out from the tree. -/
  handed : Nat := 0
  /-- The number of children that were handed out without entering the tree. -/
  children : Nat := 0
  /-- The number of confirmed and cancelled nodes. -/
  done : Nat := 0
  deriving Repr

namespace Ledger

/-- The number of ids that are used up; those below the id of the root are. -/
def used (l : Ledger) : Nat := l.root.getD 0 + l.seen.length

/-- The root enters. -/
def enter (l : Ledger) (id : Nat) : Ledger := { l with root := some id, seen := id :: l.seen }

/-- A node goes out. -/
def take (l : Ledger) (id : Nat) : Ledger :=
  { l with out := id :: l.out, handed := l.handed + 1 }

/-- A node comes back. -/
def settle (l : Ledger) (id : Nat) : Ledger :=
  { l with out := l.out.erase id, settled := id :: l.settled, done := l.done + 1 }

/-- A node that came back re-enters. -/
def reenter (l : Ledger) (id : Nat) : Ledger := { l with settled := l.settled.erase id }

/-- Two children are made. -/
def split (l : Ledger) (down up : Nat) : Ledger := { l with seen := up :: down :: l.seen }

/-- Children are made that are out from the beginning. -/
def handOut (l : Ledger) (ids : List Nat) : Ledger :=
  { l with
    out := ids.reverse ++ l.out
    seen := ids.reverse ++ l.seen
    children := l.children + ids.length }

/-- Children may be handed out in two portions. -/
theorem handOut_append (l : Ledger) (xs ys : List Nat) :
    (l.handOut xs).handOut ys = l.handOut (xs ++ ys) := by
  simp only [handOut, List.reverse_append, List.append_assoc, List.length_append, Nat.add_assoc]

/-- Each child that is handed out takes an id. -/
theorem used_handOut (l : Ledger) (xs : List Nat) : (l.handOut xs).used = l.used + xs.length := by
  simp only [used, handOut, List.length_append, List.length_reverse]
  omega

end Ledger

namespace Brancher

/-- A request to a brancher. -/
inductive Request (α : Type)
  /-- The root is offered. -/
  | insertRoot (n : Node α)
  /-- A node is to be handed out. -/
  | next
  /-- A node is confirmed, as it was processed. -/
  | confirm (id : Nat) (processed : Node α)
  /-- A node is cancelled. -/
  | cancel (id : Nat)
  /-- A node is to be branched. -/
  | branch (n : Node α) (point : List α) (objective tolerance : α)
  /-- A node is queued that was evaluated before. -/
  | insertNode (n : Node α)
  /-- A node is to be split in every dimension. -/
  | allChildren (n : Node α) (point : List α)
  /-- The threshold is lowered. -/
  | lowerThreshold (threshold : α)
  /-- The tolerances are set. -/
  | setTolerances (rel abs : α)
  /-- The order of the nodes is set. -/
  | setSelection (selection : NodeSelection)
  /-- The rule for the dimension of a split is set. -/
  | setRule (rule : BranchingRule)
  /-- The selection scores are set. -/
  | setScoring (scoring : Scoring)

end Brancher

/-- Requests that follow the protocol: the root is offered once, and a node is branched or queued
only after it came back and before it re-enters. -/
def Ledger.Admits (l : Ledger) : Brancher.Request α → Prop
  | .insertRoot _ => l.root = none
  | .branch n .. | .insertNode n | .allChildren n _ => n.id ∈ l.settled
  | _ => True

instance (l : Ledger) (request : Brancher.Request α) : Decidable (l.Admits request) := by
  cases request <;> unfold Ledger.Admits <;> infer_instance

/-- A brancher with its ledger. -/
structure Audited (α : Type) where
  /-- The brancher. -/
  brancher : Brancher α
  /-- The ledger. -/
  ledger : Ledger

namespace Audited

variable [Scalar α]

/-- Does a request and writes down the answer. -/
def perform (s : Audited α) : Brancher.Request α → Audited α
  | .insertRoot n =>
      match s.brancher.insertRoot n with
      | (.ok _, b) => ⟨b, s.ledger.enter n.id⟩
      | (.error _, b) => ⟨b, s.ledger⟩
  | .next =>
      match s.brancher.next with
      | (.ok n, b) => ⟨b, s.ledger.take n.id⟩
      | (.error _, b) => ⟨b, s.ledger⟩
  | .confirm id processed =>
      match s.brancher.confirm id processed with
      | (.ok (), b) => ⟨b, s.ledger.settle id⟩
      | (.error _, b) => ⟨b, s.ledger⟩
  | .cancel id =>
      match s.brancher.cancel id with
      | (.ok (), b) => ⟨b, s.ledger.settle id⟩
      | (.error _, b) => ⟨b, s.ledger⟩
  | .branch n point objective tolerance =>
      match s.brancher.branch n point objective tolerance with
      | (.ok .requeued, b) => ⟨b, s.ledger.reenter n.id⟩
      | (.ok .dropped, b) => ⟨b, s.ledger⟩
      | (.ok (.split _ down up), b) => ⟨b, s.ledger.split down up⟩
      | (.error _, b) => ⟨b, s.ledger⟩
  | .insertNode n =>
      match s.brancher.insertNode n with
      | (.ok taken, b) => ⟨b, if taken then s.ledger.reenter n.id else s.ledger⟩
      | (.error _, b) => ⟨b, s.ledger⟩
  | .allChildren n point =>
      match s.brancher.allChildren n point with
      | (.ok nodes, b) => ⟨b, s.ledger.handOut (nodes.map Node.id)⟩
      | (.error _, b) => ⟨b, s.ledger⟩
  | .lowerThreshold threshold => ⟨(s.brancher.lowerThreshold threshold).2, s.ledger⟩
  | .setTolerances rel abs => ⟨s.brancher.setTolerances rel abs, s.ledger⟩
  | .setSelection selection => ⟨s.brancher.setSelection selection, s.ledger⟩
  | .setRule rule => ⟨{ s.brancher with rule }, s.ledger⟩
  | .setScoring scoring => ⟨{ s.brancher with scoring }, s.ledger⟩

/-- A request that follows the protocol is done. -/
inductive Step : Audited α → Audited α → Prop
  /-- Any such request. -/
  | request {s : Audited α} (request : Brancher.Request α) (h : s.ledger.Admits request) :
      Step s (s.perform request)

/-- Any number of such requests are done. -/
abbrev Run : Audited α → Audited α → Prop := Relation.ReflTransGen Step

/-- Does one request after the other, if they follow the protocol. -/
def performAll (s : Audited α) (requests : List (Brancher.Request α)) : Option (Audited α) :=
  requests.foldlM (fun s request => if s.ledger.Admits request then some (s.perform request)
    else none) s

/-- Requests that are done one after the other are a run. -/
theorem run_of_performAll {s t : Audited α} {requests : List (Brancher.Request α)}
    (h : s.performAll requests = some t) : Run s t := by
  induction requests generalizing s with
  | nil =>
    cases h
    exact .refl
  | cons request rest ih =>
    rw [performAll, List.foldlM_cons] at h
    split at h
    · next hadmits => exact .head (.request request hadmits) (ih h)
    · cases h

/-! ## The agreement -/

/-- The ids of the nodes that are open, out or back, each as often as there are such nodes. -/
def names (s : Audited α) : Multiset Nat :=
  s.brancher.frontier.members.map OpenNode.id + (↑s.ledger.out + ↑s.ledger.settled)

end Audited

/-- A ledger accounts for the ids in use. -/
structure Ledger.Accounts (l : Ledger) (names : Multiset Nat) (nextId : Nat) : Prop where
  /-- They are distinct. -/
  nodup : names.Nodup
  /-- Each of them was seen. -/
  seen : ∀ id ∈ names, id ∈ l.seen
  /-- Every id is above those that were seen before it. -/
  descending : l.seen.Pairwise (· > ·)
  /-- Ids that are not given out yet are above those that were seen. -/
  lt : ∀ id ∈ l.seen, id < nextId
  /-- The next id; zero is left to the root. -/
  nextId : nextId = max 1 l.used
  /-- Nothing was seen before the root. -/
  started : l.root = none → l.seen = []

namespace Ledger.Accounts

variable {l k : Ledger} {names others : Multiset Nat} {nextId id : Nat}

/-- Ids may fall out of use. -/
theorem of_le (h : l.Accounts names nextId) (hle : others ≤ names) (hroot : k.root = l.root)
    (hseen : k.seen = l.seen) : k.Accounts others nextId where
  nodup := Multiset.nodup_of_le hle h.nodup
  seen id hid := hseen ▸ h.seen id (Multiset.mem_of_le hle hid)
  descending := hseen ▸ h.descending
  lt := hseen ▸ h.lt
  nextId := by
    rw [h.nextId, used, used, hroot, hseen]
  started hnone := by
    rw [hseen, h.started (hroot ▸ hnone)]

/-- The next id may come into use, once the root was seen. -/
theorem child (h : l.Accounts names nextId) (hl : l.seen ≠ []) :
    ({ l with seen := nextId :: l.seen } : Ledger).Accounts (nextId ::ₘ names) (nextId + 1) where
  -- all names that were seen are below the next id
  nodup := Multiset.nodup_cons.mpr ⟨fun hid => absurd (h.lt _ (h.seen _ hid)) (Nat.lt_irrefl _),
    h.nodup⟩
  seen id hid := by
    rcases Multiset.mem_cons.mp hid with rfl | hid
    · exact List.mem_cons_self
    · exact List.mem_cons_of_mem _ (h.seen id hid)
  descending := List.pairwise_cons.mpr ⟨h.lt, h.descending⟩
  lt id hid := by
    rcases List.mem_cons.mp hid with rfl | hid
    · exact Nat.lt_succ_self _
    · exact Nat.lt_succ_of_lt (h.lt id hid)
  nextId := by
    have hpos := List.length_pos_iff.mpr hl
    have hnext := h.nextId
    simp only [used, List.length_cons] at hnext ⊢
    omega
  started hnone := absurd (h.started hnone) hl

/-- So may the next two. -/
theorem children (h : l.Accounts names nextId) (hl : l.seen ≠ [])
    (hle : others ≤ (nextId + 1) ::ₘ nextId ::ₘ names) (hroot : k.root = l.root)
    (hseen : k.seen = (nextId + 1) :: nextId :: l.seen) : k.Accounts others (nextId + 2) :=
  ((h.child hl).child (List.cons_ne_nil _ _)).of_le hle hroot hseen

/-- The root comes into use. -/
theorem root (h : l.Accounts names nextId) (hl : l.root = none)
    (hid : (l.enter id).used < wordRange) :
    (l.enter id).Accounts (id ::ₘ names) (max nextId (min (id + 1) (wordRange - 1))) := by
  have hseen := h.started hl
  -- no id was in use before the root
  have hnames : names = 0 := by
    refine Multiset.eq_zero_of_forall_notMem fun other hother => ?_
    have hmem := h.seen other hother
    rw [hseen] at hmem
    cases hmem
  have hnext := h.nextId
  have hused : (l.enter id).used = id + 1 := by
    simp [used, enter, hseen]
  have hbefore : l.used = 0 := by
    simp [used, hl, hseen]
  rw [hused] at hid
  subst hnames
  refine ⟨?_, ?_, ?_, ?_, ?_, nofun⟩
  · exact Multiset.nodup_singleton id
  · intro other hother
    rw [Multiset.mem_singleton.mp hother]
    exact List.mem_cons_self
  · show (id :: l.seen).Pairwise _
    rw [hseen]
    exact List.pairwise_singleton _ _
  · show ∀ other ∈ id :: l.seen, _
    rw [hseen]
    intro other hother
    rw [List.mem_singleton.mp hother]
    omega
  · rw [hused]
    omega

end Ledger.Accounts

/-- A brancher agrees with its ledger. -/
structure Audited.Kept [Scalar α] (s : Audited α) : Prop where
  /-- The frontier is consistent. -/
  consistent : s.brancher.frontier.Consistent
  /-- The ids are accounted for. -/
  accounts : s.ledger.Accounts s.names s.brancher.frontier.nextId
  /-- The nodes that are out are waited for. -/
  waiting : s.brancher.waiting.ids.Perm s.ledger.out
  /-- The open nodes come out of splits in dimensions that there are. -/
  histories : ∀ n ∈ s.brancher.frontier.members, n.history.Known s.brancher.vars.length
  /-- So do the nodes that are waited for. -/
  remembered : ∀ e ∈ s.brancher.waiting, e.2.history.Known s.brancher.vars.length
  /-- Every node that went out is out or came back. -/
  counts : s.ledger.out.length + s.ledger.done = s.ledger.handed + s.ledger.children

namespace Brancher

variable [Scalar α] {b c : Brancher α} {parent n : Node α} {point : List α} {id : Nat}

/-! ## Confirming and cancelling -/

omit [Scalar α] in
/-- What is remembered of a node is an entry of its id. -/
theorem mem_of_lookup {e : HandedOut α} (h : b.waiting.lookup id = some e) :
    (id, e) ∈ b.waiting := by
  obtain ⟨before, after, heq, -⟩ := List.lookup_eq_some_iff.mp h
  rw [heq]
  exact List.mem_append_right _ List.mem_cons_self

omit [Scalar α] in
/-- Something is remembered of a node that is waited for. -/
theorem exists_remembered (h : id ∈ b.waiting.ids) :
    ∃ e, b.waiting.lookup id = some e ∧ (id, e) ∈ b.waiting := by
  cases hlookup : b.waiting.lookup id with
  | none => exact absurd h (Waiting.lookup_eq_none_iff.mp hlookup)
  | some e => exact ⟨e, rfl, mem_of_lookup hlookup⟩

/-- A node is confirmed if it is waited for, and is unknown otherwise. -/
theorem confirm_cases (hknown : ∀ e ∈ b.waiting, e.2.history.Known b.vars.length) (id : Nat)
    (n : Node α) :
    id ∈ b.waiting.ids ∧ (∃ pseudocosts, b.confirm id n
          = (.ok (), { b with waiting := b.waiting.erase id, pseudocosts }))
      ∨ id ∉ b.waiting.ids ∧ b.confirm id n = (.error (.unknownNode id), b) := by
  have hwaited : ∀ {e : HandedOut α}, b.waiting.lookup id = some e → id ∈ b.waiting.ids :=
    fun hlookup => List.mem_map_of_mem (mem_of_lookup hlookup)
  rcases hconfirm : b.confirm id n with ⟨answer, c⟩
  cases confirm_exit hconfirm with
  | unknown hlookup => exact .inr ⟨Waiting.lookup_eq_none_iff.mp hlookup, rfl⟩
  | unsplit hlookup => exact .inl ⟨hwaited hlookup, _, rfl⟩
  | learned hlookup => exact .inl ⟨hwaited hlookup, _, rfl⟩
  | @stray e i side hlookup hsplit hv =>
    -- the histories that are remembered name variables
    have hi : i < b.vars.length := hknown _ (mem_of_lookup hlookup) _ hsplit
    rw [List.getElem?_eq_getElem hi] at hv
    cases hv

omit [Scalar α] in
/-- A node is cancelled if it is waited for, and is unknown otherwise. -/
theorem cancel_cases (b : Brancher α) (id : Nat) :
    id ∈ b.waiting.ids ∧ b.cancel id = (.ok (), { b with waiting := b.waiting.erase id })
      ∨ id ∉ b.waiting.ids ∧ b.cancel id = (.error (.unknownNode id), b) := by
  by_cases hid : id ∈ b.waiting.ids
  · obtain ⟨e, hlookup, -⟩ := exists_remembered hid
    refine .inl ⟨hid, ?_⟩
    unfold cancel
    rw [hlookup]
  · refine .inr ⟨hid, ?_⟩
    unfold cancel
    rw [Waiting.lookup_eq_none_iff.mpr hid]

/-! ## Making children -/

/-- A node that cannot be queued leaves the brancher as it is. -/
theorem insertScored_error {score : α} {e : Error α} (h : b.insertScored n score = (.error e, c)) :
    c = b := by
  unfold insertScored at h
  split at h <;> cases h
  rfl

/-- The dimension of a child of a split is the one that was split. -/
theorem split_histories {i : Nat} {kind : VariableKind} {down up : OpenNode α}
    (h : b.split parent i kind point = ((down, up), c)) {k : Nat} (hi : i < k) :
    down.history.Known k ∧ up.history.Known k := by
  cases h
  refine ⟨?_, ?_⟩ <;> rintro p hp <;> cases hp <;> exact hi

end Brancher

namespace Audited

variable [Scalar α] {s t : Audited α} {n : Node α} {id : Nat} {b : Brancher α}

/-! ## One request -/

/-- No id is given back. -/
theorem used_le_perform (s : Audited α) {request : Brancher.Request α}
    (h : s.ledger.Admits request) : s.ledger.used ≤ (s.perform request).ledger.used := by
  -- only the root, a split and strong branching bring new ids into use
  cases request with
  | insertRoot n =>
    unfold perform
    dsimp only
    split
    · have hroot : s.ledger.root = none := h
      simp only [Ledger.used, Ledger.enter, hroot, Option.getD_none, Option.getD_some,
        List.length_cons]
      omega
    · exact Nat.le_refl _
  | allChildren n point =>
    unfold perform
    dsimp only
    split
    · simp only [Ledger.used, Ledger.handOut, List.length_append]
      omega
    · exact Nat.le_refl _
  | branch n point objective tolerance =>
    unfold perform
    dsimp only
    split
    · exact Nat.le_refl _
    · exact Nat.le_refl _
    · simp only [Ledger.used, Ledger.split, List.length_cons]
      omega
    · exact Nat.le_refl _
  | insertNode n =>
    unfold perform
    dsimp only
    split
    · split <;> exact Nat.le_refl _
    · exact Nat.le_refl _
  | next | confirm | cancel =>
    unfold perform
    dsimp only
    split <;> exact Nat.le_refl _
  | lowerThreshold | setTolerances | setSelection | setRule | setScoring => exact Nat.le_refl _

/-- A brancher whose frontier lost nodes and gave out no id agrees with its ledger. -/
theorem Kept.of_le (h : s.Kept) {f : Frontier α} (hf : f.Consistent)
    (hmembers : f.members ≤ s.brancher.frontier.members)
    (hnext : f.nextId = s.brancher.frontier.nextId) :
    Kept ⟨{ s.brancher with frontier := f }, s.ledger⟩ where
  consistent := hf
  accounts := by
    have hnames : names ⟨{ s.brancher with frontier := f }, s.ledger⟩ ≤ s.names :=
      Multiset.add_le_add_right (Multiset.map_le_map hmembers)
    show s.ledger.Accounts _ f.nextId
    rw [hnext]
    exact h.accounts.of_le hnames rfl rfl
  waiting := h.waiting
  histories n hn := h.histories n (Multiset.mem_of_le hmembers hn)
  remembered := h.remembered
  counts := h.counts

/-- Offering a node that came back. -/
theorem Kept.offer [Scalar.Ordered α] (h : s.Kept) {n : OpenNode α} (hid : n.id ∈ s.ledger.settled)
    (hknown : n.history.Known s.brancher.vars.length) :
    Kept ⟨(s.brancher.offer n).2, s.ledger.reenter n.id⟩ := by
  have hmembers := h.consistent.members_insert_le n
  refine ⟨h.consistent.insert n, ?_, h.waiting, ?_, h.remembered, h.counts⟩
  · show (s.ledger.reenter n.id).Accounts _ (s.brancher.frontier.insert n).2.nextId
    rw [Frontier.nextId_insert]
    refine h.accounts.of_le ?_ rfl rfl
    -- the id of the node moves from those that came back to the open ones
    have hsettled : (↑s.ledger.settled : Multiset Nat)
        = n.id ::ₘ ↑(s.ledger.settled.erase n.id) := by
      rw [← Multiset.coe_erase, Multiset.cons_erase (Multiset.mem_coe.mpr hid)]
    calc (s.brancher.frontier.insert n).2.members.map OpenNode.id
          + (↑s.ledger.out + ↑(s.ledger.settled.erase n.id))
        ≤ (n ::ₘ s.brancher.frontier.members).map OpenNode.id
          + (↑s.ledger.out + ↑(s.ledger.settled.erase n.id)) :=
            Multiset.add_le_add_right (Multiset.map_le_map hmembers)
      _ = s.names := by
            rw [names, hsettled, Multiset.map_cons, Multiset.cons_add, Multiset.add_cons,
              Multiset.add_cons]
  · intro m hm
    rcases Multiset.mem_cons.mp (Multiset.mem_of_le hmembers hm) with rfl | hm
    · exact hknown
    · exact h.histories m hm

/-- The ids of the open nodes and of those that are out are distinct. -/
theorem Kept.not_mem_out (h : s.Kept) (hn : id ∈ s.brancher.frontier.members.map OpenNode.id) :
    id ∉ s.ledger.out := by
  intro hout
  exact Multiset.disjoint_left.mp (Multiset.disjoint_of_nodup_add h.accounts.nodup) hn
    (Multiset.mem_add.mpr (.inl (Multiset.mem_coe.mpr hout)))

omit [Scalar α] in
/-- A node that goes out of the tree is out. -/
theorem names_take {l : Ledger} {m : OpenNode α} {f : Frontier α}
    (hmembers : b.frontier.members = m ::ₘ f.members) :
    names ⟨{ b with frontier := f }, l.take m.id⟩ = names ⟨b, l⟩ := by
  show f.members.map OpenNode.id + (↑(m.id :: l.out) + ↑l.settled)
    = b.frontier.members.map OpenNode.id + (↑l.out + ↑l.settled)
  rw [hmembers, Multiset.map_cons, ← Multiset.cons_coe, Multiset.cons_add, Multiset.cons_add,
    Multiset.add_cons]

/-- Handing out a node. -/
theorem Kept.next [Scalar.Ordered α] (h : s.Kept) (hnext : s.brancher.next = (.ok n, b)) :
    Kept ⟨b, s.ledger.take n.id⟩ := by
  rcases s.brancher.next_cases with ⟨-, hfails⟩ | ⟨m, f, hpop, hhands⟩
  · rw [hfails] at hnext
    cases hnext
  · rw [hhands] at hnext
    cases hnext
    have hmembers := h.consistent.members_pop hpop
    have hmem : m ∈ s.brancher.frontier.members := hmembers ▸ Multiset.mem_cons_self _ _
    -- an entry under the same id would be overwritten, and the count would go wrong
    have hwaiting : m.id ∉ s.brancher.waiting.ids := by
      rw [h.waiting.mem_iff]
      exact h.not_mem_out (Multiset.mem_map_of_mem _ hmem)
    refine ⟨h.consistent.pop hpop, ?_, ?_, ?_, ?_, ?_⟩
    · have hid : f.nextId = s.brancher.frontier.nextId := by
        obtain ⟨slot, -, -, rfl⟩ := Frontier.pop?_eq_some hpop
        rfl
      show (s.ledger.take m.id).Accounts _ f.nextId
      rw [hid]
      exact h.accounts.of_le (le_of_eq (names_take hmembers)) rfl rfl
    · show (Waiting.insert s.brancher.waiting m.id _).ids.Perm (m.id :: s.ledger.out)
      rw [Waiting.ids_insert_of_notMem hwaiting]
      exact h.waiting.cons _
    · exact fun k hk => h.histories k (hmembers ▸ Multiset.mem_cons_of_mem hk)
    · intro e he
      rcases Waiting.mem_insert he with rfl | he
      · exact h.histories m hmem
      · exact h.remembered e he
    · have hcounts := h.counts
      show s.ledger.out.length + 1 + s.ledger.done = s.ledger.handed + 1 + s.ledger.children
      omega

/-- The ids of the nodes that are out are distinct. -/
theorem Kept.nodup_out (h : s.Kept) : s.ledger.out.Nodup := by
  have hnodup := Multiset.nodup_of_le (Multiset.le_add_left _ _) h.accounts.nodup
  exact Multiset.coe_nodup.mp (Multiset.nodup_of_le (Multiset.le_add_right _ _) hnodup)

/-- A node that came back was seen. -/
theorem Kept.seen_of_settled (h : s.Kept) (hid : id ∈ s.ledger.settled) : id ∈ s.ledger.seen :=
  h.accounts.seen id (Multiset.mem_add.mpr (.inr (Multiset.mem_add.mpr (.inr hid))))

/-- Something was seen if a node came back. -/
theorem Kept.seen_ne_nil (h : s.Kept) (hid : id ∈ s.ledger.settled) : s.ledger.seen ≠ [] :=
  List.ne_nil_of_mem (h.seen_of_settled hid)

/-- Confirming or cancelling a node that is out. -/
theorem Kept.settle (h : s.Kept) (hid : id ∈ s.ledger.out) (pseudocosts : Pseudocosts α) :
    Kept ⟨{ s.brancher with waiting := s.brancher.waiting.erase id, pseudocosts },
      s.ledger.settle id⟩ := by
  have hout := h.nodup_out
  refine ⟨h.consistent, h.accounts.of_le (le_of_eq ?_) rfl rfl, ?_, h.histories, ?_, ?_⟩
  · have hback : (↑s.ledger.out : Multiset Nat) = id ::ₘ ↑(s.ledger.out.erase id) := by
      rw [← Multiset.coe_erase, Multiset.cons_erase (Multiset.mem_coe.mpr hid)]
    show s.brancher.frontier.members.map OpenNode.id
      + (↑(s.ledger.out.erase id) + ↑(id :: s.ledger.settled)) = s.names
    rw [names, hback, ← Multiset.cons_coe, Multiset.add_cons, Multiset.cons_add]
  · show (s.brancher.waiting.erase id).ids.Perm (s.ledger.out.erase id)
    -- the ledger loses one occurrence and the map the whole key, and the ids are distinct
    have herase : s.ledger.out.erase id = s.ledger.out.filter (· ≠ id) := by
      rw [hout.erase_eq_filter]
      exact List.filter_congr fun other _ => by by_cases heq : other = id <;> simp [heq]
    rw [Waiting.ids_erase, herase]
    exact h.waiting.filter _
  · exact fun e he => h.remembered e (List.mem_filter.mp he).1
  · have hcounts := h.counts
    have hlength := List.length_erase_add_one hid
    show (s.ledger.out.erase id).length + (s.ledger.done + 1)
      = s.ledger.handed + s.ledger.children
    omega

/-- Queuing the children of a split. -/
theorem Kept.split (h : s.Kept) (hseen : s.ledger.seen ≠ []) {f : Frontier α} {down up : OpenNode α}
    (hf : f.Consistent) (hmembers : f.members ≤ up ::ₘ down ::ₘ s.brancher.frontier.members)
    (hnext : f.nextId = s.brancher.frontier.nextId + 2)
    (hdown : down.id = s.brancher.frontier.nextId) (hup : up.id = s.brancher.frontier.nextId + 1)
    (hdownKnown : down.history.Known s.brancher.vars.length)
    (hupKnown : up.history.Known s.brancher.vars.length) :
    Kept ⟨{ s.brancher with frontier := f }, s.ledger.split down.id up.id⟩ := by
  refine ⟨hf, ?_, h.waiting, ?_, h.remembered, h.counts⟩
  · show (s.ledger.split down.id up.id).Accounts _ f.nextId
    rw [hnext]
    refine h.accounts.children hseen ?_ rfl (by rw [Ledger.split, hdown, hup])
    -- the frontier may refuse nodes, and has no others
    refine le_trans (Multiset.add_le_add_right (Multiset.map_le_map hmembers)) (le_of_eq ?_)
    rw [Multiset.map_cons, Multiset.map_cons, hdown, hup, Multiset.cons_add, Multiset.cons_add]
    rfl
  · intro n hn
    rcases Multiset.mem_cons.mp (Multiset.mem_of_le hmembers hn) with rfl | hn
    · exact hupKnown
    rcases Multiset.mem_cons.mp hn with rfl | hn
    · exact hdownKnown
    · exact h.histories n hn

/-- Handing out the children of a split. -/
theorem Kept.handOut (h : s.Kept) (hseen : s.ledger.seen ≠ []) {down up : OpenNode α}
    (hdown : down.id = s.brancher.frontier.nextId) (hup : up.id = s.brancher.frontier.nextId + 1)
    (hdownKnown : down.history.Known s.brancher.vars.length)
    (hupKnown : up.history.Known s.brancher.vars.length) :
    Kept ⟨(({ s.brancher with frontier.nextId := s.brancher.frontier.nextId + 2 }
      : Brancher α).handOut down).handOut up, s.ledger.handOut [down.id, up.id]⟩ := by
  -- the new ids are above all that are waited for, so neither entry overwrites another
  have hunseen : ∀ id ∈ s.brancher.waiting.ids, id < s.brancher.frontier.nextId := by
    intro id hid
    refine h.accounts.lt id (h.accounts.seen id ?_)
    exact Multiset.mem_add.mpr (.inr (Multiset.mem_add.mpr (.inl (h.waiting.mem_iff.mp hid))))
  have hdownWaiting : down.id ∉ s.brancher.waiting.ids := fun hid =>
    absurd (hunseen _ hid) (by omega)
  have hids : (s.brancher.waiting.insert down.id ⟨down.score, down.history⟩).ids
      = down.id :: s.brancher.waiting.ids := Waiting.ids_insert_of_notMem hdownWaiting
  have hupWaiting : up.id ∉ (s.brancher.waiting.insert down.id ⟨down.score, down.history⟩).ids := by
    rw [hids, List.mem_cons, not_or]
    exact ⟨by omega, fun hid => absurd (hunseen _ hid) (by omega)⟩
  refine ⟨h.consistent.of_eq rfl rfl rfl rfl, ?_, ?_, h.histories, ?_, ?_⟩
  · refine h.accounts.children hseen (le_of_eq ?_) rfl (by rw [Ledger.handOut, hdown, hup]; rfl)
    show s.brancher.frontier.members.map OpenNode.id
      + (↑(up.id :: down.id :: s.ledger.out) + ↑s.ledger.settled) = _
    rw [← Multiset.cons_coe, ← Multiset.cons_coe, Multiset.cons_add, Multiset.cons_add,
      Multiset.add_cons, Multiset.add_cons, hdown, hup]
    rfl
  · show ((s.brancher.waiting.insert down.id _).insert up.id _).ids.Perm
      (up.id :: down.id :: s.ledger.out)
    rw [Waiting.ids_insert_of_notMem hupWaiting, hids]
    exact (h.waiting.cons _).cons _
  · intro e he
    rcases Waiting.mem_insert he with rfl | he
    · exact hupKnown
    rcases Waiting.mem_insert he with rfl | he
    · exact hdownKnown
    · exact h.remembered e he
  · have hcounts := h.counts
    show s.ledger.out.length + 1 + 1 + s.ledger.done
      = s.ledger.handed + (s.ledger.children + 2)
    omega

/-! ## Children in every dimension -/

/-- Handing out the children in every dimension of a node. -/
theorem Kept.allChildren (h : s.Kept) (hseen : s.ledger.seen ≠ []) {parent : Node α}
    {point : List α} {nodes : List (Node α)}
    (hall : s.brancher.allChildren parent point = (.ok nodes, b))
    (hids : (s.ledger.handOut (nodes.map Node.id)).used < wordRange) :
    Kept ⟨b, s.ledger.handOut (nodes.map Node.id)⟩ := by
  refine (Brancher.allChildren_induct (motive := fun found c => c.vars = s.brancher.vars
    ∧ ((s.ledger.handOut (found.map Node.id)).used < wordRange →
      Kept ⟨c, s.ledger.handOut (found.map Node.id)⟩)) hall ⟨rfl, fun _ => h⟩ ?_).2 hids
  intro _ found c i v down up d hv _ hsplit hfound
  obtain ⟨hvars, hkept⟩ := hfound
  refine ⟨(congrArg Brancher.vars (Brancher.handOut_split hsplit)).trans hvars, fun hids => ?_⟩
  -- there are ids for the two children, because there are for all that were handed out with them
  rw [List.map_append, ← Ledger.handOut_append] at hids ⊢
  rw [Ledger.used_handOut, show ([down.node, up.node].map Node.id).length = 2 from rfl] at hids
  have hfound := hkept (by omega)
  have hnonempty : (s.ledger.handOut (found.map Node.id)).seen ≠ [] :=
    List.append_ne_nil_of_right_ne_nil _ hseen
  have hroom : c.frontier.nextId + 2 < wordRange := by
    have hused : 0 < (s.ledger.handOut (found.map Node.id)).used :=
      Nat.lt_of_lt_of_le (List.length_pos_iff.mpr hnonempty) (Nat.le_add_left _ _)
    rw [hfound.accounts.nextId]
    dsimp only
    omega
  have hi : i < c.vars.length := by
    rw [hvars]
    exact (List.getElem?_eq_some_iff.mp hv).1
  obtain ⟨hdown, hup, rfl⟩ := Brancher.split_ids hsplit hroom
  obtain ⟨hdownKnown, hupKnown⟩ := Brancher.split_histories hsplit hi
  exact hfound.handOut hnonempty hdown hup hdownKnown hupKnown

/-- Branching a node that came back. -/
theorem Kept.branch [Scalar.Ordered α] (h : s.Kept) {parent : Node α} {point : List α}
    {objective tolerance : α} (hid : parent.id ∈ s.ledger.settled)
    (hids : (s.perform (.branch parent point objective tolerance)).ledger.used < wordRange) :
    (s.perform (.branch parent point objective tolerance)).Kept := by
  have hseen := h.seen_ne_nil hid
  rcases hbranch : s.brancher.branch parent point objective tolerance with ⟨e | outcome, c⟩
  · simp only [perform, hbranch]
    rw [Brancher.branch_error hbranch]
    exact h
  · simp only [perform, hbranch] at hids ⊢
    cases (Brancher.branch_cases hbranch).2 with
    | dropped => exact h
    | requeued => exact h.offer hid nofun
    | @split i v hv down up d hsplit =>
      -- the bound counts the children that are made, so their ids do not wrap around
      have hroom : s.brancher.frontier.nextId + 2 < wordRange := by
        have hnext := h.accounts.nextId
        have hpos := List.length_pos_iff.mpr hseen
        simp only [Ledger.used, Ledger.split, List.length_cons] at hids hnext
        omega
      obtain ⟨hdown, hup, hd⟩ := Brancher.split_ids hsplit hroom
      obtain ⟨hdownKnown, hupKnown⟩ :=
        Brancher.split_histories hsplit (List.getElem?_eq_some_iff.mp hv).1
      have hafter : ((d.offer down).2.offer up).2
          = { s.brancher with frontier := ((d.frontier.insert down).2.insert up).2 } := by
        rw [hd]
        rfl
      have hmembers : d.frontier.members = s.brancher.frontier.members := by
        rw [hd]
        rfl
      have hconsistent := Brancher.split_consistent hsplit h.consistent
      have hfirst := hconsistent.members_insert_le down
      rw [hmembers] at hfirst
      show Kept ⟨((d.offer down).2.offer up).2, _⟩
      rw [hafter]
      refine h.split hseen ((hconsistent.insert down).insert up) ?_ ?_ hdown hup hdownKnown hupKnown
      · refine ((hconsistent.insert down).members_insert_le up).trans ?_
        exact Multiset.cons_le_cons _ hfirst
      · rw [Frontier.nextId_insert, Frontier.nextId_insert, hd]

/-- Offering the root. -/
theorem Kept.insertRoot [Scalar.Ordered α] (h : s.Kept) (hroot : s.ledger.root = none) {n : Node α}
    {taken : Bool} (hinsert : s.brancher.insertRoot n = (.ok taken, b))
    (hids : (s.ledger.enter n.id).used < wordRange) : Kept ⟨b, s.ledger.enter n.id⟩ := by
  obtain rfl := Brancher.insertScored_ok hinsert
  have hreserved := h.consistent.reserveIds n.id
  have hmembers := hreserved.members_insert_le ⟨n, 0, .unsplit⟩
  refine ⟨hreserved.insert _, ?_, h.waiting, ?_, h.remembered, h.counts⟩
  · show (s.ledger.enter n.id).Accounts _
      ((s.brancher.frontier.reserveIds n.id).insert _).2.nextId
    rw [Frontier.nextId_insert]
    refine (h.accounts.root hroot hids).of_le ?_ rfl rfl
    -- the frontier may refuse the root, and has no other new node
    refine le_trans (Multiset.add_le_add_right (Multiset.map_le_map hmembers)) (le_of_eq ?_)
    rw [Multiset.map_cons, Multiset.cons_add]
    rfl
  · intro m hm
    rcases Multiset.mem_cons.mp (Multiset.mem_of_le hmembers hm) with rfl | hm
    · exact nofun
    · exact h.histories m hm

/-- Queuing a node that came back. -/
theorem Kept.insertNode [Scalar.Ordered α] (h : s.Kept) {n : Node α} {taken : Bool}
    (hid : n.id ∈ s.ledger.settled) (hinsert : s.brancher.insertNode n = (.ok taken, b)) :
    Kept ⟨b, if taken then s.ledger.reenter n.id else s.ledger⟩ := by
  have hused : n.id < s.brancher.frontier.nextId := h.accounts.lt _ (h.seen_of_settled hid)
  unfold Brancher.insertNode Brancher.insertScored at hinsert
  split at hinsert
  · cases hinsert
  · rw [Frontier.reserveIds_of_lt hused] at hinsert
    obtain ⟨htaken, rfl⟩ := Prod.mk.inj hinsert
    obtain rfl := Except.ok.inj htaken
    let m : OpenNode α := ⟨n, s.brancher.selectionScore n, .unsplit⟩
    show Kept ⟨(s.brancher.offer m).2,
      if (s.brancher.offer m).1 then s.ledger.reenter m.id else s.ledger⟩
    split
    · exact h.offer hid nofun
    · next hrefused =>
      -- a node that was refused has not entered
      have hdom : s.brancher.frontier.dominates m.score = true := by
        by_contra hlive
        refine hrefused ?_
        show (s.brancher.frontier.insert m).1 = true
        rw [Frontier.insert_of_not_dominates (Bool.eq_false_iff.mpr hlive)]
      refine h.of_le (f := (s.brancher.frontier.insert m).2) (h.consistent.insert m) ?_
        (Frontier.nextId_insert _ _)
      rw [Frontier.insert_of_dominates hdom]
      exact le_refl _

/-- A brancher at its start has nothing on its ledger. -/
theorem kept_new [Scalar.Ordered α] {vars : List (Variable α)} (h : Brancher.new vars = .ok b) :
    Kept ⟨b, {}⟩ := by
  obtain ⟨valid, -, rfl⟩ := Brancher.new_ok h
  refine ⟨Frontier.consistent_new _, ?_, .refl _, ?_, nofun, rfl⟩
  · exact ⟨Multiset.nodup_zero, fun _ h => absurd h (Multiset.notMem_zero _), .nil, nofun, rfl,
      fun _ => rfl⟩
  · exact fun _ h => absurd h (Multiset.notMem_zero _)

/-- A request that follows the protocol keeps the agreement, as long as there are ids. -/
theorem Kept.perform [Scalar.Ordered α] (h : s.Kept) {request : Brancher.Request α}
    (hadmits : s.ledger.Admits request) (hids : (s.perform request).ledger.used < wordRange) :
    (s.perform request).Kept := by
  -- a request that is refused leaves both the brancher and its books alone
  cases request with
  | branch n point objective tolerance => exact h.branch hadmits hids
  | next =>
    rcases hnext : s.brancher.next with ⟨e | n, b⟩ <;> simp only [Audited.perform, hnext]
    · rcases s.brancher.next_cases with ⟨-, hfails⟩ | ⟨n, f, -, hhands⟩
      · rw [hfails] at hnext
        cases hnext
        exact h
      · rw [hhands] at hnext
        cases hnext
    · exact h.next hnext
  | confirm id processed =>
    rcases Brancher.confirm_cases h.remembered id processed with
      ⟨hid, pseudocosts, hconfirm⟩ | ⟨-, hconfirm⟩ <;> simp only [Audited.perform, hconfirm]
    · exact h.settle (h.waiting.mem_iff.mp hid) pseudocosts
    · exact h
  | cancel id =>
    rcases s.brancher.cancel_cases id with ⟨hid, hcancel⟩ | ⟨-, hcancel⟩ <;>
      simp only [Audited.perform, hcancel]
    · exact h.settle (h.waiting.mem_iff.mp hid) s.brancher.pseudocosts
    · exact h
  | insertRoot n =>
    rcases hinsert : s.brancher.insertRoot n with ⟨e | taken, b⟩ <;>
      simp only [Audited.perform, hinsert] at hids ⊢
    · rw [Brancher.insertScored_error hinsert]
      exact h
    · exact h.insertRoot hadmits hinsert hids
  | insertNode n =>
    rcases hinsert : s.brancher.insertNode n with ⟨e | taken, b⟩ <;>
      simp only [Audited.perform, hinsert]
    · rw [Brancher.insertScored_error hinsert]
      exact h
    · exact h.insertNode hadmits hinsert
  | allChildren n point =>
    rcases hall : s.brancher.allChildren n point with ⟨e | nodes, b⟩ <;>
      simp only [Audited.perform, hall] at hids ⊢
    · rw [Brancher.allChildren_error hall]
      exact h
    · exact h.allChildren (h.seen_ne_nil hadmits) hall hids
  | lowerThreshold threshold =>
    exact h.of_le (h.consistent.lowerThreshold _) (h.consistent.members_lowerThreshold_le _)
      (Frontier.nextId_lowerThreshold _ _)
  | setTolerances rel abs => exact h.of_le (h.consistent.of_eq rfl rfl rfl rfl) (le_refl _) rfl
  | setSelection selection =>
    refine h.of_le (h.consistent.setSelection _) (le_of_eq ?_) (Frontier.nextId_setSelection _ _)
    exact Multiset.coe_eq_coe.mpr (Frontier.toList_setSelection _ _)
  | setRule rule => exact ⟨h.consistent, h.accounts, h.waiting, h.histories, h.remembered, h.counts⟩
  | setScoring scoring =>
    exact ⟨h.consistent, h.accounts, h.waiting, h.histories, h.remembered, h.counts⟩

/-! ## Runs -/

/-- Requests that follow the protocol keep the agreement, as long as there are ids. -/
theorem Kept.run [Scalar.Ordered α] (h : s.Kept) (hrun : Run s t)
    (hids : t.ledger.used < wordRange) : t.Kept := by
  induction hrun with
  | refl => exact h
  | tail _ hstep ih =>
    obtain ⟨request, hadmits⟩ := hstep
    exact (ih (Nat.lt_of_le_of_lt (used_le_perform _ hadmits) hids)).perform hadmits hids

/-- What a driver can tell of a brancher from its ledger. -/
structure Exact (s : Audited α) : Prop where
  /-- The ids of the open nodes are distinct. -/
  open_nodup : (s.brancher.frontier.toList.map OpenNode.id).Nodup
  /-- The ids of the nodes that are waited for are distinct. -/
  waiting_nodup : s.brancher.waiting.ids.Nodup
  /-- No open node has the id of one that is waited for. -/
  disjoint : ∀ n ∈ s.brancher.frontier.toList, n.id ∉ s.brancher.waiting.ids
  /-- The ids of the open nodes are below the next id. -/
  open_lt : ∀ n ∈ s.brancher.frontier.toList, n.id < s.brancher.frontier.nextId
  /-- So are the ids of the nodes that are waited for. -/
  waiting_lt : ∀ id ∈ s.brancher.waiting.ids, id < s.brancher.frontier.nextId
  /-- Every child got an id above all ids that were seen before it. -/
  descending : s.ledger.seen.Pairwise (· > ·)
  /-- The nodes that are waited for and those that were confirmed or cancelled are as many as were
  handed out from the tree or as children. -/
  waiting : s.brancher.waiting.length + s.ledger.done = s.ledger.handed + s.ledger.children
  /-- A node is confirmed if it is out, and unknown otherwise. -/
  confirm : ∀ id n, (s.brancher.confirm id n).1
    = if id ∈ s.ledger.out then .ok () else .error (.unknownNode id)
  /-- A node is cancelled if it is out, and unknown otherwise. -/
  cancel : ∀ id, (s.brancher.cancel id).1
    = if id ∈ s.ledger.out then .ok () else .error (.unknownNode id)

/-- The agreement is exact. -/
theorem Kept.exact (h : s.Kept) : s.Exact := by
  have hnodup := h.accounts.nodup
  have hopen : ∀ n ∈ s.brancher.frontier.toList,
      n.id ∈ s.brancher.frontier.members.map OpenNode.id := fun n hn =>
    Multiset.mem_map_of_mem _ (Multiset.mem_coe.mpr hn)
  have hids : ∀ {id}, id ∈ s.brancher.waiting.ids ↔ id ∈ s.ledger.out := h.waiting.mem_iff
  have hcounts := h.counts
  have hlength : s.brancher.waiting.length = s.ledger.out.length := by
    rw [← h.waiting.length_eq, Waiting.ids, List.length_map]
  -- the names of the open nodes and of those that are out are apart, and all of them were seen
  refine ⟨?_, ?_, ?_, ?_, ?_, h.accounts.descending, by omega, ?_, ?_⟩
  · exact Multiset.coe_nodup.mp (Multiset.nodup_of_le (Multiset.le_add_right _ _) hnodup)
  · exact h.waiting.nodup_iff.mpr h.nodup_out
  · exact fun n hn hout => h.not_mem_out (hopen n hn) (hids.mp hout)
  · exact fun n hn => h.accounts.lt _ (h.accounts.seen _ (Multiset.mem_add.mpr (.inl (hopen n hn))))
  · intro id hid
    refine h.accounts.lt _ (h.accounts.seen _ ?_)
    exact Multiset.mem_add.mpr (.inr (Multiset.mem_add.mpr (.inl (hids.mp hid))))
  · intro id n
    rcases Brancher.confirm_cases h.remembered id n with ⟨hid, _, hconfirm⟩ | ⟨hid, hconfirm⟩ <;>
      rw [hconfirm]
    · exact (if_pos (hids.mp hid)).symm
    · exact (if_neg (fun hout => hid (hids.mpr hout))).symm
  · intro id
    rcases s.brancher.cancel_cases id with ⟨hid, hcancel⟩ | ⟨hid, hcancel⟩ <;> rw [hcancel]
    · exact (if_pos (hids.mp hid)).symm
    · exact (if_neg (fun hout => hid (hids.mpr hout))).symm

end Audited

end BranchBound
