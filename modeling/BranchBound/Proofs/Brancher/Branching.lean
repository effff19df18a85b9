import BranchBound.Brancher.Learning
import BranchBound.Proofs.Frontier.Nodes
import BranchBound.Proofs.Search.Names

/-! # Branching a node

What branching a node can do, said once (`Brancher.Branched`), and what follows from it: the nodes
keep their names, and a point of the node that is whole where it has to be is held by the frontier
afterwards, unless the node was dropped.

* **`Brancher.BranchExit`** — what branching a node comes to; `branch_exit` says that there is
  nothing else.
* **`Brancher.Branched`** — the outcomes of branching that succeeds, by `branch_cases`;
  `branch_justified` says which one comes about.
* **`Branched.holds`**, **`Branched.holds_of_guards`** — the points that were held before and those
  of the node.
* **`Branched.names`** — the names of the nodes. -/

namespace BranchBound.Brancher

variable {α : Type} [Scalar α] {b c : Brancher α} {parent : Node α} {point : List α}
  {objective : α} {p : Problem α} {x : List α}

/-- The node that is split: its bounds are moved to whole numbers, and its score is raised to the
objective value of its relaxation. -/
def rounded (b : Brancher α) (parent : Node α) (objective : α) : Node α :=
  { parent with
    box := roundDiscrete b.vars parent.box
    score :=
      if Scalar.isNaN objective then parent.score else Scalar.greatest parent.score objective }

omit [Scalar α] in
/-- A node without a fault has as many lower bounds as there are variables. -/
theorem length_lower_of_dimensionFault (h : b.dimensionFault? parent = none) :
    parent.box.lower.length = b.vars.length := by
  unfold dimensionFault? at h
  split at h
  · next hdim =>
    rw [Box.hasDimension, Bool.and_eq_true, decide_eq_true_eq] at hdim
    exact hdim.1
  · cases h

/-- The ids that are noted once a node was branched. -/
def Branching.noted (id : Nat) (requeued : List Nat) : Branching → List Nat
  | .requeued => id :: requeued
  | .dropped | .split .. => requeued

/-- How a brancher may come out of branching a node. -/
inductive Branched (b : Brancher α) (parent : Node α) (point : List α) (objective : α) :
    Branching → Brancher α → Prop
  /-- The node was dropped. -/
  | dropped : Branched b parent point objective .dropped b
  /-- The node is a single point and was offered once more. -/
  | requeued (h : (roundDiscrete b.vars parent.box).isPoint = true) :
      Branched b parent point objective .requeued
        (b.offer (b.toOpen { parent with box := roundDiscrete b.vars parent.box } .unsplit)).2
  /-- The node was split, and both children were offered. -/
  | split {i : Nat} {v : Variable α} (hv : b.vars[i]? = some v) {down up : OpenNode α}
      {d : Brancher α}
      (h : b.split (b.rounded parent objective) i v.kind point = ((down, up), d)) :
      Branched b parent point objective (.split i down.id up.id) ((d.offer down).2.offer up).2

/-- Why a node comes out of branching as it does. -/
def Justified (b : Brancher α) (parent : Node α) (point : List α) (tolerance : α) :
    Branching → Prop
  | .dropped => (roundDiscrete b.vars parent.box).isEmpty = true
      ∨ (roundDiscrete b.vars parent.box).isPoint = false
        ∧ b.isBelowTolerance (roundDiscrete b.vars parent.box) tolerance = true
  | .requeued => (roundDiscrete b.vars parent.box).isEmpty = false
      ∧ (roundDiscrete b.vars parent.box).isPoint = true
  | .split i _ _ => (roundDiscrete b.vars parent.box).isEmpty = false
      ∧ b.isBelowTolerance (roundDiscrete b.vars parent.box) tolerance = false
      ∧ b.choose (roundDiscrete b.vars parent.box) point = some i

section Exits

variable (b : Brancher α) (parent : Node α) (point : List α) (objective tolerance : α)

/-- What branching a node comes to, with the checks that lead there. -/
inductive BranchExit : Except (Error α) Branching → Brancher α → Prop
  /-- There are more or fewer bounds than variables. -/
  | misfit {e : Error α} (hfault : b.dimensionFault? parent = some e) :
      BranchExit (.error e) b
  /-- No point is left once the bounds were moved to whole numbers. -/
  | empty (hfits : b.dimensionFault? parent = none)
      (hempty : (roundDiscrete b.vars parent.box).isEmpty = true) :
      BranchExit (.ok .dropped) b
  /-- A single point is left. -/
  | single (hfits : b.dimensionFault? parent = none)
      (hfull : (roundDiscrete b.vars parent.box).isEmpty = false)
      (hpoint : (roundDiscrete b.vars parent.box).isPoint = true) :
      BranchExit (.ok .requeued)
        (b.offer (b.toOpen { parent with box := roundDiscrete b.vars parent.box } .unsplit)).2
  /-- What is left is within the size tolerance. -/
  | small (hfits : b.dimensionFault? parent = none)
      (hfull : (roundDiscrete b.vars parent.box).isEmpty = false)
      (hwide : (roundDiscrete b.vars parent.box).isPoint = false)
      (hbelow : b.isBelowTolerance (roundDiscrete b.vars parent.box) tolerance = true) :
      BranchExit (.ok .dropped) b
  /-- There is no dimension to split it in. -/
  | stuck (hfits : b.dimensionFault? parent = none)
      (hfull : (roundDiscrete b.vars parent.box).isEmpty = false)
      (hwide : (roundDiscrete b.vars parent.box).isPoint = false)
      (hlarge : b.isBelowTolerance (roundDiscrete b.vars parent.box) tolerance = false)
      (hnone : ((b.choose (roundDiscrete b.vars parent.box) point).bind fun i =>
        b.vars[i]?.map (i, ·)) = none) :
      BranchExit (.error (.invalidProblem (.nothingToSplit parent.id))) b
  /-- It is split in the dimension that is chosen. -/
  | split {i : Nat} {v : Variable α} {down up : OpenNode α} {d : Brancher α}
      (hfits : b.dimensionFault? parent = none)
      (hfull : (roundDiscrete b.vars parent.box).isEmpty = false)
      (hwide : (roundDiscrete b.vars parent.box).isPoint = false)
      (hlarge : b.isBelowTolerance (roundDiscrete b.vars parent.box) tolerance = false)
      (hchoose : b.choose (roundDiscrete b.vars parent.box) point = some i)
      (hv : b.vars[i]? = some v)
      (hsplit : b.split (b.rounded parent objective) i v.kind point = ((down, up), d)) :
      BranchExit (.ok (.split i down.id up.id)) ((d.offer down).2.offer up).2

end Exits

variable {tolerance : α} {outcome : Branching}

/-- Branching comes to nothing else. -/
theorem branch_exit {answer : Except (Error α) Branching}
    (h : b.branch parent point objective tolerance = (answer, c)) :
    BranchExit b parent point objective tolerance answer c := by
  unfold branch at h
  split at h
  · next hfault =>
    cases h
    exact .misfit hfault
  · next hfits =>
    dsimp only at h
    split at h
    · next hempty =>
      cases h
      exact .empty hfits hempty
    · next hfull =>
      rw [Bool.not_eq_true] at hfull
      split at h
      · next hpoint =>
        cases h
        exact .single hfits hfull hpoint
      · next hwide =>
        rw [Bool.not_eq_true] at hwide
        split at h
        · next hbelow =>
          cases h
          exact .small hfits hfull hwide hbelow
        · next hlarge =>
          rw [Bool.not_eq_true] at hlarge
          split at h
          · next hnone =>
            cases h
            exact .stuck hfits hfull hwide hlarge hnone
          · next i v hchoice =>
            obtain ⟨j, hj, hv⟩ := Option.bind_eq_some_iff.mp hchoice
            obtain ⟨w, hw, heq⟩ := Option.map_eq_some_iff.mp hv
            cases heq
            cases h
            exact .split hfits hfull hwide hlarge hj hw rfl

/-- Branching a node whose bounds are as many as the variables has no other outcomes. -/
theorem branch_cases (h : b.branch parent point objective tolerance = (.ok outcome, c)) :
    b.dimensionFault? parent = none ∧ Branched b parent point objective outcome c := by
  cases branch_exit h with
  | empty hfits => exact ⟨hfits, .dropped⟩
  | single hfits _ hpoint => exact ⟨hfits, .requeued hpoint⟩
  | small hfits => exact ⟨hfits, .dropped⟩
  | split hfits _ _ _ _ hv hsplit => exact ⟨hfits, .split hv hsplit⟩

/-- A node is dropped if it holds no point or is below the tolerance, queued once more if it is a
single point, and otherwise split in the dimension that is chosen. -/
theorem branch_justified (h : b.branch parent point objective tolerance = (.ok outcome, c)) :
    b.Justified parent point tolerance outcome := by
  cases branch_exit h with
  | empty _ hempty => exact .inl hempty
  | single _ hfull hpoint => exact ⟨hfull, hpoint⟩
  | small _ _ hwide hbelow => exact .inr ⟨hwide, hbelow⟩
  | split _ hfull _ hlarge hchoose => exact ⟨hfull, hlarge, hchoose⟩

/-- A node that cannot be branched leaves the brancher as it is. -/
theorem branch_error {e : Error α}
    (h : b.branch parent point objective tolerance = (.error e, c)) : c = b := by
  cases branch_exit h <;> rfl

/-- A node that cannot be branched is not valid. -/
theorem branch_eq_error {e : Error α}
    (h : b.branch parent point objective tolerance = (.error e, c)) :
    ∃ fault, e = .invalidProblem fault := by
  cases branch_exit h with
  | misfit hfault =>
    unfold dimensionFault? at hfault
    split at hfault
    · cases hfault
    · cases hfault
      exact ⟨_, rfl⟩
  | stuck => exact ⟨_, rfl⟩

/-- Branching succeeds if a dimension is chosen wherever one has to be. -/
theorem exists_branch_eq_ok (hdim : b.dimensionFault? parent = none)
    (hchoose : (roundDiscrete b.vars parent.box).isEmpty = false →
      (roundDiscrete b.vars parent.box).isPoint = false →
      b.isBelowTolerance (roundDiscrete b.vars parent.box) tolerance = false →
      ∃ i v, b.choose (roundDiscrete b.vars parent.box) point = some i ∧ b.vars[i]? = some v) :
    ∃ outcome c, b.branch parent point objective tolerance = (.ok outcome, c) := by
  rcases hbranch : b.branch parent point objective tolerance with ⟨e | outcome, c⟩
  · cases branch_exit hbranch with
    | misfit hfault =>
      rw [hdim] at hfault
      cases hfault
    | stuck _ hfull hwide hlarge hnone =>
      obtain ⟨i, v, hi, hv⟩ := hchoose hfull hwide hlarge
      rw [hi, Option.bind_some, hv] at hnone
      cases hnone
  · exact ⟨outcome, c, rfl⟩

/-! ## A new brancher -/

/-- A new brancher over variables that can be brought into standard form. -/
theorem new_ok {vars : List (Variable α)} (h : Brancher.new vars = .ok b) :
    ∃ valid, vars.mapM Variable.validated = .ok valid ∧ b = {
      vars := valid
      frontier := .new .bestBound
      pseudocosts := .new valid.length
      waiting := []
      rule := .pseudocost
      scoring := .lowBoundFirst } := by
  unfold Brancher.new at h
  split at h
  · cases h
  · cases hvars : vars.mapM Variable.validated with
    | error e =>
      rw [hvars] at h
      cases h
    | ok valid =>
      rw [hvars] at h
      cases h
      exact ⟨valid, rfl, rfl⟩

/-! ## Putting nodes into the tree -/

/-- A node whose bounds are as many as the variables is offered to the frontier, which keeps clear
of its id; any other node is an error and changes nothing. -/
theorem insertScored_cases {n : Node α} {score : α} {answer : Except (Error α) Bool}
    (h : b.insertScored n score = (answer, c)) :
    (∃ e, b.dimensionFault? n = some e ∧ answer = .error e ∧ c = b)
      ∨ b.dimensionFault? n = none ∧ c = { b with
          frontier := ((b.frontier.reserveIds n.id).insert ⟨n, score, .unsplit⟩).2 } := by
  unfold insertScored at h
  cases hdim : b.dimensionFault? n with
  | none =>
    simp only [hdim] at h
    cases h
    exact .inr ⟨rfl, rfl⟩
  | some e =>
    simp only [hdim] at h
    cases h
    exact .inl ⟨e, rfl, rfl, rfl⟩

/-- If that is no error, the node was offered to the frontier. -/
theorem insertScored_ok {n : Node α} {score : α} {taken : Bool}
    (h : b.insertScored n score = (.ok taken, c)) : c = { b with
      frontier := ((b.frontier.reserveIds n.id).insert ⟨n, score, .unsplit⟩).2 } := by
  rcases insertScored_cases h with ⟨_, -, herror, -⟩ | ⟨-, hafter⟩
  · cases herror
  · exact hafter

/-- A node that was evaluated before is offered under its selection score, or changes nothing. -/
theorem insertNode_cases (b : Brancher α) (n : Node α) :
    (b.insertNode n).2 = b ∨ (b.insertNode n).2 = { b with
      frontier := ((b.frontier.reserveIds n.id).insert (b.toOpen n .unsplit)).2 } := by
  rcases hinsert : b.insertNode n with ⟨answer, c⟩
  rcases insertScored_cases hinsert with ⟨_, -, -, rfl⟩ | ⟨-, rfl⟩
  · exact .inl rfl
  · exact .inr rfl

omit [Scalar α] in
/-- A node with a lower and an upper bound for each variable has no fault. -/
theorem dimensionFault_eq_none {n : Node α} (hlower : n.box.lower.length = b.vars.length)
    (hupper : n.box.upper.length = b.vars.length) : b.dimensionFault? n = none := by
  rw [dimensionFault?, if_pos]
  rw [Box.hasDimension, hlower, hupper]
  simp

omit [Scalar α] in
/-- A node without a fault has bounds for all variables. -/
theorem dimensionFault_eq_none_iff {n : Node α} :
    b.dimensionFault? n = none ↔ n.box.hasDimension b.vars.length = true := by
  unfold dimensionFault?
  split
  · next h => exact ⟨fun _ => h, fun _ => rfl⟩
  · next h => exact ⟨nofun, fun hdim => absurd hdim h⟩

/-! ## Handing out and cancelling nodes -/

/-- The node that is handed out is taken out of the frontier, and is waited for from then on. If no
node is open, nothing happens. -/
theorem next_cases (b : Brancher α) :
    b.frontier.pop? = none ∧ b.next = (.error .emptyTree, b)
      ∨ ∃ n f, b.frontier.pop? = some (n, f) ∧ b.next = (.ok n.node, { b with
          frontier := f
          waiting := b.waiting.insert n.id ⟨n.score, n.history⟩ }) := by
  unfold next
  cases b.frontier.pop? with
  | none => exact .inl ⟨rfl, rfl⟩
  | some popped => exact .inr ⟨popped.1, popped.2, rfl, rfl⟩

/-- What confirming a node comes to. -/
inductive ConfirmExit (b : Brancher α) (id : Nat) (processed : Node α) :
    Except (Error α) Unit → Brancher α → Prop
  /-- The node is not waited for. -/
  | unknown (hlookup : b.waiting.lookup id = none) :
      ConfirmExit b id processed (.error (.unknownNode id)) b
  /-- It came of no split, so that nothing is learned from it. -/
  | unsplit {entry : HandedOut α} (hlookup : b.waiting.lookup id = some entry)
      (hnone : entry.history.split? = none) :
      ConfirmExit b id processed (.ok ()) { b with waiting := b.waiting.erase id }
  /-- It came of a split in a dimension that there is not. -/
  | stray {entry : HandedOut α} {i : Nat} {side : Side}
      (hlookup : b.waiting.lookup id = some entry) (hsplit : entry.history.split? = some (i, side))
      (hv : b.vars[i]? = none) :
      ConfirmExit b id processed
        (.error (.invalidProblem (.unknownVariable id i b.vars.length)))
        { b with waiting := b.waiting.erase id }
  /-- The improvement of its bound becomes a sample. -/
  | learned {entry : HandedOut α} {i : Nat} {side : Side} {v : Variable α}
      (hlookup : b.waiting.lookup id = some entry) (hsplit : entry.history.split? = some (i, side))
      (hv : b.vars[i]? = some v) :
      ConfirmExit b id processed (.ok ()) { b with
        waiting := b.waiting.erase id
        pseudocosts := b.learn v i side entry processed.score }

/-- It comes to nothing else. -/
theorem confirm_exit {id : Nat} {processed : Node α} {answer : Except (Error α) Unit}
    (h : b.confirm id processed = (answer, c)) : ConfirmExit b id processed answer c := by
  unfold confirm at h
  split at h
  · next hlookup =>
    cases h
    exact .unknown hlookup
  · next entry hlookup =>
    dsimp only at h
    split at h
    · next hnone =>
      cases h
      exact .unsplit hlookup hnone
    · next i side hsplit =>
      split at h
      · next hv =>
        cases h
        exact .stray hlookup hsplit hv
      · next v hv =>
        cases h
        exact .learned hlookup hsplit hv

omit [Scalar α] in
/-- Cancelling a node changes nothing but what is waited for. -/
theorem exists_waiting_cancel (b : Brancher α) (id : Nat) :
    ∃ waiting, (b.cancel id).2 = { b with waiting } := by
  unfold cancel
  split <;> exact ⟨_, rfl⟩

omit [Scalar α] in
/-- The frontier stays as it is. -/
theorem frontier_cancel (b : Brancher α) (id : Nat) : (b.cancel id).2.frontier = b.frontier := by
  obtain ⟨_, hcancel⟩ := b.exists_waiting_cancel id
  rw [hcancel]

/-! ## The children of a split -/

variable {parent : Node α} {i : Nat} {kind : VariableKind} {down up : OpenNode α}

/-- The children of a split cover its two parts and take the next two ids. -/
theorem split_nodes (h : b.split parent i kind point = ((down, up), c)) :
    down.node = child parent (parts kind parent.box i).1 b.frontier.nextId ∧
      up.node = child parent (parts kind parent.box i).2 ((b.frontier.nextId + 1) % wordRange) := by
  cases h
  exact ⟨rfl, rfl⟩

/-- A split changes nothing but the next id. -/
theorem split_brancher (h : b.split parent i kind point = ((down, up), c)) :
    c = { b with frontier.nextId := ((b.frontier.nextId + 1) % wordRange + 1) % wordRange } := by
  cases h
  rfl

/-- As long as there are ids, the children of a split take the next two. -/
theorem split_ids (h : b.split parent i kind point = ((down, up), c))
    (hroom : b.frontier.nextId + 2 < wordRange) :
    down.id = b.frontier.nextId ∧ up.id = b.frontier.nextId + 1
      ∧ c = { b with frontier.nextId := b.frontier.nextId + 2 } := by
  obtain ⟨hdown, hup⟩ := split_nodes h
  have hfirst : (b.frontier.nextId + 1) % wordRange = b.frontier.nextId + 1 :=
    Nat.mod_eq_of_lt (by omega)
  have hc := split_brancher h
  rw [hfirst] at hup hc
  rw [Nat.mod_eq_of_lt (show b.frontier.nextId + 1 + 1 < wordRange from hroom)] at hc
  rw [OpenNode.id, OpenNode.id, hdown, hup]
  exact ⟨rfl, rfl, hc⟩

/-- A split keeps the frontier consistent. -/
theorem split_consistent (h : b.split parent i kind point = ((down, up), c))
    (hb : b.frontier.Consistent) : c.frontier.Consistent := by
  rw [split_brancher h]
  exact hb.of_eq rfl rfl rfl rfl

/-- Offering a node to a brancher is offering it to its frontier. -/
@[simp] theorem offer_frontier (b : Brancher α) (n : OpenNode α) :
    (b.offer n).2.frontier = (b.frontier.insert n).2 := rfl

variable [Scalar.Exact α]

/-- A point of a node that is split in a dimension is held by one of the children. -/
theorem guards_split (h : b.split parent i kind point = ((down, up), c))
    (hguards : parent.Guards p x) (hi : i < x.length)
    (hx : kind.isDiscrete = true → Scalar.IsWhole (x.getD i 0)) :
    down.node.Guards p x ∨ up.node.Guards p x := by
  obtain ⟨hdown, hup⟩ := split_nodes h
  rw [hdown, hup]
  rcases contains_parts kind hguards.box hi hx with hbox | hbox
  · exact .inl ⟨hbox, hguards.score⟩
  · exact .inr ⟨hbox, hguards.score⟩

/-! ## What follows from branching a node -/

variable {n : Node α}

omit [Scalar.Exact α] in
/-- Branching changes no variable. -/
theorem Branched.vars (h : Branched b parent point objective outcome c) : c.vars = b.vars := by
  cases h with
  | dropped => rfl
  | requeued => rfl
  | @split i v hv down up d hsplit =>
    show d.vars = b.vars
    rw [split_brancher hsplit]

omit [Scalar.Exact α] in
/-- Branching keeps the frontier consistent. -/
theorem Branched.consistent [Scalar.Ordered α] (h : Branched b parent point objective outcome c)
    (hb : b.frontier.Consistent) : c.frontier.Consistent := by
  cases h with
  | dropped => exact hb
  | requeued => exact hb.insert _
  | split hv hsplit => exact ((split_consistent hsplit hb).insert _).insert _

omit [Scalar.Exact α] in
/-- Branching loses no point that was held before. -/
theorem Branched.holds [Scalar.Ordered α] (h : Branched b parent point objective outcome c)
    (hb : b.frontier.Consistent) (hx : b.frontier.Holds p x) : c.frontier.Holds p x := by
  cases h with
  | dropped => exact hx
  | requeued => exact hx.insert hb _
  | @split i v hv down up d hsplit =>
    have hd := split_consistent hsplit hb
    have hdx : d.frontier.Holds p x := by
      rw [split_brancher hsplit]
      exact hx
    rw [offer_frontier, offer_frontier]
    exact (hdx.insert hd _).insert (hd.insert _) _

/-- Unless it was dropped, the points of a branched node are held afterwards if they are whole where
they have to be and the objective value of its relaxation is a bound on them. -/
theorem Branched.holds_of_guards (h : Branched b parent point objective outcome c)
    (hdim : b.dimensionFault? parent = none) (hb : b.frontier.Consistent)
    (hout : outcome ≠ .dropped) (hguards : parent.Guards p x) (hbound : objective ≤ p.value x)
    (hx : Integral b.vars x) : c.frontier.Holds p x := by
  have hbox := contains_roundDiscrete hguards.box hx
  cases h with
  | dropped => exact absurd rfl hout
  | requeued => exact Frontier.holds_insert hb ⟨hbox, hguards.score⟩
  | @split i v hv down up d hsplit =>
    have hd := split_consistent hsplit hb
    have hi : i < x.length := by
      rw [← hguards.box.lower_length, length_lower_of_dimensionFault hdim]
      exact (List.getElem?_eq_some_iff.mp hv).1
    -- the score that the children inherit is that of the node or the objective value, and both are
    -- bounds
    have hscore : (b.rounded parent objective).Guards p x := by
      refine ⟨hbox, ?_⟩
      show (if _ then _ else _) ≤ _
      split
      · exact hguards.score
      · exact Scalar.greatest_le hguards.score hbound
    rw [offer_frontier, offer_frontier]
    rcases guards_split hsplit hscore hi (hx i v hv) with hdown | hup
    · exact (Frontier.holds_insert hd hdown).insert (hd.insert _) _
    · exact Frontier.holds_insert (hd.insert _) hup

omit [Scalar.Exact α] in
/-- Branching a node replaces it by nodes of their own names. -/
theorem Branched.names [Scalar.Ordered α] (h : Branched b parent point objective outcome c)
    (hb : b.frontier.Consistent) {rest : Multiset (Node α)} {requeued : List Nat}
    (hn : Names (n ::ₘ (b.frontier.nodes + rest)) requeued b.frontier.nextId)
    (hid : parent.id = n.id) (hnext : b.frontier.nextId + 2 < wordRange) :
    Names (c.frontier.nodes + rest) (outcome.noted n.id requeued) c.frontier.nextId
      ∧ c.frontier.nextId ≤ b.frontier.nextId + 2 := by
  cases h with
  | dropped => exact ⟨hn.of_le (Multiset.le_cons_self _ _), Nat.le_add_right _ _⟩
  | requeued hpoint =>
    rw [offer_frontier, Frontier.nextId_insert]
    refine ⟨(hn.requeue (m := { parent with box := roundDiscrete b.vars parent.box }) hid
      hpoint).of_le ?_, Nat.le_add_right _ _⟩
    rw [← Multiset.cons_add]
    exact Multiset.add_le_add_right (hb.nodes_insert_le _)
  | @split i v hv down up d hsplit =>
    have hd := split_consistent hsplit hb
    obtain ⟨hdown, hup⟩ := split_nodes hsplit
    rw [Nat.mod_eq_of_lt (by omega)] at hup
    obtain ⟨-, -, hc⟩ := split_ids hsplit hnext
    have hnodes : d.frontier.nodes = b.frontier.nodes := by
      rw [hc]
      rfl
    have hid : d.frontier.nextId = b.frontier.nextId + 2 := by
      rw [hc]
    rw [offer_frontier, offer_frontier, Frontier.nextId_insert, Frontier.nextId_insert, hid]
    refine ⟨?_, Nat.le_refl _⟩
    have hold := hn.of_le (Multiset.le_cons_self _ _)
    -- the node leaves, and each of the children takes the next id in turn
    have hnew := (hold.child (n := down.node) (by rw [hdown]; rfl)).child (n := up.node)
      (by rw [hup]; rfl)
    refine hnew.of_le ?_
    rw [← Multiset.cons_add, ← Multiset.cons_add, ← hnodes]
    refine Multiset.add_le_add_right ((hd.insert down).nodes_insert_le up |>.trans ?_)
    exact Multiset.cons_le_cons _ (hd.nodes_insert_le down)

end BranchBound.Brancher
