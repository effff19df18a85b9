import BranchBound.Proofs.Brancher.Ledger

/-! # What a brancher has done

A brancher forgets: of the nodes that it split, handed out and confirmed it keeps no more than an
average and a few snapshots. Its chronicle writes them all down beside it, for any sequence of
requests, whether it follows the protocol or not. The brancher is faithful to its chronicle: every
history it keeps is that of a split on record, what it remembers of a node is the node as it was
handed out last, and its averages are those of the confirmed nodes.

* **`Brancher.made`**, **`Brancher.handed`** — the children that a request makes, in pairs, and the
  nodes that it hands out; `Brancher.map_node_handed` finds these in the answer.
* **`Chronicle`**, **`Chronicle.perform`**, **`Chronicle.run`** — a brancher with its chronicle.
* **`Chronicle.Faithful`** — the nodes that the brancher keeps are on record;
  `Chronicle.Faithful.perform` and `Chronicle.Faithful.run`. -/

namespace BranchBound

variable {α : Type}

namespace Brancher

variable [Scalar α]

/-! ## What a request does -/

/-- The brancher after a request. -/
def after (b : Brancher α) : Request α → Brancher α
  | .insertRoot n => (b.insertRoot n).2
  | .next => b.next.2
  | .confirm id processed => (b.confirm id processed).2
  | .cancel id => (b.cancel id).2
  | .branch n point objective tolerance => (b.branch n point objective tolerance).2
  | .insertNode n => (b.insertNode n).2
  | .allChildren n point => (b.allChildren n point).2
  | .lowerThreshold threshold => (b.lowerThreshold threshold).2
  | .setTolerances rel abs => b.setTolerances rel abs
  | .setSelection selection => b.setSelection selection
  | .setRule rule => { b with rule }
  | .setScoring scoring => { b with scoring }

/-- The children of a node in some dimensions, in pairs; each pair is handed out before the next one
is made. -/
def pairs (parent : Node α) (point : List α) :
    Brancher α → List (Variable α × Nat) → List (OpenNode α × OpenNode α)
  | _, [] => []
  | b, (v, i) :: rest =>
      if parent.box.width i ≤ 0 then pairs parent point b rest
      else
        let (pair, b) := b.split parent i v.kind point
        pair :: pairs parent point ((b.handOut pair.1).handOut pair.2) rest

/-- The children of a node in every dimension, in pairs. -/
def childPairs (b : Brancher α) (n : Node α) (point : List α) : List (OpenNode α × OpenNode α) :=
  if (b.dimensionFault? n).isSome || (roundDiscrete b.vars n.box).isEmpty then []
  else pairs { n with box := roundDiscrete b.vars n.box } point b b.vars.zipIdx

/-- The children of a node that branching splits. -/
def branchPair? (b : Brancher α) (n : Node α) (point : List α) (objective tolerance : α) :
    Option (OpenNode α × OpenNode α) :=
  match (b.branch n point objective tolerance).1 with
  | .ok (.split i _ _) =>
      b.vars[i]?.map fun v => (b.split (b.rounded n objective) i v.kind point).1
  | _ => none

/-- The children that a request makes, in pairs. -/
def made (b : Brancher α) : Request α → List (OpenNode α × OpenNode α)
  | .branch n point objective tolerance => (b.branchPair? n point objective tolerance).toList
  | .allChildren n point => b.childPairs n point
  | _ => []

/-- The nodes that a request hands out, as they are kept. -/
def handed (b : Brancher α) : Request α → List (OpenNode α)
  | .next => (b.frontier.pop?.map (·.1)).toList
  | .allChildren n point => (b.childPairs n point).flatMap fun pair => [pair.1, pair.2]
  | _ => []

/-- The nodes that a request is answered with. -/
def answered (b : Brancher α) : Request α → List (Node α)
  | .next => b.next.1.toOption.toList
  | .allChildren n point => (b.allChildren n point).1.toOption.getD []
  | _ => []

variable {b c : Brancher α} {parent n : Node α} {point : List α} {objective tolerance : α}
  {request : Request α} {id : Nat}

/-- Adding the children of a node in some dimensions adds the pairs and hands them out. -/
theorem foldl_addChildren_eq (parent : Node α) (point : List α)
    (dimensions : List (Variable α × Nat)) (found : List (Node α) × Brancher α) :
    ∃ id, dimensions.foldl (addChildren parent point) found
      = (found.1 ++ ((pairs parent point found.2 dimensions).flatMap fun pair =>
          [pair.1, pair.2]).map OpenNode.node,
        ((pairs parent point found.2 dimensions).flatMap fun pair => [pair.1, pair.2]).foldl handOut
          { found.2 with frontier.nextId := id }) := by
  induction dimensions generalizing found with
  | nil => exact ⟨found.2.frontier.nextId, by simp [pairs]⟩
  | cons d rest ih =>
    obtain ⟨v, i⟩ := d
    rw [List.foldl_cons, pairs]
    rcases addChildren_cases parent point found v i
      with ⟨hnarrow, hsame⟩ | ⟨hwide, down, up, c, hsplit, hadded⟩
    · rw [if_pos hnarrow, hsame]
      exact ih found
    · obtain ⟨id, hfold⟩ := ih (addChildren parent point found (v, i))
      rw [if_neg hwide, hsplit]
      rw [hadded] at hfold ⊢
      refine ⟨id, hfold.trans ?_⟩
      -- a split changes the next id only, so that handing out can be put off until all pairs are
      -- made
      obtain rfl := split_brancher hsplit
      simp only [List.flatMap_cons, List.append_assoc, List.cons_append,
        List.nil_append, List.foldl_cons, List.map_cons]
      rfl

/-- The nodes that strong branching answers with are those it hands out. -/
theorem allChildren_eq {nodes : List (Node α)} (h : b.allChildren n point = (.ok nodes, c)) :
    nodes = (b.handed (.allChildren n point)).map OpenNode.node
      ∧ ∃ id, c = (b.handed (.allChildren n point)).foldl handOut
        { b with frontier.nextId := id } := by
  show nodes = ((b.childPairs n point).flatMap _).map _
    ∧ ∃ id, c = ((b.childPairs n point).flatMap _).foldl _ _
  unfold childPairs
  cases allChildren_exit h with
  | empty hfits hempty =>
    rw [hfits, hempty]
    exact ⟨rfl, b.frontier.nextId, rfl⟩
  | gathered hfits hfull hfold =>
    rw [hfits, hfull]
    obtain ⟨id, heq⟩ := foldl_addChildren_eq
      { n with box := roundDiscrete b.vars n.box } point b.vars.zipIdx ([], b)
    obtain ⟨hnodes, hc⟩ := Prod.mk.inj (hfold.symm.trans heq)
    exact ⟨hnodes, id, hc⟩

/-- Strong branching that fails makes no children. -/
theorem childPairs_of_error {e : Error α} (h : b.allChildren n point = (.error e, c)) :
    b.childPairs n point = [] := by
  cases allChildren_exit h with
  | misfit hfault =>
    rw [childPairs, hfault]
    rfl

/-- The node that is handed out next is the answer. -/
theorem next_eq {m : Node α} (h : b.next = (.ok m, c)) :
    ∃ n f, b.frontier.pop? = some (n, f) ∧ b.handed .next = [n] ∧ m = n.node
      ∧ c = ({ b with frontier := f } : Brancher α).handOut n := by
  rcases b.next_cases with ⟨-, hnext⟩ | ⟨n, f, hpop, hnext⟩ <;> rw [hnext] at h <;> cases h
  exact ⟨n, f, hpop, by rw [handed, hpop]; rfl, rfl, rfl⟩

/-- No node is handed out if none is open. -/
theorem handed_of_next_error {e : Error α} (h : b.next = (.error e, c)) :
    b.handed .next = [] ∧ c = b := by
  rcases b.next_cases with ⟨hpop, hnext⟩ | ⟨n, f, -, hnext⟩ <;> rw [hnext] at h <;> cases h
  exact ⟨by rw [handed, hpop]; rfl, rfl⟩

/-- The nodes that a request hands out are those it is answered with. -/
theorem map_node_handed (b : Brancher α) (request : Request α) :
    (b.handed request).map OpenNode.node = b.answered request := by
  cases request with
  | next =>
    rcases hnext : b.next with ⟨e | m, c⟩ <;> rw [answered, hnext]
    · rw [(handed_of_next_error hnext).1]
      rfl
    · obtain ⟨n, f, -, hhanded, rfl, -⟩ := next_eq hnext
      rw [hhanded]
      rfl
  | allChildren n point =>
    rcases hall : b.allChildren n point with ⟨e | nodes, c⟩ <;> rw [answered, hall]
    · rw [handed, childPairs_of_error hall]
      rfl
    · exact (allChildren_eq hall).1.symm
  | _ => rfl

omit [Scalar α] in
/-- Handing out nodes changes what is remembered and nothing else. -/
theorem foldl_handOut (nodes : List (OpenNode α)) (b : Brancher α) :
    ∃ waiting, nodes.foldl handOut b = { b with waiting } := by
  induction nodes generalizing b with
  | nil => exact ⟨b.waiting, rfl⟩
  | cons n rest ih =>
    obtain ⟨waiting, heq⟩ := ih (b.handOut n)
    exact ⟨waiting, heq⟩

/-- Branching that splits the node makes its two children and offers them. Otherwise it makes none,
and offers the node once more at most. -/
theorem branchPair?_cases {answer : Except (Error α) Branching}
    (h : b.branch n point objective tolerance = (answer, c)) :
    b.branchPair? n point objective tolerance = none
        ∧ (c = b ∨ ∃ m, c = (b.offer (b.toOpen m .unsplit)).2)
      ∨ ∃ i v down up d, b.vars[i]? = some v
        ∧ b.split (b.rounded n objective) i v.kind point = ((down, up), d)
        ∧ b.branchPair? n point objective tolerance = some (down, up)
        ∧ c = ((d.offer down).2.offer up).2 := by
  unfold branchPair?
  rw [h]
  cases answer with
  | error e => exact .inl ⟨rfl, .inl (branch_error h)⟩
  | ok outcome =>
    -- the pair is that of a split; a node that is dropped or offered again has none
    cases (branch_cases h).2 with
    | dropped => exact .inl ⟨rfl, .inl rfl⟩
    | requeued => exact .inl ⟨rfl, .inr ⟨_, rfl⟩⟩
    | @split i v hv down up d hsplit =>
      refine .inr ⟨i, v, down, up, d, hv, hsplit, ?_, rfl⟩
      dsimp only
      rw [hv, Option.map_some, hsplit]

/-- What is learned from a node that is confirmed. -/
def learned (b : Brancher α) (entry : HandedOut α) (processed : α) : Pseudocosts α :=
  match entry.history.split? with
  | none => b.pseudocosts
  | some (i, side) =>
      match b.vars[i]? with
      | none => b.pseudocosts
      | some v => b.learn v i side entry processed

/-- Confirming a node that is waited for. -/
theorem confirm_of_lookup {entry : HandedOut α} (h : b.waiting.lookup id = some entry)
    (processed : Node α) :
    (b.confirm id processed).2 = { b with
      waiting := b.waiting.erase id
      pseudocosts := b.learned entry processed.score } := by
  unfold confirm learned
  rw [h]
  dsimp only
  cases entry.history.split? with
  | none => rfl
  | some p =>
    dsimp only
    cases b.vars[p.1]? <;> rfl

/-- No request changes the variables, and none but a confirmation changes the averages. -/
theorem after_unchanged (b : Brancher α) (request : Request α) :
    (b.after request).vars = b.vars ∧ ((b.after request).pseudocosts = b.pseudocosts
      ∨ ∃ id processed, request = .confirm id processed) := by
  -- offering a node concerns the frontier alone
  have hinsert : ∀ (n : Node α) score, (b.insertScored n score).2.vars = b.vars
      ∧ (b.insertScored n score).2.pseudocosts = b.pseudocosts := by
    intro n score
    unfold insertScored
    split <;> exact ⟨rfl, rfl⟩
  cases request with
  | insertRoot n => exact ⟨(hinsert n _).1, .inl (hinsert n _).2⟩
  | insertNode n => exact ⟨(hinsert n _).1, .inl (hinsert n _).2⟩
  | next =>
    show b.next.2.vars = _ ∧ (b.next.2.pseudocosts = _ ∨ _)
    rcases b.next_cases with ⟨-, hnext⟩ | ⟨n, f, -, hnext⟩ <;> rw [hnext] <;> exact ⟨rfl, .inl rfl⟩
  | confirm id processed =>
    refine ⟨?_, .inr ⟨id, processed, rfl⟩⟩
    show (b.confirm id processed).2.vars = _
    cases hlookup : b.waiting.lookup id with
    | none => rw [confirm, hlookup]
    | some entry => rw [confirm_of_lookup hlookup]
  | cancel id =>
    show (b.cancel id).2.vars = _ ∧ ((b.cancel id).2.pseudocosts = _ ∨ _)
    obtain ⟨_, hcancel⟩ := b.exists_waiting_cancel id
    rw [hcancel]
    exact ⟨rfl, .inl rfl⟩
  | branch n point objective tolerance =>
    rcases hbranch : b.branch n point objective tolerance with ⟨answer, c⟩
    show (b.branch n point objective tolerance).2.vars = _
      ∧ ((b.branch n point objective tolerance).2.pseudocosts = _ ∨ _)
    rw [hbranch]
    rcases branchPair?_cases hbranch with
      ⟨-, rfl | ⟨m, rfl⟩⟩ | ⟨i, v, down, up, d, -, hsplit, -, rfl⟩
    · exact ⟨rfl, .inl rfl⟩
    · exact ⟨rfl, .inl rfl⟩
    · obtain rfl := split_brancher hsplit
      exact ⟨rfl, .inl rfl⟩
  | allChildren n point =>
    rcases hall : b.allChildren n point with ⟨e | nodes, c⟩
    · show (b.allChildren n point).2.vars = _ ∧ ((b.allChildren n point).2.pseudocosts = _ ∨ _)
      rw [hall, allChildren_error hall]
      exact ⟨rfl, .inl rfl⟩
    · obtain ⟨-, id, hc⟩ := allChildren_eq hall
      obtain ⟨waiting, hwaiting⟩ :=
        foldl_handOut (b.handed (.allChildren n point)) { b with frontier.nextId := id }
      show (b.allChildren n point).2.vars = _ ∧ ((b.allChildren n point).2.pseudocosts = _ ∨ _)
      rw [hall, hc, hwaiting]
      exact ⟨rfl, .inl rfl⟩
  | lowerThreshold | setTolerances | setSelection | setRule | setScoring => exact ⟨rfl, .inl rfl⟩

end Brancher

/-- The confirmation of a node. -/
structure Confirmation (α : Type) where
  /-- The node as it was handed out. -/
  node : OpenNode α
  /-- The score that it was confirmed with. -/
  processed : α
  /-- The threshold in force at the confirmation. -/
  threshold : α

/-- A brancher with its chronicle, the newest entries in front. -/
structure Chronicle (α : Type) where
  /-- The brancher. -/
  brancher : Brancher α
  /-- The children that splits have made, the lower beside the upper one. -/
  made : List (OpenNode α × OpenNode α)
  /-- The nodes that were handed out. -/
  out : List (OpenNode α)
  /-- The nodes that were confirmed. -/
  confirmed : List (Confirmation α)

namespace Chronicle

variable [Scalar α]

/-- A brancher without a past. -/
def start (b : Brancher α) : Chronicle α := ⟨b, [], [], []⟩

/-- The node of an id that was handed out last. -/
def lastOut? (s : Chronicle α) (id : Nat) : Option (OpenNode α) := s.out.find? (·.id == id)

/-- What a request confirms: the node of that id that was handed out last, if it is still waited
for. -/
def confirmation? (s : Chronicle α) : Brancher.Request α → Option (Confirmation α)
  | .confirm id processed =>
      if (s.brancher.waiting.lookup id).isSome then
        (s.lastOut? id).map (⟨·, processed.score, s.brancher.frontier.threshold⟩)
      else none
  | _ => none

/-- Does a request and writes down what came of it. -/
def perform (s : Chronicle α) (request : Brancher.Request α) : Chronicle α where
  brancher := s.brancher.after request
  made := (s.brancher.made request).reverse ++ s.made
  out := (s.brancher.handed request).reverse ++ s.out
  confirmed := (s.confirmation? request).toList ++ s.confirmed

/-- Does one request after the other. -/
def run (s : Chronicle α) (requests : List (Brancher.Request α)) : Chronicle α :=
  requests.foldl perform s

/-- The variables stay. -/
theorem vars_run (s : Chronicle α) (requests : List (Brancher.Request α)) :
    (s.run requests).brancher.vars = s.brancher.vars := by
  induction requests generalizing s with
  | nil => rfl
  | cons request rest ih =>
    exact (ih (s.perform request)).trans (s.brancher.after_unchanged request).1

/-- A node that no split made, or one of two children on record. -/
def Records (s : Chronicle α) (n : OpenNode α) : Prop :=
  n.history = .unsplit ∨ ∃ pair ∈ s.made, n = pair.1 ∨ n = pair.2

/-- What is remembered of each node is the node as it was handed out last. -/
def Remembers (s : Chronicle α) : Prop :=
  ∀ e ∈ s.brancher.waiting, ∃ n, s.lastOut? e.1 = some n ∧ e.2 = ⟨n.score, n.history⟩

/-- The nodes that a brancher keeps are on record. -/
structure Faithful (s : Chronicle α) : Prop where
  /-- The frontier is consistent. -/
  consistent : s.brancher.frontier.Consistent
  /-- The open nodes are on record. -/
  opened : ∀ n ∈ s.brancher.frontier.members, s.Records n
  /-- So are the nodes that were handed out. -/
  out : ∀ n ∈ s.out, s.Records n
  /-- What is remembered of a node is the node as it was handed out last. -/
  remembers : s.Remembers
  /-- The confirmed nodes are on record. -/
  confirmed : ∀ r ∈ s.confirmed, s.Records r.node

variable {s t : Chronicle α} {n : OpenNode α} {b : Brancher α} {f : Frontier α}

/-! ## What is on record -/

/-- What is on record stays so. -/
theorem Records.mono (h : s.Records n) (hmade : ∀ pair ∈ s.made, pair ∈ t.made) : t.Records n :=
  h.imp_right fun ⟨pair, hpair, hn⟩ => ⟨pair, hmade pair hpair, hn⟩

omit [Scalar α] in
/-- Handing out a node replaces what was remembered of an earlier one of its id. -/
theorem Remembers.handOut (h : s.Remembers) (n : OpenNode α) :
    Remembers { s with brancher := s.brancher.handOut n, out := n :: s.out } := by
  intro e he
  unfold lastOut?
  rcases List.mem_cons.mp he with rfl | he
  · exact ⟨n, List.find?_cons_of_pos (beq_self_eq_true n.id), rfl⟩
  · obtain ⟨hmem, hne⟩ := List.mem_filter.mp he
    obtain ⟨m, hm, heq⟩ := h e hmem
    refine ⟨m, ?_, heq⟩
    rw [List.find?_cons_of_neg]
    · exact hm
    · exact fun heq => of_decide_eq_true hne (beq_iff_eq.mp heq).symm

omit [Scalar α] in
/-- What is remembered of other nodes stays when a node comes back. -/
theorem Remembers.erase (h : s.Remembers) (id : Nat) (pseudocosts : Pseudocosts α) :
    Remembers { s with brancher := { s.brancher with
      waiting := s.brancher.waiting.erase id, pseudocosts } } :=
  fun e he => h e (List.mem_filter.mp he).1

omit [Scalar α] in
/-- What is remembered of a node that is waited for. -/
theorem Remembers.lookup (h : s.Remembers) {id : Nat} {entry : HandedOut α}
    (hlookup : s.brancher.waiting.lookup id = some entry) :
    ∃ n, s.lastOut? id = some n ∧ entry = ⟨n.score, n.history⟩ := by
  obtain ⟨before, after, heq, -⟩ := List.lookup_eq_some_iff.mp hlookup
  exact h (id, entry) (by rw [heq]; exact List.mem_append_right _ List.mem_cons_self)

/-- A node is confirmed if it is waited for, and then it is the node of its id that was handed out
last. Any other request to confirm changes nothing. -/
theorem perform_confirm (h : s.Remembers) (id : Nat) (processed : Node α) :
    s.brancher.waiting.lookup id = none ∧ s.perform (.confirm id processed) = s
      ∨ ∃ n, s.brancher.waiting.lookup id = some ⟨n.score, n.history⟩ ∧ s.lastOut? id = some n
        ∧ s.perform (.confirm id processed) = { s with
          brancher := { s.brancher with
            waiting := s.brancher.waiting.erase id
            pseudocosts := s.brancher.learned ⟨n.score, n.history⟩ processed.score }
          confirmed := [⟨n, processed.score, s.brancher.frontier.threshold⟩] ++ s.confirmed } := by
  have hperform : s.perform (.confirm id processed) = { s with
      brancher := (s.brancher.confirm id processed).2
      confirmed := (s.confirmation? (.confirm id processed)).toList ++ s.confirmed } := rfl
  rw [hperform, confirmation?]
  cases hlookup : s.brancher.waiting.lookup id with
  | none =>
    refine .inl ⟨rfl, ?_⟩
    rw [Brancher.confirm, hlookup]
    rfl
  | some entry =>
    -- what is remembered of the node is its score and history, as it was handed out
    obtain ⟨n, hn, rfl⟩ := h.lookup hlookup
    refine .inr ⟨n, rfl, hn, ?_⟩
    rw [Brancher.confirm_of_lookup hlookup, hn]
    rfl

namespace Faithful

/-- The node that was handed out last is on record. -/
theorem records_lastOut (h : ∀ n ∈ s.out, s.Records n) {id : Nat} (hn : s.lastOut? id = some n) :
    s.Records n := h n (List.mem_of_find?_eq_some hn)

/-- The brancher may lose open nodes. -/
theorem of_le (h : s.Faithful) (hf : f.Consistent)
    (hle : f.members ≤ s.brancher.frontier.members) :
    Faithful { s with brancher := { s.brancher with frontier := f } } where
  consistent := hf
  opened n hn := h.opened n (Multiset.mem_of_le hle hn)
  out := h.out
  remembers := h.remembers
  confirmed := h.confirmed

/-- A node on record may be offered. -/
theorem offer [Scalar.Ordered α] (h : s.Faithful) (hn : s.Records n) :
    Faithful { s with brancher := (s.brancher.offer n).2 } where
  consistent := h.consistent.insert n
  opened m hm := by
    rcases Multiset.mem_cons.mp (Multiset.mem_of_le (h.consistent.members_insert_le n) hm) with
      rfl | hm
    · exact hn
    · exact h.opened m hm
  out := h.out
  remembers := h.remembers
  confirmed := h.confirmed

/-- A node on record may be handed out. -/
theorem handOut (h : s.Faithful) (hn : s.Records n) :
    Faithful { s with brancher := s.brancher.handOut n, out := n :: s.out } where
  consistent := h.consistent
  opened := h.opened
  out := List.forall_mem_cons.mpr ⟨hn, h.out⟩
  remembers := h.remembers.handOut n
  confirmed := h.confirmed

/-- So may several nodes, one after the other. -/
theorem handOutAll (h : s.Faithful) (nodes : List (OpenNode α))
    (hnodes : ∀ n ∈ nodes, s.Records n) :
    Faithful { s with
      brancher := nodes.foldl Brancher.handOut s.brancher
      out := nodes.reverse ++ s.out } := by
  induction nodes generalizing s with
  | nil => exact h
  | cons n rest ih =>
    rw [List.forall_mem_cons] at hnodes
    have hrest := ih (h.handOut hnodes.1) hnodes.2
    rw [List.reverse_cons, List.append_assoc]
    exact hrest

/-- Children may be put on record. -/
theorem record (h : s.Faithful) (pairs : List (OpenNode α × OpenNode α)) :
    Faithful { s with made := pairs ++ s.made } := by
  have hmono : ∀ n, s.Records n → Records { s with made := pairs ++ s.made } n :=
    fun n hn => Records.mono hn fun _ => List.mem_append_right _
  exact ⟨h.consistent, fun n hn => hmono n (h.opened n hn), fun n hn => hmono n (h.out n hn),
    h.remembers, fun r hr => hmono _ (h.confirmed r hr)⟩

/-- A node that is waited for comes back. -/
theorem settle (h : s.Faithful) (id : Nat) (pseudocosts : Pseudocosts α)
    (confirmed : List (Confirmation α)) (hconfirmed : ∀ r ∈ confirmed, s.Records r.node) :
    Faithful { s with
      brancher := { s.brancher with waiting := s.brancher.waiting.erase id, pseudocosts }
      confirmed := confirmed ++ s.confirmed } where
  consistent := h.consistent
  opened := h.opened
  out := h.out
  remembers := h.remembers.erase id pseudocosts
  confirmed := List.forall_mem_append.mpr ⟨hconfirmed, h.confirmed⟩

/-! ## Requests -/

variable [Scalar.Ordered α]

/-- A node may be queued, as one that no split made. -/
theorem insertScored (h : s.Faithful) (n : Node α) (score : α) :
    Faithful { s with brancher := (s.brancher.insertScored n score).2 } := by
  rcases hinsert : s.brancher.insertScored n score with ⟨answer, c⟩
  rcases Brancher.insertScored_cases hinsert with ⟨_, -, -, rfl⟩ | ⟨-, rfl⟩
  · exact h
  · have hreserved := h.of_le (f := s.brancher.frontier.reserveIds n.id)
      (h.consistent.reserveIds n.id) (le_refl _)
    exact hreserved.offer (n := ⟨n, score, .unsplit⟩) (.inl rfl)

/-- The children of a split are put on record and offered. -/
theorem branch (h : s.Faithful) (n : Node α) (point : List α) (objective tolerance : α) :
    (s.perform (.branch n point objective tolerance)).Faithful := by
  rcases hbranch : s.brancher.branch n point objective tolerance with ⟨answer, c⟩
  have hperform : s.perform (.branch n point objective tolerance)
      = { s with
          brancher := c
          made := (s.brancher.branchPair? n point objective tolerance).toList.reverse
            ++ s.made } := by
    show Chronicle.mk (s.brancher.branch n point objective tolerance).2 _ _ _ = _
    rw [hbranch]
    rfl
  rw [hperform]
  rcases Brancher.branchPair?_cases hbranch with
    ⟨hnone, rfl | ⟨m, rfl⟩⟩ | ⟨i, v, down, up, d, -, hsplit, hsome, rfl⟩
  · rw [hnone]
    exact h
  · rw [hnone]
    exact h.offer (.inl rfl)
  · rw [hsome]
    obtain rfl := Brancher.split_brancher hsplit
    -- the pair is on record before its nodes are offered
    have hrecorded := (h.record [(down, up)]).of_le
      (f := { s.brancher.frontier with
        nextId := ((s.brancher.frontier.nextId + 1) % wordRange + 1) % wordRange })
      (h.consistent.of_eq rfl rfl rfl rfl) (le_refl _)
    have hdown := hrecorded.offer (n := down) (.inr ⟨_, List.mem_cons_self, .inl rfl⟩)
    exact hdown.offer (n := up) (.inr ⟨_, List.mem_cons_self, .inr rfl⟩)

omit [Scalar.Ordered α] in
/-- The children in every dimension are put on record and handed out. -/
theorem allChildren (h : s.Faithful) (n : Node α) (point : List α) :
    (s.perform (.allChildren n point)).Faithful := by
  rcases hall : s.brancher.allChildren n point with ⟨e | nodes, c⟩
  · have hperform : s.perform (.allChildren n point) = s := by
      show Chronicle.mk (s.brancher.allChildren n point).2 ((s.brancher.childPairs n point).reverse
        ++ s.made) (((s.brancher.childPairs n point).flatMap _).reverse ++ s.out) s.confirmed = s
      rw [hall, Brancher.childPairs_of_error hall, Brancher.allChildren_error hall]
      rfl
    rw [hperform]
    exact h
  · obtain ⟨-, id, hc⟩ := Brancher.allChildren_eq hall
    -- all pairs are on record before the first node is handed out
    have hrecorded := (h.record (s.brancher.childPairs n point).reverse).of_le
      (f := { s.brancher.frontier with nextId := id }) (h.consistent.of_eq rfl rfl rfl rfl)
      (le_refl _)
    have hhanded := hrecorded.handOutAll (s.brancher.handed (.allChildren n point))
      fun m hm => by
        obtain ⟨pair, hpair, hmem⟩ := List.mem_flatMap.mp hm
        refine .inr ⟨pair, List.mem_append_left _ (List.mem_reverse.mpr hpair), ?_⟩
        simpa using hmem
    have hperform : s.perform (.allChildren n point) = { s with
        brancher := (s.brancher.handed (.allChildren n point)).foldl Brancher.handOut
          { s.brancher with frontier.nextId := id }
        made := (s.brancher.childPairs n point).reverse ++ s.made
        out := (s.brancher.handed (.allChildren n point)).reverse ++ s.out } := by
      show Chronicle.mk (s.brancher.allChildren n point).2 _ _ _ = _
      rw [hall, hc]
      rfl
    rw [hperform]
    exact hhanded

/-- A node is handed out of the tree. -/
theorem next (h : s.Faithful) : (s.perform .next).Faithful := by
  rcases hnext : s.brancher.next with ⟨e | m, c⟩
  · obtain ⟨hhanded, rfl⟩ := Brancher.handed_of_next_error hnext
    have hperform : s.perform .next = s := by
      show Chronicle.mk s.brancher.next.2 _ ((s.brancher.handed .next).reverse ++ s.out) _ = s
      rw [hnext, hhanded]
      rfl
    rw [hperform]
    exact h
  · obtain ⟨n, f, hpop, hhanded, -, rfl⟩ := Brancher.next_eq hnext
    have hmembers := h.consistent.members_pop hpop
    have hrest := h.of_le (h.consistent.pop hpop)
      (hmembers ▸ Multiset.le_cons_self f.members n)
    -- the node was open, so that its history is on record
    have hn := h.opened n (hmembers ▸ Multiset.mem_cons_self n f.members)
    have hperform : s.perform .next = { s with
        brancher := ({ s.brancher with frontier := f } : Brancher α).handOut n
        out := n :: s.out } := by
      show Chronicle.mk s.brancher.next.2 _ ((s.brancher.handed .next).reverse ++ s.out) _ = _
      rw [hnext, hhanded]
      rfl
    rw [hperform]
    exact hrest.handOut hn

omit [Scalar.Ordered α] in
/-- A node that is waited for is confirmed. -/
theorem confirm (h : s.Faithful) (id : Nat) (processed : Node α) :
    (s.perform (.confirm id processed)).Faithful := by
  rcases perform_confirm h.remembers id processed with ⟨-, hsame⟩ | ⟨n, -, hn, hperform⟩
  · rw [hsame]
    exact h
  · rw [hperform]
    exact h.settle id _ [_] (List.forall_mem_singleton.mpr (records_lastOut h.out hn))

omit [Scalar.Ordered α] in
/-- A node that is waited for is cancelled. -/
theorem cancel (h : s.Faithful) (id : Nat) : (s.perform (.cancel id)).Faithful := by
  have hperform : s.perform (.cancel id) = { s with brancher := (s.brancher.cancel id).2 } := rfl
  rw [hperform]
  rcases s.brancher.cancel_cases id with ⟨-, hcancel⟩ | ⟨-, hcancel⟩ <;> rw [hcancel]
  · exact h.settle id s.brancher.pseudocosts [] nofun
  · exact h

/-- Whatever is requested, the brancher stays faithful to its chronicle. -/
theorem perform (h : s.Faithful) (request : Brancher.Request α) : (s.perform request).Faithful := by
  cases request with
  | insertRoot n => exact h.insertScored n 0
  | next => exact h.next
  | confirm id processed => exact h.confirm id processed
  | cancel id => exact h.cancel id
  | branch n point objective tolerance => exact h.branch n point objective tolerance
  | insertNode n => exact h.insertScored n (s.brancher.selectionScore n)
  | allChildren n point => exact h.allChildren n point
  | lowerThreshold threshold =>
    exact h.of_le (h.consistent.lowerThreshold _) (h.consistent.members_lowerThreshold_le _)
  | setTolerances rel abs => exact h.of_le (h.consistent.of_eq rfl rfl rfl rfl) (le_refl _)
  | setSelection selection =>
    exact h.of_le (h.consistent.setSelection _)
      (le_of_eq (Multiset.coe_eq_coe.mpr (Frontier.toList_setSelection _ _)))
  | setRule rule => exact ⟨h.consistent, h.opened, h.out, h.remembers, h.confirmed⟩
  | setScoring scoring => exact ⟨h.consistent, h.opened, h.out, h.remembers, h.confirmed⟩

/-- However often. -/
theorem run (h : s.Faithful) (requests : List (Brancher.Request α)) :
    (s.run requests).Faithful := by
  induction requests generalizing s with
  | nil => exact h
  | cons request rest ih => exact ih (h.perform request)

end Faithful

/-- A new brancher has nothing on record. -/
theorem faithful_start [Scalar.Ordered α] {vars : List (Variable α)}
    (h : Brancher.new vars = .ok b) : (start b).Faithful := by
  obtain ⟨valid, -, rfl⟩ := Brancher.new_ok h
  exact ⟨Frontier.consistent_new _, fun _ h => absurd h (Multiset.notMem_zero _), nofun, nofun,
    nofun⟩

end Chronicle

end BranchBound
