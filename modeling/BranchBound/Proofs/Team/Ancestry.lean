import BranchBound.Proofs.Search.Ancestry
import BranchBound.Proofs.Team.Replying
import BranchBound.Proofs.Team.Targets

/-! # Nodes of a team and their ancestors

A node that is in the tree of a team or out at one of its workers has a line of ancestors as well,
whatever the order of events. It was there before the event, or the manager has just taken in the
report of a worker; a node that is put back is as it was handed out. So these nodes are as sane as
those of a serial search without strong branching.

* **`Team.Living`** — the nodes in the tree or out.
* **`Team.OpensNone`**, **`Team.Takes`** — an event opens no node, or the manager takes in a report
  (`Team.living_or_opened`).
* **`Team.Opens`**, **`Team.exists_line`**, **`Team.sane_line`** — how nodes are opened, their
  lines, and what is true along a line.
* **`Search.sane_nodes`** — the nodes of all searches are sane. -/

namespace BranchBound

variable {σ α : Type} [Scalar α]

namespace Search

variable {s t : Search α} {m n : Node α}

/-- If no node can be handed out, nothing happens. -/
theorem next_eq_self {e : Error α} (h : s.next = (.error e, t)) : t = s := by
  unfold Search.next Brancher.next at h
  cases hpop : s.brancher.frontier.pop? <;> simp only [hpop] at h
  · cases h
    rfl
  · cases h

/-- Putting a node back opens no other one. -/
theorem mem_of_requeue (hs : s.brancher.frontier.Consistent)
    (hm : m ∈ (s.requeue n).brancher.frontier.nodes) :
    m = n ∨ m ∈ s.brancher.frontier.nodes := by
  change m ∈ ((s.brancher.cancel n.id).2.insertNode n).2.frontier.nodes at hm
  rcases (s.brancher.cancel n.id).2.insertNode_cases n with hsame | hqueued
  · rw [hsame, s.brancher.frontier_cancel n.id] at hm
    exact .inr hm
  · rw [hqueued, s.brancher.frontier_cancel n.id] at hm
    exact Multiset.mem_cons.mp (Multiset.mem_of_le ((hs.reserveIds n.id).nodes_insert_le _) hm)

end Search

namespace Team

variable {solvers : Nat → Solvers σ α} {start : Search α} {first t u v : Team σ α} {i : Nat}
  {m n : Node α} {r : Report α} {stage : Stage} {event : Event}

/-! ## The nodes of a team -/

/-- The node is in the tree, or a worker is on it. -/
def Living (t : Team σ α) (m : Node α) : Prop :=
  m ∈ t.search.brancher.frontier.nodes ∨ m ∈ t.outNodes

omit [Scalar α] in
/-- A worker that is released is on no node, and the others are on theirs. -/
theorem mem_of_release (hm : m ∈ (t.release i).outNodes) : m ∈ t.outNodes := by
  have hbefore : t.Each fun _ seat => ∀ a ∈ seat.out, a.node ∈ t.outNodes :=
    fun j seat hseat a ha => mem_outNodes.mpr ⟨j, seat, a, hseat, ha, rfl⟩
  have hafter : (t.release i).Each fun _ seat => ∀ a ∈ seat.out, a.node ∈ t.outNodes :=
    hbefore.modify_same fun _ _ _ a ha => nomatch ha
  obtain ⟨j, seat, a, hseat, hout, rfl⟩ := mem_outNodes.mp hm
  exact hafter j seat hseat a hout

/-- From one state of a team to another one no node becomes living, and the search is in a state
that it may be in. -/
def OpensNone (start : Search α) (t u : Team σ α) : Prop :=
  start.Continues t.search → start.Continues u.search ∧ ∀ m, u.Living m → t.Living m

namespace OpensNone

/-- No node becomes living from one state to itself. -/
theorem refl (start : Search α) (t : Team σ α) : OpensNone start t t :=
  fun h => ⟨h, fun _ hm => hm⟩

/-- No node becomes living in one step after the other. -/
theorem trans (h : OpensNone start t u) (k : OpensNone start u v) : OpensNone start t v := by
  intro hstart
  obtain ⟨hmiddle, hfirst⟩ := h hstart
  obtain ⟨hlast, hsecond⟩ := k hmiddle
  exact ⟨hlast, fun m hm => hfirst m (hsecond m hm)⟩

/-- What concerns neither the search nor the nodes that are out. -/
theorem of_subset (hsearch : u.search = t.search) (hout : ∀ m ∈ u.outNodes, m ∈ t.outNodes) :
    OpensNone start t u := by
  intro hstart
  refine ⟨hsearch ▸ hstart, fun m hm => hm.imp (fun hopen => ?_) (hout m)⟩
  rwa [hsearch] at hopen

/-- The same if the nodes that are out are the same ones. -/
theorem of_eq (hsearch : u.search = t.search) (hout : u.outNodes = t.outNodes) :
    OpensNone start t u :=
  of_subset hsearch fun _ hm => hout ▸ hm

end OpensNone

variable [Scalar.Ordered α]

/-- The clock opens no node. -/
theorem opensNone_atTime (solvers : Nat → Solvers σ α) (t : Team σ α) :
    OpensNone start t (t.atTime solvers) :=
  fun h => ⟨h.perform (.atTime _), fun _ hm => hm⟩

/-- A node that goes out was in the tree. -/
theorem opensNone_dispatchTo (is : List Nat) (t : Team σ α) :
    OpensNone start t (dispatchTo is t).2 := by
  -- the induction is on the workers that are still to be looked at
  induction is generalizing t with
  | nil => exact .refl start t
  | cons i rest ih =>
    have hcases := handing i rest t
    generalize dispatchTo (i :: rest) t = result at hcases ⊢
    cases hcases with
    | busy => exact ih t
    | exhausted => exact .refl start t
    | failed hnext =>
      cases Search.next_eq_self hnext
      exact .refl start t
    | gone hnext =>
      intro h
      exact ⟨h.next hnext, fun m hm =>
        hm.imp_left ((Search.mem_of_next h.consistent hnext).2 m)⟩
    | @given seat node search _ hnext hseat hout =>
      refine OpensNone.trans (u := ({ t with search } : Team σ α).give i node) (fun h => ?_) (ih _)
      obtain ⟨hnode, hfewer⟩ := Search.mem_of_next h.consistent hnext
      have hperm := perm_outNodes_give (t := { t with search }) hseat hout node
      refine ⟨h.next hnext, fun m hm => ?_⟩
      rcases hm with hopen | hm
      · exact .inl (hfewer m hopen)
      · rcases List.mem_cons.mp (hperm.subset hm) with rfl | hm
        · exact .inl hnode
        · exact .inr hm

/-- Looking at the search opens no node. -/
theorem opensNone_decide (solvers : Nat → Solvers σ α) (t : Team σ α) :
    OpensNone start t (t.decide solvers) := by
  have hdispatch : OpensNone start t (t.atTime solvers).dispatch.2 :=
    (opensNone_atTime solvers t).trans
      (opensNone_dispatchTo (List.range t.seats.length) (t.atTime solvers))
  rcases decide_cases solvers t with ⟨status, -, heq⟩ | ⟨-, ⟨e, u, hu, heq⟩ | ⟨u, hu, heq⟩⟩
  · rw [heq]
    exact (opensNone_atTime solvers t).trans
      (.of_eq (search_finishDrain _ _) (outNodes_finishDrain _ _))
  · rw [hu] at hdispatch
    rw [heq]
    exact hdispatch.trans (.of_eq rfl (outNodes_dismiss u .exception))
  · rw [hu] at hdispatch
    rw [heq]
    exact hdispatch.trans (.of_eq rfl rfl)

/-- A node that is put back was out. -/
theorem opensNone_requeue (t : Team σ α) (i : Nat) : OpensNone start t (t.requeue i) := by
  have hrequeuing := requeuing t i
  generalize t.requeue i = after at hrequeuing ⊢
  cases hrequeuing with
  | idle => exact .refl start t
  | refused => exact .of_subset rfl fun _ => mem_of_release
  | @putBack seat a b hseat hout hcancel =>
    -- for the tree this is one cancellation and one insertion of the same node
    rw [← Search.requeue_of_cancel hcancel]
    intro h
    refine ⟨?_, fun m hm => ?_⟩
    · show start.Continues (t.search.requeue a.node)
      rw [Search.requeue_eq]
      exact (h.perform (.cancel a.node.id)).perform (.insertEvaluated a.node)
    · rcases hm with hopen | hm
      · rcases Search.mem_of_requeue h.consistent hopen with rfl | hopen
        · exact .inr (mem_outNodes.mpr ⟨i, seat, a, hseat, hout, rfl⟩)
        · exact .inl hopen
      · exact .inr (mem_of_release hm)

/-- Nodes that are put back were out. -/
theorem opensNone_foldl_requeue (is : List Nat) (t : Team σ α) :
    OpensNone start t (is.foldl requeue t) := by
  induction is generalizing t with
  | nil => exact .refl start t
  | cons i rest ih => exact (opensNone_requeue t i).trans (ih _)

/-! ## Reports -/

/-- In an event, the manager takes in the report on a node that is out, and no node goes out. -/
structure Takes (t : Team σ α) (event : Event) (u : Team σ α) (n : Node α) (r : Report α) :
    Prop where
  /-- The manager reads the report. -/
  reads : t.Reads event n r
  /-- The report is passed on to the search. -/
  search : u.search = (t.search.apply r).2
  /-- No node goes out. -/
  out : ∀ m ∈ u.outNodes, m ∈ t.outNodes

omit [Scalar.Ordered α] in
/-- The node was out. -/
theorem Takes.mem_outNodes (h : t.Takes event u n r) : n ∈ t.outNodes := by
  obtain ⟨i, -, seat, a, -, -, hseat, hout, rfl⟩ := h.reads
  exact Team.mem_outNodes.mpr ⟨i, seat, a, hseat, hout, rfl⟩

omit [Scalar.Ordered α] in
/-- When a reply reaches a searching manager, the nodes that are out are those after it was taken
in. -/
theorem outNodes_hear (t : Team σ α) (i : Nat) (reply : Reply α) :
    (t.hear i (.reply reply)).outNodes = (t.takeIn i reply).2.outNodes := by
  have hhearing := hearing t i (.reply reply)
  generalize t.hear i (.reply reply) = after at hhearing ⊢
  cases hhearing with
  | @refused _ _ v htake =>
    rw [htake]
    exact outNodes_dismiss v .exception
  | taken htake =>
    rw [htake]
    rfl

omit [Scalar.Ordered α] in
/-- A reply that is read is taken in, or it opens no node. -/
theorem opensNone_or_takes_reply {reply : Reply α} (hnews : t.news? i = some (.reply reply, u))
    (hsearch : v.search = (u.takeIn i reply).2.search)
    (hout : v.outNodes = (u.takeIn i reply).2.outNodes) :
    OpensNone start t v ∨ ∃ n r, t.Takes (.receive i) v n r := by
  obtain ⟨seat, a, hseat, ha, hsame, hnodes, -⟩ := news?_frame hnews
  cases reply with
  | failed text => exact .inl (.of_eq (hsearch.trans hsame) (hout.trans hnodes))
  | report r =>
    obtain ⟨hreleased, htaken⟩ := takeIn_report u i r
    have hfewer : ∀ m ∈ v.outNodes, m ∈ t.outNodes := by
      rw [hout, hreleased, ← hnodes]
      exact fun m hm => mem_of_release hm
    rw [htaken] at hsearch
    split at hsearch
    · rw [hsame] at hsearch
      exact .inr ⟨a.node, r, ⟨i, u, seat, a, rfl, hnews, hseat, ha, rfl⟩, hsearch, hfewer⟩
    · exact .inl (.of_subset (hsearch.trans hsame) hfewer)

/-- An event opens no node, unless the manager takes in a report. -/
theorem opensNone_or_takes (solvers : Nat → Solvers σ α) (t : Team σ α) (event : Event) :
    OpensNone start t (t.step solvers event)
      ∨ ∃ n r, t.Takes event (t.step solvers event) n r := by
  have heffect := effect_step solvers t event
  generalize t.step solvers event = after at heffect ⊢
  cases heffect with
  | nothing => exact .inl (.refl start t)
  | tick => exact .inl (.of_eq rfl rfl)
  | work i =>
    obtain ⟨hsearch, -, hout, -⟩ := work_frame solvers t i
    exact .inl (.of_eq hsearch hout)
  | decide => exact .inl (opensNone_decide solvers t)
  | @hear i news u _ hnews =>
    cases news with
    | gone =>
      cases news?_gone hnews
      exact .inl (.of_eq rfl (outNodes_dismiss t .exception))
    | reply reply =>
      exact opensNone_or_takes_reply hnews (search_hear u i reply) (outNodes_hear u i reply)
  -- a late report can still be taken in; whatever else comes late only puts the node back
  | @hearLate i news u status _ hnews =>
    obtain ⟨_, _, -, -, hsame, hnodes, -⟩ := news?_frame hnews
    have hputBack : OpensNone start t ((u.requeue i).finishDrain status) :=
      ((OpensNone.of_eq hsame hnodes).trans (opensNone_requeue u i)).trans
        (.of_eq (search_finishDrain _ status) (outNodes_finishDrain _ status))
    cases news with
    | gone => exact .inl hputBack
    | reply reply =>
      cases reply with
      | failed text => exact .inl hputBack
      | report r =>
        exact opensNone_or_takes_reply hnews (search_finishDrain _ status)
          (outNodes_finishDrain _ status)
  | deadline =>
    refine .inl ((opensNone_foldl_requeue (List.range t.seats.length) t).trans (.of_eq rfl ?_))
    exact outNodes_dismiss _ .everythingFine

/-- A node that is living after an event was so before, or the manager has taken in a report, and it
is in the tree and was not before. -/
theorem living_or_opened (h : start.Continues t.search) (hm : (t.step solvers event).Living m) :
    t.Living m ∨ ∃ n r stage s, t.Takes event (t.step solvers event) n r
      ∧ t.search.apply r = (.ok stage, s) ∧ m ∈ s.brancher.frontier.nodes
      ∧ m ∉ t.search.brancher.frontier.nodes := by
  rcases opensNone_or_takes solvers t event with hnone | ⟨n, r, htakes⟩
  · exact .inl ((hnone h).2 m hm)
  by_cases hbefore : m ∈ t.search.brancher.frontier.nodes
  · exact .inl (.inl hbefore)
  rcases hm with hopen | hout
  · rw [htakes.search] at hopen
    rcases happly : t.search.apply r with ⟨e | stage, s⟩ <;> rw [happly] at hopen
    · -- a report that is refused opens no node
      rw [(Search.apply_error happly).1] at hopen
      have hkeeps := t.search.keeps_record h.consistent r
      exact absurd (Multiset.mem_of_le hkeeps.nodes_le hopen) hbefore
    · exact .inr ⟨n, r, stage, s, htakes, happly, hopen, hbefore⟩
  · exact .inl (.inr (htakes.out m hout))

/-! ## Lines of ancestors -/

/-- In an event of a run the manager takes in the report on a node, which is concluded in a stage,
and another node is in the tree then and was not before. -/
inductive Opens (solvers : Nat → Solvers σ α) (first : Team σ α) (n : Node α) (r : Report α)
    (m : Node α) (stage : Stage) : Prop
  /-- The report is taken in like any other. -/
  | taken {events : List Event} {event : Event} {s : Search α}
      (hreads : (first.run solvers events).Reads event n r)
      (happly : (first.run solvers events).search.apply r = (.ok stage, s))
      (hopen : m ∈ s.brancher.frontier.nodes)
      (hnew : m ∉ (first.run solvers events).search.brancher.frontier.nodes) :
      Opens solvers first n r m stage

/-- The lines of ancestors in a run of a team. -/
abbrev Line (solvers : Nat → Solvers σ α) (first : Team σ α) : List (Node α) → Node α → Prop :=
  Node.Line (Opens solvers first) (.root first.search.brancher.vars)

variable {vars : List (Variable α)} {settings : Settings α} {memory : σ}

/-- The search of a team is in a state that it may be in. -/
theorem continues_run (hfirst : Team.start vars settings memory = .ok first)
    (events : List Event) : first.search.Continues (first.run solvers events).search := by
  induction events using List.reverseRecOn with
  | nil =>
    obtain ⟨-, search, hnew, rfl⟩ := start_ok hfirst
    exact .new hnew
  | append_singleton events event ih =>
    rw [run_append, run_cons, run_nil]
    rcases opensNone_or_takes solvers (first.run solvers events) event with hnone | ⟨n, r, htakes⟩
    · exact (hnone ih).1
    · rw [htakes.search]
      exact ih.perform (.apply r)

/-- What is opened follows from what was processed. -/
theorem follows_of_opens (hfirst : Team.start vars settings memory = .ok first)
    (hs : ∀ i, (solvers i).Tighten Node.Shrunk) (h : Opens solvers first n r m stage) :
    r.node.Advanced n ∧ Node.Follows first.search.brancher.vars 0 r.node m stage := by
  cases h with
  | @taken events event s hreads happly hopen hnew =>
    obtain ⟨hstage, hfollows⟩ := (Search.follows_of_apply 0 (continues_run hfirst events) happly
      hopen).resolve_left hnew
    obtain ⟨i, u, seat, a, -, hnews, hseat, hout, rfl⟩ := hreads
    obtain ⟨_, _, _, hprocess⟩ :=
      ((faithful_start hfirst).run events).processed hnews hseat hout
    exact ⟨Search.advanced_of_returns (hs i) hprocess hstage, hfollows⟩

/-- Every node in the tree or out has a line of ancestors, of whom there are no more than were
processed. -/
theorem exists_line (hfirst : Team.start vars settings memory = .ok first)
    (hs : ∀ i, (solvers i).Tighten Node.Shrunk) (events : List Event)
    (hm : (first.run solvers events).Living m) :
    ∃ ancestors, Line solvers first ancestors m
      ∧ ancestors.length ≤ (first.run solvers events).search.stats.processed := by
  induction events using List.reverseRecOn generalizing m with
  | nil =>
    have hidle := each_start hfirst
    obtain ⟨-, search, hnew, rfl⟩ := start_ok hfirst
    rcases hm with hopen | hout
    · rw [Search.eq_root_of_new hnew hopen]
      exact ⟨[], .root, Nat.zero_le _⟩
    · rw [outNodes_eq_nil.mpr fun i seat hseat => by rw [hidle i seat hseat]] at hout
      exact absurd hout List.not_mem_nil
  | append_singleton events event ih =>
    rw [run_append, run_cons, run_nil] at hm ⊢
    rcases living_or_opened (continues_run hfirst events) hm
      with hbefore | ⟨n, r, stage, s, htakes, happly, hopen, hnew⟩
    · obtain ⟨ancestors, hline, hlength⟩ := ih hbefore
      exact ⟨ancestors, hline, hlength.trans (later_step solvers _ event).1⟩
    · -- the parent was out, so it has a line, and it was processed just now
      obtain ⟨ancestors, hline, hlength⟩ := ih (.inr htakes.mem_outNodes)
      have hopens : Opens solvers first n r m stage := .taken htakes.reads happly hopen hnew
      obtain ⟨-, hfollows⟩ := follows_of_opens hfirst hs hopens
      obtain ⟨longer, hlonger, hmore⟩ := hline.exists_longer hopens hfollows
      refine ⟨longer, hlonger, hmore.trans ?_⟩
      rw [htakes.search, Search.processed_apply_eq]
      exact Nat.succ_le_succ hlength

end Team

/-! ## Sane nodes -/

section Exact

variable {σ K : Type} [Field K] [LinearOrder K] [FloorRing K] [IsStrictOrderedRing K]
  {vars : List (Variable (Extended K))} {settings : Settings (Extended K)}

/-- The nodes of a team are sane. -/
theorem Team.sane_line {solvers : Nat → Solvers σ (Extended K)} {first : Team σ (Extended K)}
    {memory : σ} {ancestors : List (Node (Extended K))} {m : Node (Extended K)}
    (hfirst : Team.start vars settings memory = .ok first)
    (hs : ∀ i, (solvers i).Tighten Node.Shrunk) (h : Line solvers first ancestors m) :
    m.Sane first.search.brancher.vars 0 ancestors := by
  refine h.sane ?_ fun _ _ _ _ hopens => follows_of_opens hfirst hs hopens
  obtain ⟨-, search, hnew, rfl⟩ := start_ok hfirst
  exact Search.standard_new hnew

/-- With exact arithmetic and solvers that only move bounds inwards, all nodes are sane. In every
round of a serial search, with strong branching down to any depth, the nodes in the tree and those
that are handed out have a line of ancestors; and so do, in every state of a team, whatever the
order of its events, the nodes in the tree and those that are out. Along such a line a node is not
empty, lies inside the domain and within the box of its parent, and its score is at least that of
each ancestor; without strong branching its discrete bounds are whole. Its depth is the number of
its ancestors, as a machine word; there are no more of them than nodes were processed, the one of
the round included. -/
theorem Search.sane_nodes {solvers : Solvers σ (Extended K)} {crew : Nat → Solvers σ (Extended K)}
    {start : Search (Extended K)} (hs : solvers.Tighten Node.Shrunk)
    (hcrew : ∀ i, (crew i).Tighten Node.Shrunk) (hstart : Search.new vars settings = .ok start) :
    (∀ (memory : σ) (run : Run σ (Extended K)), Serial.Rounds solvers ⟨start, memory⟩ run →
      ∀ m, Serial.Living solvers run m →
        (∃ ancestors, Serial.Line solvers ⟨start, memory⟩ ancestors m
          ∧ ancestors.length ≤ run.search.stats.processed + 1)
        ∧ ∀ ancestors, Serial.Line solvers ⟨start, memory⟩ ancestors m →
          m.Sane start.brancher.vars settings.strongDepth ancestors)
      ∧ ∀ (memory : σ) (team : Team σ (Extended K)), Team.start vars settings memory = .ok team →
        ∀ events m, (team.run crew events).Living m →
          (∃ ancestors, Team.Line crew team ancestors m
            ∧ ancestors.length ≤ (team.run crew events).search.stats.processed)
          ∧ ∀ ancestors, Team.Line crew team ancestors m →
            m.Sane start.brancher.vars 0 ancestors := by
  refine ⟨fun memory run hrounds m hm => ?_, fun memory team hteam events m hm => ?_⟩
  · exact ⟨Serial.exists_line hstart hs hrounds hm,
      fun ancestors hline => Serial.sane_line hstart hs hline⟩
  · refine ⟨Team.exists_line hteam hcrew events hm, fun ancestors hline => ?_⟩
    have hsane := Team.sane_line hteam hcrew hline
    obtain ⟨-, search, hnew, rfl⟩ := Team.start_ok hteam
    cases hstart.symm.trans hnew
    exact hsane

end Exact

/-! ## A sample search -/

section Sample

open Serial (risingSolvers afterRounds)

/-- Settings under which two workers may process six nodes. In one place the root is branched
strongly. -/
def sixSettings : Settings (Extended ℚ) :=
  { Settings.standard with workers := 2, maxNodes := 6, strongDepth := 1 }

/-- One worker answers six times while the other one does not even read its order. The limit is
reached, and the node that is still out is put back. -/
def putBackEvents : List Event :=
  (List.replicate 6 [.decide, .work 0, .receive 0]).flatten ++ [.decide, .deadline]

/-- In one place there is a node of depth two after two rounds. -/
theorem exists_sixRun :
    ∃ start ∈ (Search.new Async.mixedVars sixSettings).toOption,
      let run := afterRounds risingSolvers ⟨start, ()⟩
      (∀ i < 2, ((Serial.round risingSolvers).exec (run i)).1.toOption = some none)
        ∧ (run 2).search.stats.processed = 6
        ∧ ∃ m ∈ (run 2).search.brancher.frontier.toList, m.node.depth = 2 := by
  decide +kernel

/-- The events put back a child of the root, and they leave a node of depth four in the tree, of
which the upper bound of the continuous variable is no whole number. -/
theorem exists_putBackEvents :
    ∃ team ∈ (Team.start Async.mixedVars sixSettings ()).toOption,
      let t := team.run (fun _ => risingSolvers) putBackEvents
      t.search.stats.processed = 6 ∧ t.outNodes.length = 0
        ∧ (∃ n ∈ t.search.brancher.frontier.toList, n.node.id = 2 ∧ n.node.depth = 1)
        ∧ ∃ n ∈ t.search.brancher.frontier.toList,
          n.node.depth = 4 ∧ n.node.box.upperAt 1 = .point (1 / 4) := by
  decide +kernel

/-- In one place, the node of depth two has two ancestors. In a team, the node that was put back has
one, and the node of depth four has four. All three nodes are sane. -/
theorem Search.sane_nodes_putBackEvents :
    ∃ start run team m ancestors,
      Search.new Async.mixedVars sixSettings = .ok start
      ∧ Serial.Rounds risingSolvers ⟨start, ()⟩ run ∧ Serial.Living risingSolvers run m
      ∧ Serial.Line risingSolvers ⟨start, ()⟩ ancestors m ∧ ancestors.length = 2
      ∧ m.Sane start.brancher.vars 1 ancestors
      ∧ Team.start Async.mixedVars sixSettings () = .ok team
      ∧ (∃ n parents, (team.run (fun _ => risingSolvers) putBackEvents).Living n ∧ n.id = 2
        ∧ Team.Line (fun _ => risingSolvers) team parents n ∧ parents.length = 1
        ∧ n.Sane start.brancher.vars 0 parents)
      ∧ ∃ n parents, (team.run (fun _ => risingSolvers) putBackEvents).Living n
        ∧ n.box.upperAt 1 = .point (1 / 4)
        ∧ Team.Line (fun _ => risingSolvers) team parents n ∧ parents.length = 4
        ∧ n.Sane start.brancher.vars 0 parents := by
  obtain ⟨start, hstart, hgoes, hprocessed, m, hm, hdepth⟩ := exists_eq_ok exists_sixRun
  obtain ⟨team, hteam, hcount, -, ⟨back, hback, hid, hone⟩, deep, hdeep, hfour, hupper⟩ :=
    exists_eq_ok exists_putBackEvents
  have hs : risingSolvers.Tighten Node.Shrunk :=
    shrunk_barren fun n => ⟨rfl, rfl, rfl, .refl n.box⟩
  obtain ⟨hserial, hteams⟩ := Search.sane_nodes hs (fun _ : Nat => hs) hstart
  have hrounds : Serial.Rounds risingSolvers ⟨start, ()⟩
      (afterRounds risingSolvers ⟨start, ()⟩ 2) :=
    Serial.rounds_afterRounds (Nat.zero_le 2) hgoes
  have hqueued : Serial.Living risingSolvers (afterRounds risingSolvers ⟨start, ()⟩ 2) m.node :=
    .queued (Frontier.mem_nodes.mpr ⟨m, hm, rfl⟩)
  obtain ⟨⟨ancestors, hline, hlength⟩, hsane⟩ := hserial () _ hrounds m.node hqueued
  rw [hprocessed] at hlength
  -- so few ancestors are counted by the depth
  have hancestors := (hsane ancestors hline).length_eq_depth (hlength.trans_lt (by decide))
  have hliving : ∀ n ∈ (team.run (fun _ => risingSolvers)
      putBackEvents).search.brancher.frontier.toList, ∃ parents,
        (team.run (fun _ => risingSolvers) putBackEvents).Living n.node
        ∧ Team.Line (fun _ => risingSolvers) team parents n.node ∧ parents.length = n.node.depth
        ∧ n.node.Sane start.brancher.vars 0 parents := by
    intro n hn
    have hopen : (team.run (fun _ => risingSolvers) putBackEvents).Living n.node :=
      .inl (Frontier.mem_nodes.mpr ⟨n, hn, rfl⟩)
    obtain ⟨⟨parents, hlineTeam, hlengthTeam⟩, hsaneTeam⟩ :=
      hteams () team hteam putBackEvents n.node hopen
    rw [hcount] at hlengthTeam
    have hsaneTeam := hsaneTeam parents hlineTeam
    exact ⟨parents, hopen, hlineTeam, hsaneTeam.length_eq_depth (hlengthTeam.trans_lt (by decide)),
      hsaneTeam⟩
  obtain ⟨parents, hopen, hlineBack, hcountBack, hsaneBack⟩ := hliving back hback
  obtain ⟨forebears, hopenDeep, hlineDeep, hcountDeep, hsaneDeep⟩ := hliving deep hdeep
  exact ⟨start, _, team, m.node, ancestors, hstart, hrounds, hqueued, hline,
    hancestors.trans hdepth, hsane ancestors hline, hteam,
    ⟨back.node, parents, hopen, hid, hlineBack, hcountBack.trans hone, hsaneBack⟩,
    deep.node, forebears, hopenDeep, hupper, hlineDeep, hcountDeep.trans hfour, hsaneDeep⟩

end Sample

end BranchBound
