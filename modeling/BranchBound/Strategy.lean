import BranchBound.Text.Blank

/-! # Strategies and their names

Three choices shape a search: which open node comes next, which dimension of it is split, and which
score an open node is given. Each choice has a written name and some aliases; names are read
without regard to surrounding white space and to the case of ASCII letters. -/

namespace BranchBound

/-- Which strategy name was not understood. -/
inductive NameFault
  /-- The name of a node selection. -/
  | nodeSelection (name : String)
  /-- The name of a branching rule. -/
  | branchingRule (name : String)
  /-- The name of a scoring. -/
  | scoring (name : String)
  /-- Described in words. -/
  | described (text : String)
  deriving DecidableEq, Repr

/-- The wording of a fault of a strategy name. -/
def NameFault.message : NameFault → String
  | nodeSelection name => s!"node selection '{name}'"
  | branchingRule name => s!"branching strategy '{name}'"
  | scoring name => s!"node score function '{name}'"
  | described text => text

/-- The value whose list of accepted names holds `name`. -/
def lookupName {β : Type} (table : List (β × List String)) (name : String) : Option β :=
  (table.find? fun (_, names) => names.contains (Text.foldName name)).map (·.1)

/-- Which open node is processed next. -/
inductive NodeSelection
  /-- The node with the highest selection score. -/
  | bestBound
  /-- The most recently created node. -/
  | depthFirst
  /-- The oldest node. -/
  | breadthFirst
  deriving DecidableEq, Repr, Inhabited

namespace NodeSelection

/-- The written name of a selection. -/
def name : NodeSelection → String
  | bestBound => "best_bound"
  | depthFirst => "depth_first"
  | breadthFirst => "breadth_first"

/-- Every selection with the names it is accepted under. -/
def names : List (NodeSelection × List String) :=
  [(bestBound, ["best_bound", "bestbound", "best"]),
    (depthFirst, ["depth_first", "depthfirst", "dfs"]),
    (breadthFirst, ["breadth_first", "breadthfirst", "bfs"])]

/-- The selection that a name stands for. -/
def ofName? (name : String) : Option NodeSelection := lookupName names name

/-- Reads the name of a selection; a name that is not accepted is reported in its folded form. -/
def read (name : String) : Except NameFault NodeSelection :=
  match ofName? name with
  | some selection => .ok selection
  | none => .error (.nodeSelection (Text.foldName name))

end NodeSelection

/-- Which dimension of a node is split. -/
inductive BranchingRule
  /-- The one with the greatest weighted width. -/
  | absoluteDiameter
  /-- The one with the greatest weighted width relative to the whole domain. -/
  | relativeDiameter
  /-- The one with the best learned improvement on both sides. -/
  | pseudocost
  deriving DecidableEq, Repr, Inhabited

namespace BranchingRule

/-- The written name of a rule. -/
def name : BranchingRule → String
  | absoluteDiameter => "absolute_diameter"
  | relativeDiameter => "relative_diameter"
  | pseudocost => "pseudocost"

/-- Every rule with the names it is accepted under. -/
def names : List (BranchingRule × List String) :=
  [(absoluteDiameter, ["absolute_diameter", "absdiam", "abs"]),
    (relativeDiameter, ["relative_diameter", "reldiam", "rel"]),
    (pseudocost, ["pseudocost", "pseudo_cost", "pseudocosts"])]

/-- The rule that a name stands for. -/
def ofName? (name : String) : Option BranchingRule := lookupName names name

/-- Reads the name of a rule; a name that is not accepted is reported in its folded form. -/
def read (name : String) : Except NameFault BranchingRule :=
  match ofName? name with
  | some rule => .ok rule
  | none => .error (.branchingRule (Text.foldName name))

end BranchingRule

/-- Which selection score a node is given when it becomes open. -/
inductive Scoring
  /-- The lower the bound, the higher the score. -/
  | lowBoundFirst
  /-- The older the node, the higher the score. -/
  | lowIdFirst
  /-- The younger the node, the higher the score. -/
  | highIdFirst
  deriving DecidableEq, Repr, Inhabited

namespace Scoring

/-- The written name of a scoring. -/
def name : Scoring → String
  | lowBoundFirst => "low_pruning_score_first"
  | lowIdFirst => "low_id_first"
  | highIdFirst => "high_id_first"

/-- Every scoring with the names it is accepted under. -/
def names : List (Scoring × List String) :=
  [(lowBoundFirst, ["low_pruning_score_first", "pruning_score"]),
    (lowIdFirst, ["low_id_first", "low_id"]),
    (highIdFirst, ["high_id_first", "high_id"])]

/-- The scoring that a name stands for. -/
def ofName? (name : String) : Option Scoring := lookupName names name

/-- Reads the name of a scoring; a name that is not accepted is reported in its folded form. -/
def read (name : String) : Except NameFault Scoring :=
  match ofName? name with
  | some scoring => .ok scoring
  | none => .error (.scoring (Text.foldName name))

end Scoring

end BranchBound
