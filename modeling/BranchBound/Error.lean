import BranchBound.Node.Stage
import BranchBound.Scalar.Basic
import BranchBound.Strategy

/-! # Errors

An infeasible or unsolved node is no error. Errors are problems with the input, found before the
search starts, and breaches of the rules that end it. Each error is a cause; `Error.message` words
it. A solver supplied from outside may fail with an error of any kind and describe it in words of
its own, so each kind of cause has a case for that. -/

namespace BranchBound

/-- What is wrong with the domain of a discrete variable. -/
inductive DomainFault
  /-- A domain of the named type holds no whole number. -/
  | noIntegralValue (typeName : String)
  /-- Described in words. -/
  | described (text : String)
  deriving DecidableEq, Repr

/-- What is wrong with a problem, or with a node of it. -/
inductive ProblemFault (α : Type)
  /-- There are no variables. -/
  | noVariables
  /-- The bounds of a variable are not both finite. -/
  | unboundedDomain (name : String) (lower upper : α)
  /-- The lower bound of a variable is above its upper bound. -/
  | crossedBounds (name : String) (lower upper : α)
  /-- The branching priority of a variable is negative or not finite. -/
  | badPriority (name : String) (priority : α)
  /-- A node has other numbers of bounds than the problem has variables. -/
  | wrongDimension (id lowers uppers expected : Nat)
  /-- A node has no dimension to split. -/
  | nothingToSplit (id : Nat)
  /-- A node was split on a variable that the problem does not have. -/
  | unknownVariable (id index count : Nat)
  /-- A node was reported in a stage that asks for neither counting nor branching. -/
  | openStage (id : Nat) (stage : Stage)
  /-- Described in words. -/
  | described (text : String)

/-- What is wrong with settings. -/
inductive SettingsFault (α : Type)
  /-- A tolerance is negative or not finite. -/
  | badTolerance (field : String) (value : α)
  /-- The node size tolerance exceeds one. -/
  | sizeToleranceAboveOne (value : α)
  /-- Progress would be logged every zero nodes. -/
  | zeroLogFrequency
  /-- A target is undefined. -/
  | undefinedTarget (field : String)
  /-- There are no workers. -/
  | noWorkers
  /-- The text is no valid description of settings. -/
  | malformed
  /-- Described in words. -/
  | described (text : String)

/-- What a solver reported. -/
inductive SolverFault
  /-- The lower bound of a node is undefined. -/
  | undefinedBound (id : Nat)
  /-- Described in words. -/
  | described (text : String)
  deriving DecidableEq, Repr

/-- A breach of the rules between manager and workers. -/
inductive ProtocolFault
  /-- A worker reported a node other than the one it was given. -/
  | wrongReport (worker reported : Nat) (expected : Option Nat)
  /-- A message could not be read. -/
  | undecodable
  /-- Described in words. -/
  | described (text : String)
  deriving DecidableEq, Repr

/-- Which connection is gone. -/
inductive ChannelFault
  /-- A worker is gone. -/
  | workerGone (worker : Nat)
  /-- Described in words. -/
  | described (text : String)
  deriving DecidableEq, Repr

/-- The causes of failure. -/
inductive Error (α : Type)
  /-- A node was asked for when none is open. -/
  | emptyTree
  /-- A node was confirmed or cancelled that is not handed out. -/
  | unknownNode (id : Nat)
  /-- The type of a variable does not fit its bounds. -/
  | unsuitableType (name : String) (fault : DomainFault)
  /-- A strategy name was not understood. -/
  | unknownStrategy (fault : NameFault)
  /-- The problem is not valid. -/
  | invalidProblem (fault : ProblemFault α)
  /-- The settings are not valid. -/
  | invalidSettings (fault : SettingsFault α)
  /-- A solver failed. -/
  | solverFailed (fault : SolverFault)
  /-- A worker reported a failure. -/
  | workerFailed (worker : Nat) (text : String)
  /-- A message was malformed or came out of turn. -/
  | protocol (fault : ProtocolFault)
  /-- A connection was closed unexpectedly. -/
  | channelClosed (fault : ChannelFault)

/-- The wording of a fault of a domain. -/
def DomainFault.message : DomainFault → String
  | noIntegralValue typeName => s!"{typeName} domain contains no integral value"
  | described text => text

section

variable {α : Type} [Scalar α]

/-- The wording of a fault of a problem. -/
def ProblemFault.message : ProblemFault α → String
  | noVariables => "no variables"
  | unboundedDomain name lower upper =>
      s!"variable '{name}' has unbounded domain [{Scalar.text lower}, {Scalar.text upper}]"
  | crossedBounds name lower upper =>
      s!"variable '{name}' has lower bound {Scalar.text lower} " ++
        s!"above upper bound {Scalar.text upper}"
  | badPriority name priority =>
      s!"variable '{name}' has invalid branching priority {Scalar.text priority}"
  | wrongDimension id lowers uppers expected =>
      s!"node {id} has dimension {lowers}/{uppers} but problem has {expected} variables"
  | nothingToSplit id => s!"node {id} has no branchable dimension"
  | unknownVariable id index count =>
      s!"node {id} was branched on variable {index} of {count}"
  | openStage id stage => s!"node {id} reported in non-terminal state {stage.name}"
  | described text => text

/-- The wording of a fault of settings. -/
def SettingsFault.message : SettingsFault α → String
  | badTolerance field value =>
      s!"{field} must be finite and non-negative, got {Scalar.text value}"
  | sizeToleranceAboveOne value =>
      s!"rel_node_size_tol must be at most 1, got {Scalar.text value}"
  | zeroLogFrequency => "log_freq must be positive"
  | undefinedTarget field => s!"{field} is NaN"
  | noWorkers => "num_workers must be positive"
  | malformed => "malformed settings JSON"
  | described text => text

/-- The wording of a failure of a solver. -/
def SolverFault.message : SolverFault → String
  | undefinedBound id => s!"lower bound of node {id} is NaN"
  | described text => text

/-- The wording of a breach of the rules between manager and workers. -/
def ProtocolFault.message : ProtocolFault → String
  | wrongReport worker reported expected =>
      let processing := match expected with
        | some id => s!"Some({id})"
        | none => "None"
      s!"worker {worker} reported node {reported} but was processing {processing}"
  | undecodable => "decode failed"
  | described text => text

/-- The wording of a lost connection. -/
def ChannelFault.message : ChannelFault → String
  | workerGone worker => s!"worker {worker} disconnected"
  | described text => text

/-- The wording of an error. -/
def Error.message : Error α → String
  | emptyTree => "Cannot pop from an empty branch-and-bound tree"
  | unknownNode id => s!"Node {id} is not awaiting a response"
  | unsuitableType name fault => s!"Invalid variable type for '{name}': {fault.message}"
  | unknownStrategy fault => s!"Unknown strategy: {fault.message}"
  | invalidProblem fault => s!"Invalid problem: {fault.message}"
  | invalidSettings fault => s!"Invalid settings: {fault.message}"
  | solverFailed fault => s!"Collaborator failed: {fault.message}"
  | workerFailed worker text => s!"Worker {worker} failed: {text}"
  | protocol fault => s!"Protocol error: {fault.message}"
  | channelClosed fault => s!"Channel closed: {fault.message}"

end

end BranchBound
