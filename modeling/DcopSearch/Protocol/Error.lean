import DcopSearch.Protocol.Message

/-! What can go wrong while an agent handles a message, and the phases of a variable, which some of
the causes mention. -/

namespace DcopSearch

/-- The life of a variable while it samples.  Before normalization one context is kept for later. -/
inductive Phase where
  | awaitingNormalization (buffered : Option Context)
  | awaitingParentValue
  | sampling
  | converged
deriving DecidableEq, Repr

def Phase.name : Phase → String
  | awaitingNormalization _ => "AwaitingNormalization"
  | awaitingParentValue => "AwaitingParentValue"
  | sampling => "Sampling"
  | converged => "Converged"

inductive AgentError where
  | unknownVariable (name : String)
  | unexpectedMessage (receiver kind : String)
  | beforeStart (agent kind : String)
  | notOwned (agent name : String)
  | secondView (agent name : String)
  | divisorBeforeView (agent name : String)
  | normalizedTwice (agent name : String)
  | registeredTwice (agent name : String)
  | normalizedWhile (name : String) (phase : Phase)
  | secondContext (name : String)
  | contextAfterConverging (name : String)
  | foreignContext (name sender : String)
  | missingValue (name ancestor : String)
  | noEntry (name space : String)
  | noActiveContext (name : String)
  | costOfRoot (name : String)
  | costWhile (name : String) (phase : Phase)
  | costBeforeSampling (name : String)
deriving DecidableEq, Repr

namespace AgentError

/-- What a breach of the protocol consists in, for the causes that are one. -/
def violation? : AgentError → Option String
  | unknownVariable _ | unexpectedMessage _ _ => none
  | beforeStart agent kind => some (agent ++ " received " ++ kind ++ " before START")
  | notOwned agent name =>
    some (agent ++ " received a message for " ++ name ++ " which it does not own")
  | secondView agent name => some (agent ++ " received a second DFS_OUTPUT for " ++ name)
  | divisorBeforeView agent name =>
    some (agent ++ ": NORM for " ++ name ++ " before its DFS_OUTPUT")
  | normalizedTwice agent name => some (agent ++ ": " ++ name ++ " normalized twice")
  | registeredTwice agent name => some (agent ++ " registered " ++ name ++ " twice")
  | normalizedWhile name phase => some (name ++ " normalized while " ++ phase.name)
  | secondContext name => some (name ++ " received a second context before normalization")
  | contextAfterConverging name => some (name ++ " received a context after converging")
  | foreignContext name sender =>
    some (name ++ " received a context from " ++ sender ++ " which is not its parent")
  | missingValue name ancestor =>
    some (name ++ " has no value for " ++ ancestor ++ " in its context")
  | noEntry name space =>
    some (name ++ " cannot evaluate space " ++ space ++ " under its context")
  | noActiveContext name => some (name ++ " has no active context")
  | costOfRoot name => some ("root " ++ name ++ " cannot report a cost")
  | costWhile name phase => some (name ++ " received a COST while " ++ phase.name)
  | costBeforeSampling name => some (name ++ " received a COST before sampling")

def message (error : AgentError) : String :=
  match error with
  | unknownVariable name => "Unknown variable: " ++ name
  | unexpectedMessage receiver kind =>
    "Agent " ++ receiver ++ " received an unexpected " ++ kind ++ " message"
  | error => "Protocol violation: " ++ error.violation?.getD ""

end AgentError

end DcopSearch
