import DcopSearch.Normalization.Normalizer
import DcopSearch.Sampling.Sampler

/-! Agents.  An agent normalizes and samples the variables it owns, one message at a time; it returns
the messages to send and leaves their delivery to others. -/

namespace DcopSearch

/-- An agent; it listens to nothing but the start before it has started. -/
structure Agent (K G : Type) where
  name : String
  started : Bool
  normalizer : Normalizer K
  sampler : Sampler K G

namespace Agent

variable {K G : Type} [CostArithmetic K] [Generator G]

def new (name : String) (problem : Problem K) (config : Config K) (seed : UInt64) : Agent K G where
  name := name
  started := false
  normalizer :=
    .new name (if config.ignoreInfeasible then none else some (config.penaltyFor problem.objective))
  sampler := .new name problem config seed

def isFinished (agent : Agent K G) : Bool := agent.sampler.isFinished

/-- Takes over a step of normalization: its messages are sent first, then the variables that it
completed start to sample. -/
def takeStep (agent : Agent K G) (problem : Problem K)
    (outcome : Normalizer K × Except AgentError (NormalizationStep K)) :
    Agent K G × Except AgentError (List (Outgoing K)) :=
  let agent := { agent with normalizer := outcome.1 }
  match outcome.2 with
  | .error error => (agent, .error error)
  | .ok step =>
    let (sampler, messages) := agent.sampler.onAllNormalized problem step.completed
    ({ agent with sampler }, messages.map (step.messages ++ ·))

def onView (agent : Agent K G) (problem : Problem K) (name : String) (view : View) :
    Agent K G × Except AgentError (List (Outgoing K)) :=
  match agent.sampler.register problem name view with
  | .error error => (agent, .error error)
  | .ok sampler =>
    -- the variable stays registered even if the normalizer refuses its view
    let agent := { agent with sampler }
    agent.takeStep problem (agent.normalizer.handle problem (.view name view))

def receive (agent : Agent K G) (problem : Problem K) (message : Message K) :
    Agent K G × Except AgentError (List (Outgoing K)) :=
  match message with
  | .view name view => agent.onView problem name view
  | .range _ | .divisor _ _ =>
    agent.takeStep problem (agent.normalizer.handle problem message)
  | .context _ | .cost _ _ =>
    let (sampler, messages) := agent.sampler.handle problem message
    ({ agent with sampler }, messages)
  | message => (agent, .error (.unexpectedMessage agent.name message.kind))

def handle (agent : Agent K G) (problem : Problem K) (message : Message K) :
    Agent K G × Except AgentError (List (Outgoing K)) :=
  match message with
  | .start => ({ agent with started := true }, .ok [])
  | message =>
    if agent.started then agent.receive problem message
    else (agent, .error (.beforeStart agent.name message.kind))

end Agent

end DcopSearch
