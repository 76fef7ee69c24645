import DcopSearch.Random.Seed
import DcopSearch.Sampling.Reaction
import DcopSearch.Text.Quoted

/-! The sampling of an agent: its variables, which react one at a time and draw from one generator,
and the count of those that have still to terminate.  The last one to do so is followed by the news
that the agent has finished. -/

namespace DcopSearch

/-- The sampling of an agent.  `remaining` counts down the variables it owns. -/
structure Sampler (K G : Type) where
  settings : SamplingSettings K
  generator : G
  states : Std.ExtTreeMap String (SamplingState K)
  remaining : Nat

namespace Sampler

variable {K G : Type} [CostArithmetic K] [Generator G]

def new (agent : String) (problem : Problem K) (config : Config K) (seed : UInt64) :
    Sampler K G where
  settings := .ofConfig agent problem.objective config
  generator := Generator.ofSeed (Seed.ofAgent seed agent)
  states := ∅
  remaining := (problem.variablesOf agent).length

def register (sampler : Sampler K G) (problem : Problem K) (name : String) (view : View) :
    Except AgentError (Sampler K G) :=
  if sampler.states.contains name then
    .error (.registeredTwice sampler.settings.agent name)
  else
    match problem.domain? name with
    | none => .error (.unknownVariable name)
    | some domain =>
      .ok { sampler with
            states := sampler.states.insert name (.ofView sampler.settings name domain view) }

/-- Counts the variables that have terminated and, after the last one, adds the news to what was
sent. -/
def settle (sampler : Sampler K G) (emission : Emission K) :
    Sampler K G × List (Outgoing K) :=
  if emission.terminated then
    let remaining := sampler.remaining - 1
    let news : List (Outgoing K) :=
      if remaining = 0 then
        [{ destination := .orchestrator, message := .agentFinished sampler.settings.agent }]
      else []
    ({ sampler with remaining }, emission.messages ++ news)
  else (sampler, emission.messages)

def absorb (sampler : Sampler K G) (name : String) (reaction : Reaction K G) :
    Sampler K G × Except AgentError (List (Outgoing K)) :=
  -- what the reaction has changed stays even if it failed
  let sampler :=
    { sampler with
      generator := reaction.generator
      states := sampler.states.insert name reaction.state }
  match reaction.outcome with
  | .error error => (sampler, .error error)
  | .ok emission =>
    let (sampler, messages) := sampler.settle emission
    (sampler, .ok messages)

def react (sampler : Sampler K G) (name : String)
    (reaction : SamplingState K → Reaction K G) :
    Sampler K G × Except AgentError (List (Outgoing K)) :=
  match sampler.states[name]? with
  | none => (sampler, .error (.unknownVariable name))
  | some state => sampler.absorb name (reaction state)

def onNormalized (sampler : Sampler K G) (problem : Problem K) (normalized : Normalized K) :
    Sampler K G × Except AgentError (List (Outgoing K)) :=
  sampler.react normalized.name fun state =>
    state.onNormalized sampler.settings problem sampler.generator normalized

/-- Starts variables in turn and joins what they send; the first error ends it. -/
def onAllNormalized (sampler : Sampler K G) (problem : Problem K) :
    List (Normalized K) → Sampler K G × Except AgentError (List (Outgoing K))
  | [] => (sampler, .ok [])
  | normalized :: rest =>
    match sampler.onNormalized problem normalized with
    | (sampler, .error error) => (sampler, .error error)
    | (sampler, .ok messages) =>
      let (sampler, outcome) := sampler.onAllNormalized problem rest
      (sampler, outcome.map (messages ++ ·))

def handle (sampler : Sampler K G) (problem : Problem K) (message : Message K) :
    Sampler K G × Except AgentError (List (Outgoing K)) :=
  match message with
  | .context context =>
    sampler.react context.receiver fun state =>
      state.onContext sampler.settings problem sampler.generator context
  | .cost receiver cost =>
    sampler.react receiver fun state =>
      state.onCost sampler.settings problem sampler.generator cost
  | message => (sampler, .error (.unexpectedMessage sampler.settings.agent message.kind))

def isFinished (sampler : Sampler K G) : Bool := sampler.remaining == 0

def phase? (sampler : Sampler K G) (name : String) : Option Phase :=
  sampler.states[name]?.map SamplingState.phase

def nodeCount (sampler : Sampler K G) (name : String) : Nat :=
  sampler.states[name]?.elim 0 (·.nodes.length)

def contextCount (sampler : Sampler K G) : Nat :=
  (sampler.states.values.map (·.nodes.length)).foldl (· + ·) 0

def currentValue? (sampler : Sampler K G) (name : String) : Option Value :=
  sampler.states[name]?.bind fun state => state.current.bind (state.domain[·]?)

def scalingFactor? (sampler : Sampler K G) (name : String) : Option K :=
  sampler.states[name]?.map SamplingState.scalingFactor

def describe (sampler : Sampler K G) : String :=
  "Sampler \x7b agent: " ++ Text.quote sampler.settings.agent
    ++ ", variables: " ++ toString sampler.states.size
    ++ ", remaining: " ++ toString sampler.remaining ++ " \x7d"

end Sampler

end DcopSearch
