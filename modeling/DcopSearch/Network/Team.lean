import DcopSearch.Network.Agent
import DcopSearch.Network.Collector
import DcopSearch.Tree.PseudoTree

/-! All agents of a problem with the collector of their results.  Delivering one message is the only
thing that happens to a team; in what order messages are delivered is not its concern. -/

namespace DcopSearch

structure Team (K G : Type) where
  problem : Problem K
  agents : Std.ExtTreeMap String (Agent K G)
  collector : Collector K

inductive DeliveryError where
  | unknownAgent (name : String)
  | agent (name : String) (error : AgentError)
  | collector (error : AgentError)
deriving DecidableEq, Repr

namespace Team

variable {K G : Type} [CostArithmetic K] [Generator G]

def new (problem : Problem K) (config : Config K) (seed : UInt64) : Team K G where
  problem := problem
  agents := .ofList (problem.agents.map fun name => (name, Agent.new name problem config seed))
  collector := .empty

def startMessages (problem : Problem K) : List (Outgoing K) :=
  problem.agents.map fun name => { destination := .agent name, message := .start }

def viewMessages (problem : Problem K) :
    List (String × View) → Except AgentError (List (Outgoing K))
  | [] => .ok []
  | entry :: rest =>
    match problem.toOwner entry.1 (.view entry.1 entry.2) with
    | .error error => .error error
    | .ok outgoing => (viewMessages problem rest).map (outgoing :: ·)

def deliverToAgent (team : Team K G) (name : String) (message : Message K) :
    Team K G × Except DeliveryError (List (Outgoing K)) :=
  match team.agents[name]? with
  | none => (team, .error (.unknownAgent name))
  | some agent =>
    let (agent, outcome) := agent.handle team.problem message
    ({ team with agents := team.agents.insert name agent },
      outcome.mapError (DeliveryError.agent name))

def deliverToCollector (team : Team K G) (message : Message K) :
    Team K G × Except DeliveryError (List (Outgoing K)) :=
  match team.collector.handle message with
  | .error error => (team, .error (.collector error))
  | .ok collector => ({ team with collector }, .ok [])

/-- Delivers a message; the one for the orchestrator is a result too. -/
def deliver (team : Team K G) (outgoing : Outgoing K) :
    Team K G × Except DeliveryError (List (Outgoing K)) :=
  match outgoing.destination with
  | .agent name => team.deliverToAgent name outgoing.message
  | .collector | .orchestrator => team.deliverToCollector outgoing.message

def allFinished (team : Team K G) : Bool := team.collector.allFinished team.agents.keys

def contextCount (team : Team K G) : Nat :=
  (team.agents.values.map (·.sampler.contextCount)).foldl (· + ·) 0

end Team

end DcopSearch
