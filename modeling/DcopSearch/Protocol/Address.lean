import DcopSearch.Protocol.Error

/-! Messages to variables go to the agents that own them. -/

namespace DcopSearch.Problem

variable {K : Type}

def toOwner (problem : Problem K) (name : String) (message : Message K) :
    Except AgentError (Outgoing K) :=
  match problem.owner? name with
  | none => .error (.unknownVariable name)
  | some owner => .ok { destination := .agent owner, message }

/-- One message per variable, each to the owner; the first variable without one is the error. -/
def toOwners (problem : Problem K) (message : String → Message K) :
    List String → Except AgentError (List (Outgoing K))
  | [] => .ok []
  | name :: rest =>
    match problem.toOwner name (message name) with
    | .error error => .error error
    | .ok outgoing => (problem.toOwners message rest).map (outgoing :: ·)

end DcopSearch.Problem
