import DcopSearch.Config.Basic
import DcopSearch.Network.Team
import DcopSearch.Run.Statistics

/-! What ends a run before its agents have finished: an error, or one of the limits on messages and
time. -/

namespace DcopSearch

inductive RunError where
  | problem (error : ProblemError)
  /-- A variable of the tree is not in the problem. -/
  | tree (error : AgentError)
  | delivery (error : DeliveryError)
  | stalled
deriving DecidableEq, Repr

def DeliveryError.message : DeliveryError → String
  | unknownAgent name => "Protocol violation: message for unknown agent " ++ name
  | agent name error => "Agent " ++ name ++ " failed: " ++ error.message
  | collector error => error.message

def RunError.message : RunError → String
  | problem error => error.message
  | tree error => error.message
  | delivery error => error.message
  | stalled =>
    "Protocol violation: no message left to deliver but some agents have not finished"

/-- The number of messages that a run may deliver.  A run without a limit counts its messages in a
word of 64 bits. -/
def Config.messageLimit {K : Type} (config : Config K) : Nat := config.maxMessages.getD UInt64.size

/-- Whether the time is up, where `clock` tells the milliseconds that have passed when so many messages
were delivered. -/
def Config.isOutOfTime {K : Type} (config : Config K) (clock : Nat → Nat) (messages : Nat) : Bool :=
  config.timeout.any (· ≤ clock messages)

end DcopSearch
