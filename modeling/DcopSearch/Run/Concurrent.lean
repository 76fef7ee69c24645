import DcopSearch.Run.Limits

/-! Runs of agents side by side.  Where every agent owns one variable, the result of such a run does
not depend on how the agents interleave, so one interleaving stands for all: the messages to agents
are delivered in the order in which they were sent, and results are collected at once. -/

namespace DcopSearch

/-- The state of a run; `handled` counts the messages that agents have handled. -/
structure Concurrency (K G : Type) where
  team : Team K G
  pool : List (Outgoing K)
  handled : Nat
  statistics : Statistics

namespace Concurrency

variable {K G : Type} [CostArithmetic K] [Generator G]

def new (team : Team K G) (messages : List (Outgoing K)) : Concurrency K G :=
  { team, pool := messages, handled := 0, statistics := .empty }

/-- Sends a message: to an agent it goes under way, and a result is collected. -/
def send (run : Concurrency K G) (outgoing : Outgoing K) : Except RunError (Concurrency K G) :=
  match outgoing.destination with
  | .agent _ => .ok { run with pool := run.pool ++ [outgoing] }
  | .collector | .orchestrator =>
    let statistics := run.statistics.record outgoing.message.kind
    let (team, outcome) := run.team.deliver outgoing
    match outcome with
    | .error error => .error (.delivery error)
    | .ok _ => .ok { run with team, statistics }

def deliver (run : Concurrency K G) (outgoing : Outgoing K) :
    Except RunError (Concurrency K G) :=
  let statistics := run.statistics.record outgoing.message.kind
  let (team, outcome) := run.team.deliver outgoing
  match outcome with
  | .error error => .error (.delivery error)
  | .ok messages =>
    messages.foldlM send { run with team, statistics, handled := run.handled + 1 }

def stop (run : Concurrency K G) : Concurrency K G :=
  { run with statistics := { run.statistics with timedOut := true } }

/-- Runs until every agent has finished, or until a limit stops it.  The limit on messages counts
those that agents handle. -/
def run (config : Config K) (clock : Nat → Nat) (state : Concurrency K G) (limit : Nat) :
    Except RunError (Concurrency K G) :=
  if state.team.allFinished then .ok state
  else
    match state.pool with
    -- the agents wait until the time is up, if ever
    | [] => if config.timeout.isSome then .ok state.stop else .error .stalled
    | outgoing :: pool =>
      match limit with
      | 0 => .ok state.stop
      | limit + 1 =>
        if config.isOutOfTime clock state.handled then .ok state.stop
        else
          match { state with pool }.deliver outgoing with
          | .error error => .error error
          | .ok next => next.run config clock limit

end Concurrency

end DcopSearch
