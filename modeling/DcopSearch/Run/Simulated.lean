import DcopSearch.Run.Limits
import DcopSearch.Run.Timeline

/-! Runs along simulated clocks.  Every agent has a clock, which a message moves on beyond both its
own time and that of the message; messages are delivered in the order of the times at which they were
sent, so that a seed determines the run. -/

namespace DcopSearch

structure Simulation (K G : Type) where
  team : Team K G
  clocks : Std.ExtTreeMap String Nat
  queue : Timeline K
  statistics : Statistics

namespace Simulation

variable {K G : Type} [CostArithmetic K] [Generator G]

def new (team : Team K G) (messages : List (Outgoing K)) : Simulation K G :=
  { team, clocks := ∅, queue := Timeline.pushAll 0 messages [], statistics := .empty }

def clock (simulation : Simulation K G) (name : String) : Nat := simulation.clocks[name]?.getD 0

def tick (simulation : Simulation K G) (event : Event K) : Std.ExtTreeMap String Nat :=
  match event.outgoing.destination with
  | .agent name => simulation.clocks.insert name (max (simulation.clock name) event.time + 1)
  | .collector | .orchestrator => simulation.clocks

/-- The time at which the receiver sends its answers, once its clock has moved on. -/
def sendTime (simulation : Simulation K G) (event : Event K) : Nat :=
  match event.outgoing.destination with
  | .agent name => simulation.clock name
  | .collector | .orchestrator => event.time

/-- The state after an event, of which the queue is left and which the receiver has answered. -/
def after (simulation : Simulation K G) (event : Event K) (queue : Timeline K) (team : Team K G)
    (sent : List (Outgoing K)) : Simulation K G :=
  let ticked := { simulation with
    clocks := simulation.tick event
    statistics := simulation.statistics.record event.outgoing.message.kind }
  { ticked with team, queue := Timeline.pushAll (ticked.sendTime event) sent queue }

def deliver (simulation : Simulation K G) (event : Event K) :
    Except RunError (Simulation K G) :=
  let (team, outcome) := simulation.team.deliver event.outgoing
  match outcome with
  | .error error => .error (.delivery error)
  | .ok sent => .ok (simulation.after event simulation.queue team sent)

/-- Whether a result has just told that every agent has finished. -/
def isOver (simulation : Simulation K G) (event : Event K) : Bool :=
  match event.outgoing.destination with
  | .agent _ => false
  | .collector | .orchestrator => simulation.team.allFinished

def stop (simulation : Simulation K G) : Simulation K G :=
  { simulation with statistics := { simulation.statistics with timedOut := true } }

/-- Runs until every agent has finished, or until a limit stops it.  At most `limit` further messages
are delivered; the time is looked at before every 256th. -/
def run (outOfTime : Nat → Bool) (simulation : Simulation K G) (limit : Nat) :
    Except RunError (Simulation K G) :=
  match simulation.queue with
  | [] => if simulation.team.allFinished then .ok simulation else .error .stalled
  | event :: queue =>
    match limit with
    | 0 => .ok simulation.stop
    | limit + 1 =>
      let delivered := simulation.statistics.messages
      if delivered % 256 = 0 && outOfTime delivered then .ok simulation.stop
      else
        match { simulation with queue }.deliver event with
        | .error error => .error error
        -- what is left in the queue then is not delivered any more
        | .ok next => if next.isOver event then .ok next else next.run outOfTime limit

end Simulation

end DcopSearch
