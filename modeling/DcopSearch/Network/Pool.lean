import DcopSearch.Network.Team

/-! A team with the messages that are under way.  Any of them may be the next one to be delivered; a
schedule says which. -/

namespace DcopSearch

/-- A team and its undelivered messages. -/
structure Network (K G : Type) where
  team : Team K G
  pool : List (Outgoing K)

/-- A delivery and what came of it: the messages sent, or the error. -/
structure Delivery (K : Type) where
  outgoing : Outgoing K
  outcome : Except DeliveryError (List (Outgoing K))

namespace Network

variable {K G : Type} [CostArithmetic K] [Generator G]

/-- The network in which the views are under way.  The agents have started; with `late` their start
messages are under way before the views. -/
def new (problem : Problem K) (config : Config K) (seed : UInt64) (views : List (Outgoing K))
    (late : Bool) : Network K G :=
  let team : Team K G := .new problem config seed
  let starts := Team.startMessages problem
  if late then { team, pool := starts ++ views }
  else
    { team := starts.foldl (fun team start => (team.deliver start).1) team, pool := views }

/-- Delivers the message at a position of the pool; what is sent in answer comes to its end.  A
message whose delivery fails is lost. -/
def deliverAt (network : Network K G) (position : Nat) : Option (Delivery K × Network K G) :=
  network.pool[position]?.map fun outgoing =>
    let (team, outcome) := network.team.deliver outgoing
    let sent := match outcome with
      | .ok messages => messages
      | .error _ => []
    ({ outgoing, outcome }, { team, pool := network.pool.eraseIdx position ++ sent })

/-- The position that a schedule asks for at step `k`, in a pool of the given size.  A schedule is
repeated as often as needed, and an empty one always asks for the first message. -/
def position (schedule : List Nat) (k size : Nat) : Nat :=
  schedule[k % schedule.length]?.getD 0 % size

def follow (network : Network K G) (schedule : List Nat) :
    Nat → Nat → List (Delivery K) × Network K G
  | _, 0 => ([], network)
  | k, steps + 1 =>
    match network.deliverAt (position schedule k network.pool.length) with
    | none => ([], network)
    | some (delivery, next) =>
      let (deliveries, last) := next.follow schedule (k + 1) steps
      (delivery :: deliveries, last)

end Network

end DcopSearch
