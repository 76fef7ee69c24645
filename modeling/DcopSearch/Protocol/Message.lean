import DcopSearch.Tree.View

/-! The messages of the search and where they go.  Agents wake up and learn the views of their
variables; ranges of costs travel up the tree and a divisor down; then contexts travel down and
sampled costs up, until final contexts end the sampling and the results are reported. -/

namespace DcopSearch

/-- What a child's subtree adds to the range of its component: sums of the least and of the largest
costs of its spaces, their number, the size measure of the subtree, and the ancestors that share a
space with it. -/
structure RangeReport (K : Type) where
  receiver : String
  lower : K
  upper : K
  spaceCount : Nat
  size : Nat
  separator : NameSet

/-- Values of the sender and its ancestors, for a child to sample under.  A final context comes from
a sender that has terminated. -/
structure Context where
  sender : String
  receiver : String
  entries : List (String × Value)
  final : Bool
deriving DecidableEq, Repr

inductive Message (K : Type) where
  | start
  | view (name : String) (view : View)
  | range (report : RangeReport K)
  | divisor (receiver : String) (divisor : K)
  | context (context : Context)
  /-- The sampled cost of a child's subtree, `none` if nothing feasible was found there. -/
  | cost (receiver : String) (cost : Option K)
  /-- The radius of a root's final value, in the units of the problem. -/
  | finalBound (bound : K)
  | assignment (name : String) (value : Value)
  /-- All variables of the agent have terminated. -/
  | agentFinished (agent : String)

def Message.kind {K : Type} : Message K → String
  | start => "START"
  | view _ _ => "DFS_OUTPUT"
  | range _ => "BOUND"
  | divisor _ _ => "NORM"
  | context c => if c.final then "VALUE_FINAL" else "VALUE"
  | cost _ _ => "COST"
  | finalBound _ => "BOUND_STATS"
  | assignment _ _ => "ASSIGNMENT"
  | agentFinished _ => "AGENT_FINISHED"

inductive Destination where
  | agent (name : String)
  | collector
  | orchestrator
deriving DecidableEq, Repr

structure Outgoing (K : Type) where
  destination : Destination
  message : Message K

end DcopSearch
