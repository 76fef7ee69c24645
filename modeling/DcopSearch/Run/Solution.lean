import DcopSearch.Run.Concurrent
import DcopSearch.Run.Simulated

/-! From a problem to its solution: the agents are started on a pseudo-tree of the problem, run until
they have finished or are stopped, and what they have reported is evaluated on the problem. -/

namespace DcopSearch

inductive Outcome where
  | completed
  /-- A limit has stopped the run, and some values may be missing. -/
  | timedOut
deriving DecidableEq, Repr

/-- The result of a run.  The utility is the total of the assignment on the problem, if every variable
has a value. -/
structure Solution (K : Type) where
  assignments : Assignment
  utility : Option K
  finalBound : Option K
  reports : Std.ExtTreeMap String Nat
  outcome : Outcome
  statistics : Statistics

variable {K G : Type} [CostArithmetic K] [Generator G]

def Solution.ofTeam (team : Team K G) (statistics : Statistics) : Solution K where
  assignments := team.collector.assignments
  utility :=
    if team.collector.assignments.size = team.problem.declarations.size then
      team.problem.evaluate? team.collector.assignments
    else none
  finalBound := team.collector.finalBound
  reports := team.collector.reports
  outcome := if statistics.timedOut then .timedOut else .completed
  statistics := { statistics with contexts := team.contextCount }

/-- The messages that a run begins with: the start of every agent, then the views of the tree.  The
problem must have variables, and the tree a view of each and of no others. -/
def firstMessages (problem : Problem K) (tree : PseudoTree) :
    Except RunError (List (Outgoing K)) :=
  if problem.names.isEmpty then .error (.problem .noVariables)
  else
    match problem.names.find? (fun name => (tree.view? name).isNone) with
    | some name => .error (.tree (.unknownVariable name))
    | none =>
      match Team.viewMessages problem tree.views.toList with
      | .error error => .error (.tree error)
      | .ok views => .ok (Team.startMessages problem ++ views)

/-- Solves a problem over a tree.  `G` is the type of the generators, and `clock` tells the
milliseconds that have passed when so many messages were delivered. -/
def Problem.solveWith (G : Type) [Generator G] (problem : Problem K) (tree : PseudoTree)
    (config : Config K) (seed : UInt64) (clock : Nat → Nat) : Except RunError (Solution K) :=
  match firstMessages problem tree with
  | .error error => .error error
  | .ok messages =>
    let team : Team K G := .new problem config seed
    match config.backend with
    | .simulated =>
      ((Simulation.new team messages).run (config.isOutOfTime clock) config.messageLimit).map
        fun final => .ofTeam final.team final.statistics
    | .concurrent =>
      ((Concurrency.new team messages).run config clock config.messageLimit).map
        fun final => .ofTeam final.team final.statistics

def Problem.solve (G : Type) [Generator G] (problem : Problem K) (config : Config K)
    (seed : UInt64) (clock : Nat → Nat) : Except RunError (Solution K) :=
  problem.solveWith G (.generate problem) config seed clock

end DcopSearch
