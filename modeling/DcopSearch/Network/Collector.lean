import DcopSearch.Protocol.Error

/-! The results of a run as the agents report them. -/

namespace DcopSearch

open CostArithmetic

/-- The values reported last and the number of reports, by variable; the sum of the bounds of the
roots; and the agents that have finished, with the number of times one did so again. -/
structure Collector (K : Type) where
  assignments : Assignment
  reports : Std.ExtTreeMap String Nat
  finalBound : Option K
  finished : NameSet
  duplicateFinishes : Nat

namespace Collector

variable {K : Type}

def empty : Collector K :=
  { assignments := ∅, reports := ∅, finalBound := none, finished := ∅, duplicateFinishes := 0 }

def handle [CostArithmetic K] (collector : Collector K) (message : Message K) :
    Except AgentError (Collector K) :=
  match message with
  | .assignment name value =>
    .ok { collector with
          assignments := collector.assignments.insert name value
          reports := collector.reports.insert name (collector.reports[name]?.getD 0 + 1) }
  | .finalBound bound =>
    .ok { collector with finalBound := some (collector.finalBound.getD (ofNat 0) + bound) }
  | .agentFinished agent =>
    .ok { collector with
          finished := collector.finished.insert agent
          duplicateFinishes :=
            if collector.finished.contains agent then collector.duplicateFinishes + 1
            else collector.duplicateFinishes }
  | message => .error (.unexpectedMessage "collector" message.kind)

def allFinished (collector : Collector K) (agents : List String) : Bool :=
  agents.all collector.finished.contains

def summary (number : K → String) (collector : Collector K) : String :=
  "Solution:\n - Assigned variables: " ++ toString collector.assignments.size
    ++ "\n - Final bound: " ++ collector.finalBound.elim "none" number ++ "\n"
    ++ String.join (collector.assignments.toList.map fun entry =>
      "   " ++ entry.1 ++ " = " ++ toString entry.2 ++ "\n")

end Collector

end DcopSearch
