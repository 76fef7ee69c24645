import DcopSearch.Bandit.Bound
import DcopSearch.Cost.Objective

/-! The statistics of one variable in one context.  A node has one arm per value of the variable.
Reports from below go into the running mean and the best total of the arm that was sampled; an arm
whose own cost is infinite is infeasible, and pruning makes an arm so. -/

namespace DcopSearch

open CostArithmetic

/-- What is known about one value: its cost in the variable's own spaces, the mean of the reports
from below, the best total observed, its optimism bound and its visits. -/
structure Arm (K : Type) where
  localCost : K
  average : K
  best : K
  bound : K
  visits : Nat

namespace Arm

variable {K : Type} [CostArithmetic K]

def unsampled (objective : Objective) (localCost : K) : Arm K :=
  { localCost, average := ofNat 0, best := objective.worst, bound := infinity, visits := 0 }

def isFeasible (arm : Arm K) : Bool := !isInfinite arm.localCost

/-- The mean total: the value's own cost added to the mean of the reports. -/
def mean (arm : Arm K) : K := arm.average + arm.localCost

/-- The arm after a report for its current visit. -/
def store (arm : Arm K) (objective : Objective) (report : K) : Arm K :=
  let total := report + arm.localCost
  { arm with
    -- the visit has been counted already, and the average moves by its part of all visits
    average := arm.average + (report - arm.average) / ofNat (max arm.visits 1)
    best := if objective.improves total arm.best then total else arm.best }

def radius (arm : Arm K) (delta : K) : K := confidenceRadius arm.visits delta

end Arm

/-- The arms of a variable in one context.  `unexplored` lists the values not yet drawn for the
first time; `leader` is the value that looks best and `next` the one to sample by its bound, each
with its score.  `feasibleCount` starts from the number of values and is counted down when an
infeasible one is drawn or a feasible one excluded, so that it may fall below zero. -/
structure BanditNode (K : Type) where
  objective : Objective
  ignoreInfeasible : Bool
  arms : List (Arm K)
  frequency : Nat
  unexplored : List Nat
  feasibleCount : Int
  exploring : Bool
  leader : Option (Nat × K)
  next : Option (Nat × K)

namespace BanditNode

variable {K : Type}

def countVisit (node : BanditNode K) (index : Nat) : BanditNode K :=
  { node with
    arms := node.arms.modify index fun arm => { arm with visits := arm.visits + 1 } }

theorem length_arms_countVisit (node : BanditNode K) (index : Nat) :
    (node.countVisit index).arms.length = node.arms.length := by
  simp [countVisit]

def refreshExploring (node : BanditNode K) : BanditNode K :=
  { node with exploring := node.exploring && !node.unexplored.isEmpty }

variable [CostArithmetic K]

def ofCosts (localCosts : List K) (objective : Objective) (ignoreInfeasible : Bool) :
    BanditNode K :=
  { objective
    ignoreInfeasible
    arms := localCosts.map (Arm.unsampled objective)
    frequency := 0
    unexplored := List.range localCosts.length
    feasibleCount := localCosts.length
    exploring := true
    leader := none
    next := none }

def isFeasible (node : BanditNode K) (index : Nat) : Bool := node.arms[index]?.any Arm.isFeasible

def feasible (node : BanditNode K) : List (Nat × Arm K) :=
  (node.arms.zipIdx.filter fun entry => entry.1.isFeasible).map fun entry => (entry.2, entry.1)

def scoreOf (node : BanditNode K) (entry : Option (Nat × K)) : K :=
  entry.elim node.objective.worst (·.2)

def radius (node : BanditNode K) (index : Nat) (delta : K) : K :=
  node.arms[index]?.elim infinity (·.radius delta)

def recordVisit (node : BanditNode K) (formula : BoundFormula) : BanditNode K :=
  let frequency := node.frequency + 1
  { node with
    frequency
    arms := node.arms.map fun arm => { arm with bound := formula.value arm.visits frequency } }

/-- Credits a report from below to a value.  The answer is the total cost, or `none` for a value that
is infeasible by itself, of which no statistics are kept. -/
def credit (node : BanditNode K) (index : Nat) (report : K) : Option K × BanditNode K :=
  match node.arms[index]? with
  | none => (none, node)
  | some arm =>
    if arm.isFeasible then
      (some (report + arm.localCost),
        { node with arms := node.arms.set index (arm.store node.objective report) })
    else (none, node)

def storeCost (node : BanditNode K) (index : Nat) (report : K) : Option K × BanditNode K :=
  node.refreshExploring.credit index report

/-- Makes a value infeasible for good. -/
def exclude (node : BanditNode K) (index : Nat) : BanditNode K :=
  if node.isFeasible index then
    { node with
      arms := node.arms.modify index fun arm => { arm with localCost := node.objective.worst }
      -- only a draw takes the count below zero
      feasibleCount := if node.feasibleCount = 0 then 0 else node.feasibleCount - 1 }
  else node

def prune (node : BanditNode K) (index : Nat) : BanditNode K := node.refreshExploring.exclude index

theorem length_arms_recordVisit (node : BanditNode K) (formula : BoundFormula) :
    (node.recordVisit formula).arms.length = node.arms.length := by
  simp [recordVisit]

theorem length_arms_credit (node : BanditNode K) (index : Nat) (report : K) :
    (node.credit index report).2.arms.length = node.arms.length := by
  unfold credit
  split
  · rfl
  · split <;> simp

theorem length_arms_storeCost (node : BanditNode K) (index : Nat) (report : K) :
    (node.storeCost index report).2.arms.length = node.arms.length :=
  length_arms_credit node.refreshExploring index report

theorem length_arms_exclude (node : BanditNode K) (index : Nat) :
    (node.exclude index).arms.length = node.arms.length := by
  unfold exclude
  split <;> simp

theorem length_arms_prune (node : BanditNode K) (index : Nat) :
    (node.prune index).arms.length = node.arms.length :=
  length_arms_exclude node.refreshExploring index

end BanditNode

end DcopSearch
