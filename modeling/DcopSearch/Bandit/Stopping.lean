import DcopSearch.Bandit.Node

/-! When a variable may stop sampling.  A rule is consulted once every value of a node was drawn; it
asks whether some value could still be better than the leading one by more than the error. -/

namespace DcopSearch

open CostArithmetic

/-- The rules to choose from: by means, by best totals, or by the regret that is left. -/
inductive StoppingRule where
  | mean
  | best
  | regret
deriving DecidableEq, Repr

namespace StoppingRule

def name : StoppingRule → String
  | mean => "mean"
  | best => "best"
  | regret => "regret"

def words : List (String × StoppingRule) :=
  [("mean", mean), ("best", best), ("regret", regret)]

def named? (text : String) : Option StoppingRule := words.lookup (Text.keyword text)

variable {K : Type} [CostArithmetic K]

/-- No feasible value dominates the leader: the leader's radius is within the error, and so is what
the optimistic score of each feasible value gains over the score of the leader. -/
def undominated (node : BanditNode K) (leader : Arm K) (score : Arm K → K) (error delta : K) :
    Bool :=
  !lt error (leader.radius delta) && node.feasible.all fun entry =>
    le (node.objective.gain
        (node.objective.optimistic (score entry.2) (entry.2.radius delta)) (score leader))
      error

def mostOptimistic (node : BanditNode K) (delta : K) : K :=
  (node.feasible.map fun entry =>
    node.objective.optimistic entry.2.best (entry.2.radius delta)).foldl
    (fun best score => if node.objective.improves score best then score else best)
    node.objective.worst

/-- What sampling on could gain over the leader at most is within the error; a single feasible value
leaves nothing to regret. -/
def withoutRegret (node : BanditNode K) (leader : Arm K) (error delta : K) : Bool :=
  node.feasibleCount == 1
    || le (node.objective.gain (mostOptimistic node delta) leader.best) error

/-- Whether the statistics are good enough.  Without a leader there is nothing to wait for. -/
def converged (rule : StoppingRule) (node : BanditNode K) (error delta : K) : Bool :=
  match node.leader.bind fun entry => node.arms[entry.1]? with
  | none => true
  | some leader =>
    match rule with
    | mean => undominated node leader Arm.mean error delta
    | best => undominated node leader Arm.best error delta
    | regret => withoutRegret node leader error delta

end StoppingRule

def BanditNode.hasConverged {K : Type} [CostArithmetic K] (node : BanditNode K)
    (rule : StoppingRule) (error delta : K) : Bool :=
  !node.exploring && rule.converged node error delta

end DcopSearch
