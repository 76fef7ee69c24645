import DcopSearch.Bandit.Node
import DcopSearch.Random.Generator

/-! How a value is selected.  A method scores the feasible values; by the scores it names the leading
value and the value to sample next.  Before a method is asked at all, every value is drawn once, in an
order that is left to chance. -/

namespace DcopSearch

open CostArithmetic

/-- The methods to choose from: the most optimistic mean, the most optimistic best total, or a value
at random. -/
inductive SamplingMethod where
  | mean
  | best
  | random
deriving DecidableEq, Repr

structure Draw (K G : Type) where
  chosen : Option Nat
  node : BanditNode K
  generator : G

namespace SamplingMethod

def name : SamplingMethod → String
  | mean => "mean"
  | best => "best"
  | random => "random"

def words : List (String × SamplingMethod) :=
  [("mean", mean), ("best", best), ("random", random)]

def named? (text : String) : Option SamplingMethod := words.lookup (Text.keyword text)

variable {K : Type} [CostArithmetic K]

def score : SamplingMethod → Arm K → K
  | mean, arm => arm.mean
  | best, arm | random, arm => arm.best

def leader (method : SamplingMethod) (node : BanditNode K) : Option (Nat × K) :=
  node.objective.earliestBest (node.feasible.map fun entry => (entry.1, method.score entry.2))

/-- The feasible value whose score is best in the light of its bound; a method that leaves the choice
to chance has none. -/
def next (method : SamplingMethod) (node : BanditNode K) : Option (Nat × K) :=
  match method with
  | random => none
  | mean | best =>
    node.objective.earliestBest (node.feasible.map fun entry =>
      (entry.1, node.objective.optimistic (method.score entry.2) entry.2.bound))

def process (method : SamplingMethod) (node : BanditNode K) : BanditNode K :=
  { node with leader := method.leader node, next := method.next node }

/-- The value to sample in a node all of whose values were drawn before.  There is none if no value
is feasible. -/
def select {G : Type} [Generator G] (method : SamplingMethod) (node : BanditNode K)
    (generator : G) : Option Nat × G :=
  let feasible := node.feasible.map (·.1)
  match method with
  | mean | best => ((node.next.map (·.1)).or feasible.head?, generator)
  | random =>
    if h : 0 < feasible.length then
      let (index, generator) := Generator.pick feasible.length h generator
      (some feasible[index], generator)
    else (none, generator)

end SamplingMethod

/-- Takes an element out of a list; the last element moves into its place. -/
def swapRemove {α : Type} (xs : List α) (i : Fin xs.length) : α × List α :=
  (xs[i], (xs.set i (xs.getLast (List.ne_nil_of_length_pos i.pos))).dropLast)

theorem length_swapRemove {α : Type} (xs : List α) (i : Fin xs.length) :
    (swapRemove xs i).2.length = xs.length - 1 := by
  simp [swapRemove]

/-- Setting a place and taking out what was there are one exchange. -/
theorem getElem_cons_set_perm {α : Type} {ys : List α} {i : Nat} (h : i < ys.length) (x : α) :
    (ys[i] :: ys.set i x).Perm (ys ++ [x]) := by
  induction ys generalizing i with
  | nil => simp at h
  | cons y ys ih =>
    cases i with
    | zero =>
      simpa using (List.perm_append_singleton x ys).symm.cons y
    | succ i =>
      have hi : i < ys.length := by simpa using h
      simpa using (List.Perm.swap y ys[i] (ys.set i x)).trans ((ih hi).cons y)

theorem swapRemove_perm {α : Type} (xs : List α) (i : Fin xs.length) :
    ((swapRemove xs i).1 :: (swapRemove xs i).2).Perm xs := by
  obtain ⟨i, hi⟩ := i
  have hne : xs ≠ [] := List.ne_nil_of_length_pos (by omega)
  obtain ⟨ys, x, rfl⟩ : ∃ ys x, xs = ys ++ [x] :=
    ⟨xs.dropLast, xs.getLast hne, (List.dropLast_concat_getLast hne).symm⟩
  by_cases h : i < ys.length
  · simpa [swapRemove, List.set_append_left, List.getElem_append_left, h] using
      getElem_cons_set_perm h x
  · have : i = ys.length := by simp at hi; omega
    subst this
    simpa [swapRemove] using (List.perm_append_singleton x ys).symm

namespace BanditNode

variable {K G : Type} [CostArithmetic K] [Generator G]

/-- Draws among the values not yet drawn.  An infeasible one is passed over if the node ignores such
values; when none is left, exploring is over. -/
def drawUnexplored (node : BanditNode K) (generator : G) : Draw K G :=
  if h : 0 < node.unexplored.length then
    let picked := Generator.pick node.unexplored.length h generator
    let taken := swapRemove node.unexplored picked.1
    if node.ignoreInfeasible && !node.isFeasible taken.1 then
      -- a value that was excluded before has been counted down then, and is so once more
      { node with unexplored := taken.2, feasibleCount := node.feasibleCount - 1 }.drawUnexplored
        picked.2
    else
      { chosen := some taken.1
        node := { node with unexplored := taken.2 }.countVisit taken.1
        generator := picked.2 }
  else
    { chosen := none, node := { node with exploring := false }, generator }
termination_by node.unexplored.length
decreasing_by simp only [length_swapRemove]; omega

def drawSelected (node : BanditNode K) (method : SamplingMethod) (generator : G) : Draw K G :=
  match method.select node generator with
  | (none, generator) => { chosen := none, node, generator }
  | (some index, generator) => { chosen := some index, node := node.countVisit index, generator }

/-- Draws the next value to sample, a value not yet drawn first.  There is none when no value is counted
as feasible. -/
def draw (node : BanditNode K) (method : SamplingMethod) (generator : G) : Draw K G :=
  if node.exploring then
    let explored := node.drawUnexplored generator
    if explored.chosen.isSome || explored.node.feasibleCount == 0 then explored
    -- all that were left have been passed over, so no report has made the method look at the node
    else (method.process explored.node).drawSelected method explored.generator
  else if node.feasibleCount == 0 then { chosen := none, node, generator }
  else node.drawSelected method generator

end BanditNode

end DcopSearch
