import DcopSearch.Proofs.Bandit.Steady
import DcopSearch.Proofs.Cost.Exact
import DcopSearch.Random.ChaCha

/-! The count of the feasible values under any operations.  A node that passes over infeasible values
counts each of them down when it is drawn, and a feasible one when it is excluded.  So the count should
be the number of the values that are feasible or have still to be passed over.  It is, as long as no value
is excluded before it is drawn; such a value is counted down twice. -/

namespace DcopSearch

open CostArithmetic

namespace BanditNode

variable {K G : Type}

/-- What may be done with a node, in any order. -/
inductive Operation (K G : Type) where
  | draw (method : SamplingMethod) (generator : G)
  | recordVisit (formula : BoundFormula)
  | storeCost (index : Nat) (report : K)
  | prune (index : Nat)
  | process (method : SamplingMethod)

variable [CostArithmetic K]

/-- By how much the count is too small. -/
def deficit (node : BanditNode K) : Int :=
  node.feasibleValues + node.infeasibleUnexplored - node.feasibleCount

/-- What the count relies on. -/
structure Listed (node : BanditNode K) : Prop where
  nodup : node.unexplored.Nodup
  explored : node.exploring = false → node.unexplored = []
  ignoring : node.ignoreInfeasible = true

variable {node other : BanditNode K}

theorem deficit_congr (hcosts : other.costs = node.costs)
    (hunexplored : other.unexplored = node.unexplored)
    (hcount : other.feasibleCount = node.feasibleCount) : other.deficit = node.deficit := by
  have hfeasible := isFeasible_congr hcosts
  have hlength : other.arms.length = node.arms.length := by
    rw [← length_costs, hcosts, length_costs]
  simp only [deficit, feasibleValues, infeasibleUnexplored, hfeasible, hlength, hunexplored, hcount]

theorem deficit_countVisit (node : BanditNode K) (index : Nat) :
    (node.countVisit index).deficit = node.deficit :=
  deficit_congr (costs_countVisit node index) rfl rfl

omit [CostArithmetic K] in
theorem Listed.refreshExploring (h : node.Listed) : node.refreshExploring.Listed :=
  ⟨h.nodup, explored_refreshExploring h.explored, h.ignoring⟩

theorem Listed.storeCost (h : node.Listed) (index : Nat) (report : K) :
    (node.storeCost index report).2.Listed ∧ (node.storeCost index report).2.deficit = node.deficit := by
  have hcosts := costs_storeCost node index report
  have heq : (node.storeCost index report).2 = { node.refreshExploring with
      arms := (node.storeCost index report).2.arms } := credit_eq node.refreshExploring index report
  rw [heq] at hcosts ⊢
  have hrefreshed := h.refreshExploring
  exact ⟨⟨hrefreshed.nodup, hrefreshed.explored, hrefreshed.ignoring⟩, deficit_congr hcosts rfl rfl⟩

/-- When a value is taken out of those not yet drawn, an infeasible one is counted down. -/
theorem Listed.take (h : node.Listed) (count : Int) {x : Nat} {rest : List Nat}
    (hperm : (x :: rest).Perm node.unexplored)
    (hcount : count = if node.isFeasible x then node.feasibleCount else node.feasibleCount - 1) :
    Listed { node with unexplored := rest, feasibleCount := count } ∧
      BanditNode.deficit { node with unexplored := rest, feasibleCount := count } = node.deficit := by
  have hx : node.exploring ≠ false := by
    intro hx
    rw [h.explored hx] at hperm
    simp at hperm
  have hsplit := infeasibleUnexplored_of_perm hperm
  refine ⟨⟨(hperm.nodup_iff.mpr h.nodup).of_cons, fun hc => absurd hc hx, h.ignoring⟩, ?_⟩
  show (node.feasibleValues + (rest.countP fun i => !node.isFeasible i) - count : Int)
    = node.feasibleValues + node.infeasibleUnexplored - node.feasibleCount
  rw [hsplit, hcount]
  split <;> omega

variable [Generator G]

theorem Listed.drawUnexplored (h : node.Listed) (generator : G) :
    (node.drawUnexplored generator).node.Listed ∧
      (node.drawUnexplored generator).node.deficit = node.deficit := by
  induction node, generator using drawUnexplored_induction with
  | passed node generator later index rest hperm _ hinfeasible hdraw ih =>
    obtain ⟨hlisted, hdeficit⟩ := h.take (node.feasibleCount - 1) hperm (by rw [hinfeasible]; rfl)
    obtain ⟨hlast, hsame⟩ := ih hlisted
    rw [hdraw]
    exact ⟨hlast, hsame.trans hdeficit⟩
  | taken node generator later index rest hperm hfeasible hdraw =>
    obtain ⟨hlisted, hdeficit⟩ := h.take node.feasibleCount hperm (by rw [hfeasible h.ignoring]; rfl)
    rw [hdraw]
    exact ⟨⟨hlisted.nodup, hlisted.explored, hlisted.ignoring⟩,
      (deficit_countVisit _ _).trans hdeficit⟩
  | spent node generator hnil hdraw =>
    rw [hdraw]
    exact ⟨⟨h.nodup, fun _ => hnil, h.ignoring⟩, rfl⟩

theorem Listed.drawSelected (h : node.Listed) (method : SamplingMethod) (generator : G) :
    (node.drawSelected method generator).node.Listed ∧
      (node.drawSelected method generator).node.deficit = node.deficit := by
  unfold BanditNode.drawSelected
  split
  · exact ⟨h, rfl⟩
  next index _ _ => exact ⟨⟨h.nodup, h.explored, h.ignoring⟩, deficit_countVisit node index⟩

/-- A draw keeps the count as right or wrong as it is. -/
theorem Listed.draw (h : node.Listed) (method : SamplingMethod) (generator : G) :
    (node.draw method generator).node.Listed ∧
      (node.draw method generator).node.deficit = node.deficit := by
  obtain ⟨hlisted, hdeficit⟩ := h.drawUnexplored generator
  rcases node.draw_cases method generator with
    ⟨-, -, hdraw⟩ | ⟨-, -, hdraw⟩ | ⟨-, -, hdraw⟩ | ⟨-, hdraw⟩ <;> rw [hdraw]
  · exact ⟨hlisted, hdeficit⟩
  · have hprocessed : (method.process (node.drawUnexplored generator).node).Listed :=
      ⟨hlisted.nodup, hlisted.explored, hlisted.ignoring⟩
    obtain ⟨hselected, hsame⟩ :=
      hprocessed.drawSelected method (node.drawUnexplored generator).generator
    exact ⟨hselected, hsame.trans hdeficit⟩
  · exact ⟨h, rfl⟩
  · exact h.drawSelected method generator

omit [Generator G] in
/-- Excluding a feasible value that was not drawn yet makes the count too small by one more, unless it is
at zero; a count that is too small by then comes right by one where a value that was drawn is excluded
at zero. -/
theorem deficit_exclude (node : BanditNode K) (hnodup : node.unexplored.Nodup) {index : Nat}
    (hf : node.isFeasible index = true) (hworst : isInfinite (node.objective.worst : K) = true) :
    (node.exclude index).deficit = node.deficit
      + (if index ∈ node.unexplored then 1 else 0) - if node.feasibleCount = 0 then 1 else 0 := by
  have hvalues := feasibleValues_exclude hf hworst
  have hcount := feasibleCount_exclude hf
  have hrest : (node.exclude index).infeasibleUnexplored
      = node.infeasibleUnexplored + if index ∈ node.unexplored then 1 else 0 := by
    rw [infeasibleUnexplored, infeasibleUnexplored, unexplored_exclude]
    by_cases hm : index ∈ node.unexplored
    · rw [if_pos hm]
      refine countP_eq_succ hnodup hm (by simp [hf])
        (by simp [isFeasible_exclude_self hf hworst]) fun i _ hi => ?_
      rw [isFeasible_exclude_of_ne hi]
    · rw [if_neg hm, Nat.add_zero]
      refine List.countP_congr fun i hi => ?_
      have hne : i ≠ index := fun he => hm (he ▸ hi)
      rw [isFeasible_exclude_of_ne hne]
  rw [deficit, deficit, hrest, hcount]
  split <;> split <;> omega

omit [Generator G] in
theorem Listed.prune (h : node.Listed) (index : Nat) : (node.prune index).Listed := by
  have hrefreshed := h.refreshExploring
  rw [BanditNode.prune, exclude_eq]
  refine ⟨?_, fun hx => ?_, hrefreshed.ignoring⟩
  · rw [← exclude_eq, unexplored_exclude]
    exact hrefreshed.nodup
  · rw [← exclude_eq, unexplored_exclude]
    exact hrefreshed.explored hx

/-- Whether an operation excludes a feasible value that was not drawn yet, as a number. -/
def Operation.early (node : BanditNode K) : Operation K G → Nat
  | .prune index => if node.isFeasible index ∧ index ∈ node.unexplored then 1 else 0
  | _ => 0

/-- The node after an operation. -/
def perform (node : BanditNode K) : Operation K G → BanditNode K
  | .draw method generator => (node.draw method generator).node
  | .recordVisit formula => node.recordVisit formula
  | .storeCost index report => (node.storeCost index report).2
  | .prune index => node.prune index
  | .process method => method.process node

/-- The node after operations in turn. -/
def after (node : BanditNode K) (operations : List (Operation K G)) : BanditNode K :=
  operations.foldl perform node

/-- How many of the operations exclude a feasible value that was not drawn yet. -/
def early (node : BanditNode K) : List (Operation K G) → Nat
  | [] => 0
  | operation :: rest => operation.early node + (node.perform operation).early rest

/-- The count is too small by no more than the number of values that were excluded too early. -/
structure Tracks (early : Nat) (node : BanditNode K) : Prop extends Listed node where
  nonneg : 0 ≤ node.deficit
  le : node.deficit ≤ early

variable {early : Nat}

omit [Generator G] in
/-- An operation that does not touch the count. -/
theorem Tracks.of_eq (h : node.Tracks early) (hlisted : other.Listed)
    (hdeficit : other.deficit = node.deficit) : other.Tracks early :=
  ⟨hlisted, hdeficit ▸ h.nonneg, hdeficit ▸ h.le⟩

omit [Generator G] in
theorem Tracks.prune (h : node.Tracks early)
    (hworst : ∀ objective : Objective, isInfinite (objective.worst : K) = true) (index : Nat) :
    (node.prune index).Tracks
      (early + if node.isFeasible index ∧ index ∈ node.unexplored then 1 else 0) := by
  have hrefreshed : node.refreshExploring.deficit = node.deficit := rfl
  cases hf : node.isFeasible index with
  | false =>
    have hsame : node.prune index = node.refreshExploring :=
      if_neg (show ¬node.isFeasible index = true by simp [hf])
    rw [hsame, if_neg (by simp), Nat.add_zero]
    exact h.of_eq h.refreshExploring hrefreshed
  | true =>
    have hdeficit : (node.prune index).deficit = node.deficit
        + (if index ∈ node.unexplored then 1 else 0) - if node.feasibleCount = 0 then 1 else 0 :=
      deficit_exclude node.refreshExploring h.nodup hf (hworst _)
    -- a count of zero is too small, since the value is feasible
    have hzero : node.feasibleCount = 0 → 1 ≤ node.deficit := by
      intro hcount
      have hvalues := feasibleValues_exclude hf (hworst _)
      rw [deficit, hcount, hvalues]
      omega
    have hnonneg := h.nonneg
    have hle := h.le
    refine ⟨h.toListed.prune index, ?_, ?_⟩
    · rw [hdeficit]
      split <;> split <;> omega
    · rw [hdeficit]
      simp only [true_and]
      split <;> split <;> omega

/-- What an operation makes of the count. -/
theorem Tracks.perform (h : node.Tracks early)
    (hworst : ∀ objective : Objective, isInfinite (objective.worst : K) = true)
    (operation : Operation K G) :
    (node.perform operation).Tracks (early + operation.early node) := by
  cases operation with
  | draw method generator =>
    obtain ⟨hlisted, hdeficit⟩ := h.toListed.draw method generator
    exact h.of_eq hlisted hdeficit
  | recordVisit formula =>
    exact h.of_eq ⟨h.nodup, h.explored, h.ignoring⟩
      (deficit_congr (costs_recordVisit node formula) rfl rfl)
  | storeCost index report =>
    obtain ⟨hlisted, hdeficit⟩ := h.toListed.storeCost index report
    exact h.of_eq hlisted hdeficit
  | prune index => exact h.prune hworst index
  | process method => exact h.of_eq ⟨h.nodup, h.explored, h.ignoring⟩ rfl

theorem Tracks.after (h : node.Tracks early)
    (hworst : ∀ objective : Objective, isInfinite (objective.worst : K) = true)
    (operations : List (Operation K G)) :
    (node.after operations).Tracks (early + node.early operations) := by
  induction operations generalizing node early with
  | nil => exact h
  | cons operation rest ih =>
    have hlast := ih (h.perform hworst operation)
    rw [Nat.add_assoc] at hlast
    exact hlast

omit [Generator G] in
theorem tracks_ofCosts (costs : List K) (objective : Objective) :
    (ofCosts costs objective true).Tracks 0 := by
  have hvalues := values_ofCosts costs objective true
  have hdeficit : (ofCosts costs objective true).deficit = 0 := by
    show ((_ : Nat) + (_ : Nat) - (costs.length : Int) : Int) = 0
    omega
  exact ⟨⟨List.nodup_range, by simp [ofCosts], rfl⟩, Int.le_of_eq hdeficit.symm,
    Int.le_of_eq hdeficit⟩

/-- The count is the number of the feasible values, once the node does not explore any more, and tells
when there is nothing to draw. -/
structure CountsRight (G : Type) [Generator G] (node : BanditNode K) : Prop where
  nonneg : 0 ≤ node.feasibleCount
  eq : node.exploring = false → node.feasibleCount = node.feasibleValues
  none : node.exploring = false → (∀ i, node.isFeasible i = false) →
    ∀ (method : SamplingMethod) (generator : G), (node.draw method generator).chosen = none

theorem Tracks.countsRight (h : node.Tracks 0) : node.CountsRight G := by
  have hdeficit : node.deficit = 0 := Int.le_antisymm h.le h.nonneg
  have hcount : node.feasibleCount = node.feasibleValues + node.infeasibleUnexplored := by
    rw [deficit] at hdeficit
    omega
  have hover : node.exploring = false → node.feasibleCount = node.feasibleValues := by
    intro hx
    rw [hcount, infeasibleUnexplored, h.explored hx]
    rfl
  refine ⟨by omega, hover, fun hx hnone method generator => ?_⟩
  have hzero : node.feasibleCount = 0 := by
    have hvalues : node.feasibleValues = 0 := List.countP_eq_zero.mpr fun i _ => by simp [hnone i]
    rw [hover hx, hvalues]
    rfl
  rw [BanditNode.draw, if_neg (by simp [hx]), if_pos (by simp [hzero])]

/-- After any operations on a new node that passes over infeasible values its count of the feasible ones
is right, as long as no value was excluded before it was drawn.  Each such value makes it too small by at
most one.  Once the node does not explore any more none is left to be passed over. -/
theorem counts_feasible (hworst : ∀ objective : Objective, isInfinite (objective.worst : K) = true)
    (costs : List K) (objective : Objective) (operations : List (Operation K G)) :
    let first := ofCosts costs objective true
    let node := first.after operations
    (first.early operations = 0 → node.CountsRight G) ∧
      node.feasibleCount ≤ node.feasibleValues + node.infeasibleUnexplored ∧
      (node.feasibleValues + node.infeasibleUnexplored : Int)
        ≤ node.feasibleCount + first.early operations ∧
      (node.exploring = false → node.infeasibleUnexplored = 0) := by
  intro first node
  have htracks : node.Tracks (first.early operations) := by
    have hafter := (tracks_ofCosts costs objective).after hworst operations
    rwa [Nat.zero_add] at hafter
  have hnonneg := htracks.nonneg
  have hle := htracks.le
  rw [deficit] at hnonneg hle
  refine ⟨fun hearly => ?_, by omega, by omega, fun hx => ?_⟩
  · rw [hearly] at htracks
    exact htracks.countsRight
  · rw [infeasibleUnexplored, htracks.explored hx]
    rfl

/-- The last of three values is drawn and excluded, the first one drawn and told of, and the other one,
which is infeasible, passed over. -/
def Operation.threefold : List (Operation (Exact ℚ) ChaCha.Stream) :=
  [.draw .mean (Generator.ofSeed 1), .recordVisit .log, .prune 2, .draw .mean (Generator.ofSeed 1),
    .storeCost 0 (.number 3), .draw .mean (Generator.ofSeed 1)]

theorem counts_feasible_threefold :
    let first := ofCosts [.number 0, .high, .number 5] .minimize true
    let node := first.after Operation.threefold
    first.early Operation.threefold = 0 ∧ node.exploring = false ∧ node.CountsRight ChaCha.Stream := by
  have hearly : (ofCosts [.number 0, .high, .number 5] .minimize true).early Operation.threefold = 0 := by
    decide +kernel
  exact ⟨hearly, by decide +kernel, (counts_feasible Exact.isInfinite_worst _ _ _).1 hearly⟩

/-- A value that is excluded before it is drawn is counted down twice, and the other one is not drawn. -/
example :
    let draw : Operation (Exact ℚ) ChaCha.Stream := .draw .mean (Generator.ofSeed 1)
    let node := (ofCosts [.number 0, .number 0] .minimize true).after
      [.prune 0, draw, .storeCost 1 (.number 0), draw]
    node.exploring = false ∧ node.feasibleCount = 0 ∧ node.feasibleValues = 1 := by
  decide +kernel

end BanditNode

end DcopSearch
