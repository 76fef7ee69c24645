import DcopSearch.Bandit.Stopping
import DcopSearch.Proofs.Bandit.Counted
import DcopSearch.Proofs.Bandit.Draws
import Mathlib.Tactic.Linarith

/-! Nodes that have converged by the means.  Whatever was done with the node, every value has been
drawn by then.  If the true mean of each feasible value and of the leading one lies within the radius
around its mean, the leading value is truly worse than any feasible one by at most twice the
error. -/

namespace DcopSearch

open CostArithmetic Exact

namespace BanditNode

section

variable {K G : Type} [CostArithmetic K] [Generator G] {first node : BanditNode K}

/-- The nodes that come of a node by any operations; leader and next value may also be set from
outside. -/
inductive Reaches (G : Type) [Generator G] (first : BanditNode K) : BanditNode K → Prop where
  | start : Reaches G first first
  | perform {node : BanditNode K} (operation : Operation K G) :
      Reaches G first node → Reaches G first (node.perform operation)
  | setLeaders {node : BanditNode K} (leader next : Option (Nat × K)) :
      Reaches G first node → Reaches G first { node with leader, next }

theorem Reaches.after (h : Reaches G first node) (operations : List (Operation K G)) :
    Reaches G first (node.after operations) := by
  induction operations generalizing node with
  | nil => exact h
  | cons operation rest ih => exact ih (h.perform operation)

/-- Once the node does not explore any more every value was drawn, and a feasible value that was
drawn was visited. -/
structure Surveyed (node : BanditNode K) : Prop where
  explored : node.exploring = false → node.unexplored = []
  visited : ∀ i, node.isFeasible i = true → i ∉ node.unexplored → node.visits i ≠ 0

omit [Generator G] in
theorem surveyed_ofCosts (costs : List K) (objective : Objective) (ignoreInfeasible : Bool) :
    (ofCosts costs objective ignoreInfeasible).Surveyed := by
  refine ⟨by simp [ofCosts], fun i hf hi => absurd ?_ hi⟩
  have hlt := index_lt_of_isFeasible hf
  simpa [ofCosts] using hlt

omit [Generator G] in
/-- An operation that takes no value out of those not yet drawn. -/
theorem Surveyed.of_eq {other : BanditNode K} (h : node.Surveyed)
    (hunexplored : other.unexplored = node.unexplored)
    (hexploring : other.exploring = false → node.unexplored = [])
    (hfeasible : ∀ i, other.isFeasible i = true → node.isFeasible i = true)
    (hvisits : ∀ i, node.isFeasible i = true → node.visits i ≤ other.visits i) : other.Surveyed := by
  refine ⟨fun hx => hunexplored.trans (hexploring hx), fun i hf hi => ?_⟩
  rw [hunexplored] at hi
  have hbefore := h.visited i (hfeasible i hf) hi
  have hmore := hvisits i (hfeasible i hf)
  omega

omit [Generator G] in
/-- A draw that counts the visit of the value it chooses and passes over infeasible ones only. -/
theorem Surveyed.of_drawsOnce {draw : Draw K G} (h : node.Surveyed) (honce : node.DrawsOnce draw)
    (hexplored : draw.node.exploring = false → draw.node.unexplored = []) : draw.node.Surveyed := by
  refine ⟨hexplored, fun i hf hi => ?_⟩
  rw [honce.isFeasible] at hf
  rw [honce.visits (index_lt_of_isFeasible hf)]
  by_cases hm : i ∈ node.unexplored
  · rcases honce.left i hm with hchosen | hleft | ⟨-, hinfeasible⟩
    · rw [if_pos hchosen]
      omega
    · exact absurd hleft hi
    · rw [hinfeasible] at hf
      cases hf
  · have := h.visited i hf hm
    omega

theorem explored_drawUnexplored (h : node.exploring = false → node.unexplored = [])
    (generator : G) : (node.drawUnexplored generator).node.exploring = false →
      (node.drawUnexplored generator).node.unexplored = [] := by
  induction node, generator using drawUnexplored_induction with
  | passed node generator later index rest hperm _ _ hdraw ih =>
    rw [hdraw]
    refine ih fun hx => ?_
    rw [h hx] at hperm
    simp at hperm
  | taken node generator later index rest hperm _ hdraw =>
    intro hx
    rw [hdraw] at hx
    rw [h hx] at hperm
    simp at hperm
  | spent node generator hnil hdraw =>
    rw [hdraw]
    exact fun _ => hnil

theorem Surveyed.drawSelected (h : node.Surveyed) (method : SamplingMethod) (generator : G) :
    (node.drawSelected method generator).node.Surveyed := by
  obtain ⟨honce, hunexplored⟩ := drawsOnce_drawSelected node method generator
  refine h.of_drawsOnce honce fun hx => hunexplored.trans (h.explored ?_)
  unfold BanditNode.drawSelected at hx
  split at hx <;> exact hx

theorem Surveyed.draw (h : node.Surveyed) (method : SamplingMethod) (generator : G) :
    (node.draw method generator).node.Surveyed := by
  have hexplored : (node.drawUnexplored generator).node.Surveyed :=
    h.of_drawsOnce (drawsOnce_drawUnexplored node generator)
      (explored_drawUnexplored h.explored generator)
  rcases node.draw_cases method generator with
    ⟨-, -, hdraw⟩ | ⟨-, -, hdraw⟩ | ⟨-, -, hdraw⟩ | ⟨-, hdraw⟩ <;> rw [hdraw]
  · exact hexplored
  · have hprocessed : (method.process (node.drawUnexplored generator).node).Surveyed :=
      ⟨hexplored.explored, hexplored.visited⟩
    exact hprocessed.drawSelected method _
  · exact h
  · exact h.drawSelected method generator

theorem Surveyed.perform (h : node.Surveyed)
    (hworst : ∀ objective : Objective, isInfinite (objective.worst : K) = true)
    (operation : Operation K G) : (node.perform operation).Surveyed := by
  cases operation with
  | draw method generator => exact h.draw method generator
  | recordVisit formula =>
    refine h.of_eq rfl h.explored (fun i hf => ?_) fun i _ =>
      Nat.le_of_eq (visits_recordVisit node formula i).symm
    rwa [← isFeasible_congr (costs_recordVisit node formula)]
  | storeCost index report =>
    have heq : (node.storeCost index report).2 = { node.refreshExploring with
        arms := (node.storeCost index report).2.arms } := credit_eq node.refreshExploring index report
    refine h.of_eq (by rw [BanditNode.perform, heq]; rfl)
      (fun hx => explored_refreshExploring h.explored ?_) (fun i hf => ?_) fun i _ =>
        Nat.le_of_eq (visits_storeCost node index report i).symm
    · rw [BanditNode.perform, heq] at hx
      exact hx
    · rwa [← isFeasible_congr (costs_storeCost node index report)]
  | prune index =>
    refine h.of_eq (unexplored_exclude node.refreshExploring index)
      (fun hx => explored_refreshExploring h.explored ?_) (fun i hf => ?_) fun i _ =>
        Nat.le_of_eq (visits_prune node index i).symm
    · rw [BanditNode.perform, prune, exclude_eq] at hx
      exact hx
    · cases hfeasible : node.isFeasible i with
      | true => rfl
      | false =>
        rw [BanditNode.perform, isFeasible_prune_of_false hfeasible index (hworst _)] at hf
        cases hf
  | process method => exact ⟨h.explored, h.visited⟩

theorem Reaches.surveyed (h : Reaches G first node) (hfirst : first.Surveyed)
    (hworst : ∀ objective : Objective, isInfinite (objective.worst : K) = true) : node.Surveyed := by
  induction h with
  | start => exact hfirst
  | perform operation _ ih => exact ih.perform hworst operation
  | setLeaders _ _ _ ih => exact ⟨ih.explored, ih.visited⟩

end

end BanditNode

variable {F : Type} [Field F] [LinearOrder F] [LnSqrt F]

/-- By how much the first of two numbers is worse than the second as a cost. -/
def Objective.excess (objective : Objective) (x y : F) : F :=
  match objective with
  | minimize => x - y
  | maximize => y - x

omit [LnSqrt F] in
/-- A number that is near to the first one is not much worse. -/
theorem Objective.excess_le_add [IsStrictOrderedRing F] {objective : Objective} {x y z a b : F}
    (hnear : |x - y| ≤ a) (h : objective.excess y z ≤ b) : objective.excess x z ≤ a + b := by
  obtain ⟨hlower, hupper⟩ := abs_le.mp hnear
  cases objective with
  | minimize =>
    have h : y - z ≤ b := h
    show x - z ≤ a + b
    linarith
  | maximize =>
    have h : z - y ≤ b := h
    show z - x ≤ a + b
    linarith

theorem Exact.abs_number_sub [IsStrictOrderedRing F] (x y : F) :
    CostArithmetic.abs (number x - number y) = number |x - y| := by
  have hsub : (number x - number y : Exact F) = number (x - y) :=
    congrArg number (sub_eq_add_neg x y).symm
  have hlt : CostArithmetic.lt (number (x - y)) (ofNat 0) = decide (x - y < 0) := by
    show decide (x - y < ((0 : Nat) : F)) = _
    rw [Nat.cast_zero]
  rw [hsub, CostArithmetic.abs, hlt]
  by_cases h : x - y < 0
  · rw [if_pos (by simpa using h), abs_of_neg h]
    rfl
  · rw [if_neg (by simpa using h), abs_of_nonneg (not_lt.mp h)]

/-- The number is no further from the mean of a value than the radius. -/
def Arm.Near (arm : Arm (Exact F)) (delta : Exact F) (x : F) : Prop :=
  CostArithmetic.le (CostArithmetic.abs (number x - arm.mean)) (arm.radius delta) = true

instance (arm : Arm (Exact F)) (delta : Exact F) (x : F) : Decidable (arm.Near delta x) :=
  inferInstanceAs (Decidable (_ = true))

namespace Arm

variable {arm leader : Arm (Exact F)} {delta : Exact F} {x y ε : F}

/-- Nothing is said of the number if the radius is infinite; else mean and radius are numbers. -/
theorem Near.cases [IsStrictOrderedRing F] (h : arm.Near delta x) : arm.radius delta = high ∨
    ∃ m r, arm.mean = number m ∧ arm.radius delta = number r ∧ |x - m| ≤ r := by
  unfold Near at h
  cases hmean : arm.mean with
  | number m =>
    rw [hmean, abs_number_sub] at h
    cases hradius : arm.radius delta with
    | high => exact .inl rfl
    | number r =>
      rw [hradius] at h
      exact .inr ⟨m, r, rfl, rfl, of_decide_eq_true h⟩
    | low | undefined => rw [hradius] at h; cases h
  | high | low =>
    rw [hmean] at h
    cases hradius : arm.radius delta with
    | high => exact .inl rfl
    | number r => rw [hradius] at h; cases h
    | low | undefined => rw [hradius] at h; cases h
  | undefined => rw [hmean] at h; cases h

/-- A leading value whose radius is within the error. -/
theorem Near.exists_mean [IsStrictOrderedRing F] (h : leader.Near delta x)
    (hwithin : CostArithmetic.lt (number ε) (leader.radius delta) = false) :
    ∃ m, leader.mean = number m ∧ |x - m| ≤ ε := by
  rcases h.cases with hradius | ⟨m, r, hmean, hradius, hle⟩
  · rw [hradius] at hwithin
    cases hwithin
  · rw [hradius] at hwithin
    exact ⟨m, hmean, hle.trans (not_lt.mp (of_decide_eq_false hwithin))⟩

/-- A value whose optimistic mean gains no more than the error over the mean of the leading value is
truly better than that mean by no more. -/
theorem Near.excess_le [IsStrictOrderedRing F] {objective : Objective} {m : F} (h : arm.Near delta x)
    (hgain : CostArithmetic.le (objective.gain
      (objective.optimistic arm.mean (arm.radius delta)) (number m)) (number ε) = true) :
    objective.excess m x ≤ ε := by
  rcases h.cases with hradius | ⟨m', r, hmean, hradius, hle⟩
  · -- an infinite radius leaves an infinite gain, or one that is no number
    rw [hradius] at hgain
    cases objective <;> cases hmean : arm.mean <;> rw [hmean] at hgain <;> cases hgain
  · rw [hmean, hradius] at hgain
    obtain ⟨hlower, hupper⟩ := abs_le.mp hle
    cases objective with
    | minimize =>
      have hgain : m + -(m' + -r) ≤ ε := of_decide_eq_true hgain
      show m - x ≤ ε
      linarith
    | maximize =>
      have hgain : m' + r + -m ≤ ε := of_decide_eq_true hgain
      show x - m ≤ ε
      linarith

end Arm

namespace BanditNode

variable {G : Type} [Generator G] {node : BanditNode (Exact F)}

/-- When a node that came of a new one by any operations has converged by the means, every value was
drawn and every feasible one visited.  If the true means of the feasible values and of the leading one
are as near to the means as the radii say, the leading value is truly worse than a feasible one by no
more than twice the error.  This holds for any error and confidence, and for any logarithm and
root. -/
theorem near_best [IsStrictOrderedRing F] {costs : List (Exact F)} {objective : Objective}
    {ignoreInfeasible : Bool} (h : Reaches G (ofCosts costs objective ignoreInfeasible) node)
    {ε : F} {delta : Exact F} (hconverged : node.hasConverged .mean (number ε) delta = true)
    {index : Nat} {score : Exact F} (hleader : node.leader = some (index, score))
    {leader : Arm (Exact F)} (harm : node.arms[index]? = some leader) {mean : Nat → F}
    (hnear : leader.Near delta (mean index))
    (hfeasible : ∀ (i : Nat) (arm : Arm (Exact F)), node.arms[i]? = some arm →
      arm.isFeasible = true → arm.Near delta (mean i)) :
    node.unexplored = [] ∧
      ∀ (i : Nat) (arm : Arm (Exact F)), node.arms[i]? = some arm → arm.isFeasible = true →
        arm.visits ≠ 0 ∧ node.objective.excess (mean index) (mean i) ≤ 2 * ε := by
  have hsurveyed := h.surveyed (surveyed_ofCosts costs objective ignoreInfeasible)
    Exact.isInfinite_worst
  simp only [hasConverged, Bool.and_eq_true, Bool.not_eq_true', StoppingRule.converged, hleader,
    Option.bind_some, harm, StoppingRule.undominated, List.all_eq_true] at hconverged
  obtain ⟨hx, hwithin, hgains⟩ := hconverged
  have hnil := hsurveyed.explored hx
  refine ⟨hnil, fun i arm ha hf => ⟨?_, ?_⟩⟩
  · have hvisits := hsurveyed.visited i (by rw [isFeasible, ha]; exact hf) (by simp [hnil])
    simpa [visits, ha] using hvisits
  · obtain ⟨m, hm, hle⟩ := hnear.exists_mean hwithin
    have hgain := hgains (i, arm) (mem_feasible.mpr ⟨ha, hf⟩)
    rw [hm] at hgain
    have hexcess := (hfeasible i arm ha hf).excess_le hgain
    rw [two_mul]
    exact Objective.excess_le_add hle hexcess

/-- The last of three values is drawn and told of, then the first one, and then the first one again;
the other one is infeasible and passed over. -/
def Operation.thrice : List (Operation (Exact ℚ) ChaCha.Stream) :=
  [.draw .mean (Generator.ofSeed 1), .recordVisit .log, .storeCost 2 (number 1),
    .draw .mean (Generator.ofSeed 1), .recordVisit .log, .storeCost 0 (number 3),
    .draw .mean (Generator.ofSeed 1), .recordVisit .log, .storeCost 0 (number 1), .process .mean]

/-- The leading value may truly cost a little more than its mean, and the other one a little less. -/
theorem near_best_thrice :
    let node := (ofCosts [number 0, high, number 5] .minimize true).after Operation.thrice
    let mean : Nat → ℚ := fun i => if i = 0 then 5 / 2 else 5
    ∃ leader, node.leader = some (0, number 2) ∧ node.arms[0]? = some leader ∧
      node.hasConverged .mean (number 1) (number (1 / 2)) = true ∧
      leader.Near (number (1 / 2)) (mean 0) ∧
      (∀ (i : Nat) (arm : Arm (Exact ℚ)), node.arms[i]? = some arm → arm.isFeasible = true →
        arm.Near (number (1 / 2)) (mean i)) ∧
      node.unexplored = [] ∧
      ∀ (i : Nat) (arm : Arm (Exact ℚ)), node.arms[i]? = some arm → arm.isFeasible = true →
        arm.visits ≠ 0 ∧ node.objective.excess (mean 0) (mean i) ≤ 2 * 1 := by
  intro node mean
  have hreaches : Reaches ChaCha.Stream (ofCosts [number 0, high, number 5] .minimize true) node :=
    Reaches.start.after _
  have hconverged : node.hasConverged .mean (number 1) (number (1 / 2)) = true := by decide +kernel
  have hleader : node.leader = some (0, number 2) := by decide +kernel
  obtain ⟨leader, hl⟩ : ∃ leader, node.arms[0]? = some leader :=
    Option.isSome_iff_exists.mp (by decide +kernel)
  have hfeasible : ∀ (i : Nat) (arm : Arm (Exact ℚ)), node.arms[i]? = some arm →
      arm.isFeasible = true → arm.Near (number (1 / 2)) (mean i) := by
    have hall : ∀ entry ∈ node.feasible, entry.2.Near (number (1 / 2)) (mean entry.1) := by
      decide +kernel
    exact fun i arm ha hf => hall (i, arm) (mem_feasible.mpr ⟨ha, hf⟩)
  have hf : node.isFeasible 0 = true := by decide +kernel
  rw [isFeasible, hl] at hf
  have hnear := hfeasible 0 leader hl hf
  exact ⟨leader, hleader, hl, hconverged, hnear, hfeasible,
    near_best hreaches hconverged hleader hl hnear hfeasible⟩

end BanditNode

end DcopSearch
