import DcopSearch.Proofs.Bandit.Fair
import DcopSearch.Proofs.Cost.Exact
import DcopSearch.Random.ChaCha
import Mathlib.Order.Bounds.Basic

/-! Which values a method names.  By the scores themselves it is the first of the feasible values with the
best score, and by the optimistic scores the first one of those with the best optimistic score; the latter
is sampled next.  This needs scores that can be compared, equal or infinite as they may be. -/

namespace DcopSearch

open CostArithmetic

variable {K : Type} [CostArithmetic K]

namespace BanditNode

/-- A score of a value in the light of its bound. -/
def optimistic (node : BanditNode K) (score : Arm K → K) (arm : Arm K) : K :=
  node.objective.optimistic (score arm) arm.bound

/-- The feasible values with their scores, in order. -/
def scored (node : BanditNode K) (score : Arm K → K) : List (Nat × K) :=
  node.feasible.map fun entry => (entry.1, score entry.2)

/-- The scores of the feasible values compare with each other. -/
def Ranks (node : BanditNode K) (score : Arm K → K) : Prop :=
  Ordered ((node.scored score).map (·.2))

/-- The value is feasible, and no feasible one has a better score. -/
def Optimal (node : BanditNode K) (score : Arm K → K) (index : Nat) : Prop :=
  ∃ arm, (index, arm) ∈ node.feasible ∧
    ∀ entry ∈ node.feasible, node.objective.improves (score entry.2) (score arm) = false

/-- The entry is the first of the feasible values with the best score, together with this score; there is
none if no value is feasible. -/
structure Names (node : BanditNode K) (score : Arm K → K) (named : Option (Nat × K)) : Prop where
  index : ∀ i, named.map (·.1) = some i ↔ IsLeast {j | node.Optimal score j} i
  score : ∀ entry, named = some entry → node.arms[entry.1]?.map score = some entry.2
  none : named = none ↔ ∀ i, node.isFeasible i = false

variable {node : BanditNode K} {score : Arm K → K}

theorem scored_sorted (node : BanditNode K) (score : Arm K → K) :
    (node.scored score).Pairwise fun entry later => entry.1 < later.1 := by
  have hindices : (node.arms.zipIdx).Pairwise fun entry later => entry.2 < later.2 := by
    rw [← List.pairwise_map, List.zipIdx_map_snd]
    exact List.pairwise_lt_range'
  rw [scored, feasible, List.map_map, List.pairwise_map]
  exact hindices.filter _

theorem scored_eq_nil : node.scored score = [] ↔ ∀ i, node.isFeasible i = false := by
  rw [scored, List.map_eq_nil_iff, feasible_eq_nil]

theorem optimal_iff {index : Nat} : node.Optimal score index ↔
    ∃ entry ∈ node.scored score, entry.1 = index ∧
      ∀ other ∈ node.scored score, node.objective.improves other.2 entry.2 = false := by
  constructor
  · rintro ⟨arm, hm, hbest⟩
    refine ⟨(index, score arm), List.mem_map_of_mem hm, rfl, fun other ho => ?_⟩
    obtain ⟨entry, he, rfl⟩ := List.mem_map.mp ho
    exact hbest entry he
  · rintro ⟨best, hb, rfl, hbest⟩
    obtain ⟨⟨i, arm⟩, hm, rfl⟩ := List.mem_map.mp hb
    exact ⟨arm, hm, fun entry he => hbest (entry.1, score entry.2) (List.mem_map_of_mem he)⟩

/-- Of the scored values the earliest best is the first one that is optimal. -/
theorem isLeast_of_firstBest (h : node.Ranks score) {best : Nat × K}
    (hbest : node.objective.FirstBest (node.scored score) best) :
    IsLeast {i | node.Optimal score i} best.1 := by
  have hnot := hbest.not_improves h
  refine ⟨optimal_iff.mpr ⟨best, hbest.mem, rfl, hnot⟩, fun i hi => ?_⟩
  obtain ⟨entry, he, rfl, hentry⟩ := optimal_iff.mp hi
  have hsorted := node.scored_sorted score
  obtain ⟨before, after, hsplit, hbefore, -⟩ := hbest
  rw [hsplit, List.mem_append, List.mem_cons] at he
  rcases he with he | rfl | he
  · -- one that comes before is not optimal, since the best one improves on it
    have hkept := hentry best (by simp [hsplit])
    rw [hbefore entry he] at hkept
    cases hkept
  · exact Nat.le_refl _
  · rw [hsplit] at hsorted
    exact Nat.le_of_lt ((List.pairwise_cons.mp (List.pairwise_append.mp hsorted).2.1).1 entry he)

theorem names_earliestBest (h : node.Ranks score) :
    node.Names score (node.objective.earliestBest (node.scored score)) := by
  have hnone : node.objective.earliestBest (node.scored score) = none
      ↔ ∀ i, node.isFeasible i = false := Objective.earliestBest_eq_none.trans scored_eq_nil
  have hleast : ∀ best, node.objective.earliestBest (node.scored score) = some best →
      IsLeast {i | node.Optimal score i} best.1 :=
    fun best hbest => isLeast_of_firstBest h (Objective.firstBest_of_earliestBest h hbest)
  refine ⟨fun i => ⟨fun hi => ?_, fun hi => ?_⟩, fun entry he => ?_, hnone⟩
  · obtain ⟨best, hbest, rfl⟩ := Option.map_eq_some_iff.mp hi
    exact hleast best hbest
  · cases hbest : node.objective.earliestBest (node.scored score) with
    | none =>
      obtain ⟨arm, hm, -⟩ := hi.1
      have hf := isFeasible_of_mem_feasible hm
      rw [hnone.mp hbest] at hf
      cases hf
    | some best => exact congrArg some ((hleast best hbest).unique hi)
  · obtain ⟨⟨i, arm⟩, hm, rfl⟩ := List.mem_map.mp (Objective.mem_of_earliestBest he)
    rw [(mem_feasible.mp hm).1]
    rfl

/-- Exact scores can be compared if none is undefined. -/
theorem ranks_of_defined {F : Type} [Field F] [LinearOrder F] [LnSqrt F]
    {node : BanditNode (Exact F)} {score : Arm (Exact F) → Exact F}
    (h : ∀ entry ∈ node.scored score, entry.2 ≠ .undefined) : node.Ranks score := by
  refine Exact.ordered fun hm => ?_
  obtain ⟨entry, he, hundefined⟩ := List.mem_map.mp hm
  exact h entry he hundefined

variable {G : Type} [Generator G]

/-- By its scores a method other than chance leads with the first of the best feasible values, and it
selects the first of those that are best in the light of their bounds.  Where the choice is left to
chance, the first value with the best total leads and any feasible value is selected. -/
theorem picks_earliest (node : BanditNode K) (generator : G) :
    (∀ method : SamplingMethod, method ≠ .random →
      node.Ranks method.score → node.Ranks (node.optimistic method.score) →
      node.Names method.score (method.process node).leader ∧
        node.Names (node.optimistic method.score) (method.process node).next ∧
        (method.select (method.process node) generator).1
          = (method.process node).next.map (·.1)) ∧
    (SamplingMethod.random.process node).leader = (SamplingMethod.best.process node).leader ∧
    ((∃ i, (SamplingMethod.random.select node generator).1 = some i ∧ node.isFeasible i = true) ∨
      (SamplingMethod.random.select node generator).1 = none ∧
        ∀ i, node.isFeasible i = false) := by
  refine ⟨fun method hmethod hscores hoptimistic => ?_, rfl, select_random node generator⟩
  have hnext : node.Names (node.optimistic method.score) (method.process node).next := by
    have hnames := names_earliestBest hoptimistic
    cases method with
    | mean | best => exact hnames
    | random => exact absurd rfl hmethod
  refine ⟨names_earliestBest hscores, hnext, ?_⟩
  have hselect : (method.select (method.process node) generator).1
      = ((method.process node).next.map (·.1)).or (node.feasible.map (·.1)).head? := by
    cases method with
    | mean | best => rfl
    | random => exact absurd rfl hmethod
  rw [hselect]
  cases hn : (method.process node).next with
  | some entry => rfl
  | none =>
    rw [feasible_eq_nil.mpr (hnext.none.mp hn)]
    rfl

/-- The last two of the feasible values have the same mean; before the first visit all are equally
promising. -/
theorem picks_earliest_tied :
    let node : BanditNode (Exact ℚ) :=
      ofCosts [.number 1, .high, .number 0, .number 0] .minimize true
    node.Ranks Arm.mean ∧ node.Ranks (node.optimistic Arm.mean) ∧
      IsLeast {j | node.Optimal Arm.mean j} 2 ∧
      IsLeast {j | node.Optimal (node.optimistic Arm.mean) j} 0 ∧
      (SamplingMethod.mean.select (SamplingMethod.mean.process node)
        (Generator.ofSeed 1 : ChaCha.Stream)).1 = some 0 := by
  intro node
  have hscores : node.Ranks Arm.mean := ranks_of_defined (by decide +kernel)
  have hoptimistic : node.Ranks (node.optimistic Arm.mean) := ranks_of_defined (by decide +kernel)
  obtain ⟨hleader, hnext, hselect⟩ :=
    (picks_earliest node (Generator.ofSeed 1 : ChaCha.Stream)).1 .mean (by decide) hscores hoptimistic
  have hzero : (SamplingMethod.mean.process node).next.map (·.1) = some 0 := by decide +kernel
  exact ⟨hscores, hoptimistic, (hleader.index 2).mp (by decide +kernel), (hnext.index 0).mp hzero,
    hselect.trans hzero⟩

end BanditNode

end DcopSearch
