import DcopSearch.Proofs.Bandit.Fair
import DcopSearch.Proofs.Cost.Preferred

/-! What a node learns about its values.  As long as all reports about a value are one and the same
number, the average of the value is this number from the first report on, and its best total is what
the number and the value's own cost come to.  So once every value has been drawn, the leading one is the
best, whatever the method looks at. -/

namespace DcopSearch

open CostArithmetic Exact

variable {F : Type} [Field F] [LinearOrder F] [LnSqrt F]

namespace Arm

/-- The statistics are those of the report. -/
structure Tells (report : Exact F) (arm : Arm (Exact F)) : Prop where
  average : arm.average = report
  best : arm.best = report + arm.localCost

/-- Nothing was reported yet. -/
structure Fresh (objective : Objective) (arm : Arm (Exact F)) : Prop where
  average : arm.average = number 0
  best : arm.best = objective.worst

variable {objective : Objective} {arm : Arm (Exact F)} {report : Exact F}

theorem Tells.score_eq (h : arm.Tells report) (method : SamplingMethod) :
    method.score arm = report + arm.localCost := by
  cases method with
  | mean => rw [SamplingMethod.score, Arm.mean, h.average]
  | best => exact h.best
  | random => exact h.best

theorem improves_worst (objective : Objective) (a : F) :
    objective.improves (number a) (objective.worst : Exact F) = true := by
  cases objective <;> rfl

theorem improves_self (objective : Objective) (a : F) :
    objective.improves (number a : Exact F) (number a) = false :=
  (objective.prefers_iff a a).mp (objective.prefers_self a)

/-- The first report makes the statistics, and the same report does not change them. -/
theorem tells_store [IsStrictOrderedRing F] {r c : F} (hc : arm.localCost = number c)
    (h : arm.Tells (number r) ∨ arm.Fresh objective ∧ arm.visits ≤ 1) :
    (arm.store objective (number r)).Tells (number r) := by
  have hdiv : ∀ (x : F) {n : Nat}, n ≠ 0 →
      (number r - number x) / (ofNat n : Exact F) = number ((r + -x) / n) := fun x n hn =>
    if_neg (Nat.cast_ne_zero.mpr hn)
  refine ⟨?_, ?_⟩
  · show arm.average + (number r - arm.average) / ofNat (max arm.visits 1) = number r
    rcases h with h | ⟨h, hv⟩
    · rw [h.average, hdiv r (by omega), add_neg_cancel, zero_div, number_add, add_zero]
    · rw [h.average, max_eq_right hv, hdiv 0 one_ne_zero, number_add]
      simp
  · show (if objective.improves (number r + arm.localCost) arm.best then number r + arm.localCost
        else arm.best) = number r + arm.localCost
    rw [hc, number_add]
    rcases h with h | ⟨h, -⟩
    · rw [h.best, hc, number_add, improves_self, if_neg Bool.false_ne_true]
    · rw [h.best, improves_worst, if_pos rfl]

end Arm

namespace BanditNode

/-- The leading value is the best one, by the reports and the costs of the values. -/
def Led (report : Nat → Exact F) (node : BanditNode (Exact F)) : Prop :=
  ∃ i score cost, node.leader = some (i, score) ∧ node.costs[i]? = some cost ∧
    ∀ j other, node.costs[j]? = some other →
      node.objective.Prefers (report i + cost) (report j + other)

/-- The node knows the reports about the values that were drawn before.  The report about the pending
value is still to come. -/
structure Learns (report : Nat → Exact F) (pending : Option Nat) (node : BanditNode (Exact F)) :
    Prop where
  numbers : ∀ cost ∈ node.costs, ∃ c, cost = number c
  known : ∀ i arm, node.arms[i]? = some arm → arm.Tells (report i) ∨ arm.Fresh node.objective ∧
    (i ∈ node.unexplored ∧ arm.visits = 0 ∨ pending = some i ∧ arm.visits = 1)
  unexplored : pending = none → node.exploring = true → node.unexplored ≠ []
  led : node.exploring = false → node.Led report

variable {report : Nat → Exact F} {pending : Option Nat} {node : BanditNode (Exact F)} {n : Nat}

theorem Learns.exists_number (h : node.Learns report pending) {i : Nat} {arm : Arm (Exact F)}
    (ha : node.arms[i]? = some arm) : ∃ c, arm.localCost = number c :=
  h.numbers _ (List.mem_map_of_mem (List.mem_of_getElem? ha))

theorem Learns.isFeasible (h : node.Learns report pending) {i : Nat} (hi : i < node.arms.length) :
    node.isFeasible i = true := by
  obtain ⟨c, hc⟩ := h.exists_number (List.getElem?_eq_getElem hi)
  rw [BanditNode.isFeasible, List.getElem?_eq_getElem hi, Option.any_some, Arm.isFeasible, hc]
  rfl

/-- A new node has everything to learn. -/
theorem learns_ofCosts {costs : List (Exact F)} (hne : costs ≠ [])
    (h : ∀ cost ∈ costs, ∃ c, cost = number c) (report : Nat → Exact F) (objective : Objective)
    (ignoreInfeasible : Bool) : (ofCosts costs objective ignoreInfeasible).Learns report none := by
  refine ⟨by rwa [costs_ofCosts], fun i arm ha => .inr ?_, fun _ _ => ?_, by simp [ofCosts]⟩
  · obtain ⟨cost, hc, rfl⟩ : ∃ cost, costs[i]? = some cost ∧ Arm.unsampled objective cost = arm := by
      simpa [ofCosts] using ha
    have hi : i < costs.length := (List.getElem?_eq_some_iff.mp hc).1
    exact ⟨⟨Exact.zero_eq.symm, rfl⟩, .inl ⟨List.mem_range.mpr hi, rfl⟩⟩
  · have hlen : costs.length ≠ 0 := by simpa using hne
    simpa [ofCosts] using hlen

/-- A value that is drawn has its report pending. -/
theorem Learns.visit (h : node.Learns report none) {index : Nat} {rest : List Nat}
    (hrest : ∀ i ∈ node.unexplored, i = index ∨ i ∈ rest) :
    Learns report (some index) ({ node with unexplored := rest }.countVisit index) := by
  have hcosts : ({ node with unexplored := rest }.countVisit index).costs = node.costs :=
    costs_countVisit _ index
  refine ⟨hcosts ▸ h.numbers, fun i arm ha => ?_, by simp, fun hx => ?_⟩
  · have ha : (node.arms.modify index fun arm => { arm with visits := arm.visits + 1 })[i]?
        = some arm := ha
    rw [List.getElem?_modify] at ha
    obtain ⟨old, hold, rfl⟩ := Option.map_eq_some_iff.mp ha
    rcases h.known i old hold with htells | ⟨hfresh, hu⟩
    · refine .inl ?_
      split
      · exact ⟨htells.average, htells.best⟩
      · exact htells
    · obtain ⟨hi, hv⟩ := hu.resolve_right (by simp)
      refine .inr ?_
      by_cases he : index = i
      · rw [if_pos he]
        exact ⟨⟨hfresh.average, hfresh.best⟩, .inr ⟨congrArg some he, by rw [hv]⟩⟩
      · rw [if_neg he]
        exact ⟨hfresh, .inl ⟨(hrest i hi).resolve_left (Ne.symm he), hv⟩⟩
  · obtain ⟨i, score, cost, hl, hc, hbest⟩ := h.led hx
    rw [← hcosts] at hc hbest
    exact ⟨i, score, cost, hl, hc, hbest⟩

theorem Learns.recordVisit (h : node.Learns report pending) (formula : BoundFormula) :
    (node.recordVisit formula).Learns report pending := by
  have hcosts := costs_recordVisit node formula
  refine ⟨hcosts ▸ h.numbers, fun i arm ha => ?_, h.unexplored, fun hx => ?_⟩
  · obtain ⟨old, hold, rfl⟩ : ∃ old, node.arms[i]? = some old ∧
        { old with bound := formula.value old.visits (node.frequency + 1) } = arm := by
      simpa [BanditNode.recordVisit] using ha
    rcases h.known i old hold with ht | ⟨hf, hu⟩
    · exact .inl ⟨ht.average, ht.best⟩
    · exact .inr ⟨⟨hf.average, hf.best⟩, hu⟩
  · obtain ⟨i, score, cost, hl, hc, hbest⟩ := h.led hx
    rw [← hcosts] at hc hbest
    exact ⟨i, score, cost, hl, hc, hbest⟩

/-- All values being feasible, one that was not drawn yet is drawn if there is one. -/
theorem drawUnexplored_eq {G : Type} [Generator G] (hall : ∀ i ∈ node.unexplored,
      node.isFeasible i = true) (hne : node.unexplored ≠ []) (generator : G) :
    ∃ index rest, (∀ i ∈ node.unexplored, i = index ∨ i ∈ rest) ∧
      (node.drawUnexplored generator).chosen = some index ∧
      (node.drawUnexplored generator).node
        = { node with unexplored := rest }.countVisit index := by
  induction node, generator using drawUnexplored_induction with
  | passed node generator later index rest hperm _ hinfeasible _ _ =>
    have hfeasible := hall index (hperm.mem_iff.mp List.mem_cons_self)
    rw [hinfeasible] at hfeasible
    cases hfeasible
  | taken node generator later index rest hperm _ hdraw =>
    exact ⟨index, rest, fun i hi => List.mem_cons.mp (hperm.mem_iff.mpr hi), by rw [hdraw],
      by rw [hdraw]⟩
  | spent node generator hnil _ => exact absurd hnil hne

/-- A value is drawn, and its report is pending. -/
theorem Learns.draw {G : Type} [Generator G] (h : node.Learns report none) (hfair : node.Fair)
    (hover : node.Over n) (hn : 0 < n) (method : SamplingMethod) (generator : G) :
    ∃ i, (node.draw method generator).chosen = some i ∧
      (node.draw method generator).node.Learns report (some i) := by
  have hall : ∀ i < n, node.isFeasible i = true := fun i hi => h.isFeasible (hover.arms ▸ hi)
  cases hx : node.exploring with
  | true =>
    obtain ⟨index, rest, hrest, hchosen, hnode⟩ := drawUnexplored_eq
      (fun i hi => hall i (hover.unexplored i hi)) (h.unexplored rfl hx) generator
    have hdraw : node.draw method generator = node.drawUnexplored generator := by
      rw [BanditNode.draw, if_pos hx]
      exact if_pos (by simp [hchosen])
    rw [hdraw, hnode]
    exact ⟨index, hchosen, h.visit hrest⟩
  | false =>
    have hcount : node.feasibleCount ≠ 0 := by
      intro hzero
      have := hfair.isFeasible_eq_false hzero 0
      rw [hall 0 hn] at this
      cases this
    have hdraw : node.draw method generator = node.drawSelected method generator := by
      rw [BanditNode.draw, if_neg (by simp [hx]), if_neg (by simpa using hcount)]
    have hnone := (hfair.drawSelected method hx generator).none
    rw [hdraw]
    unfold BanditNode.drawSelected at hnone ⊢
    split
    next hs =>
      rw [hs] at hnone
      have := hnone rfl 0
      rw [hall 0 hn] at this
      cases this
    next index _ _ => exact ⟨index, rfl, h.visit fun _ => .inr⟩

/-- The leader of a node that knows all reports is the best value. -/
theorem led_process (h : ∀ i (arm : Arm (Exact F)), node.arms[i]? = some arm → arm.Tells (report i))
    (hnumbers : ∀ cost ∈ node.costs, ∃ c, cost = number c)
    (hreports : ∀ i, ∃ r, report i = number r) (hne : node.arms ≠ []) (method : SamplingMethod) :
    (method.process node).Led report := by
  have hlocal : ∀ {i} {arm : Arm (Exact F)}, node.arms[i]? = some arm →
      ∃ c, arm.localCost = number c := fun ha =>
    hnumbers _ (List.mem_map_of_mem (List.mem_of_getElem? ha))
  have hfeasible : ∀ {i} {arm : Arm (Exact F)}, node.arms[i]? = some arm →
      (i, arm) ∈ node.feasible := by
    intro i arm ha
    obtain ⟨c, hc⟩ := hlocal ha
    exact mem_feasible.mpr ⟨ha, by rw [Arm.isFeasible, hc]; rfl⟩
  have hscore : ∀ {i} {arm : Arm (Exact F)}, node.arms[i]? = some arm →
      method.score arm = report i + arm.localCost := fun ha => (h _ _ ha).score_eq method
  obtain ⟨best, hbest⟩ : ∃ best, node.objective.earliestBest
      (node.feasible.map fun entry => (entry.1, method.score entry.2)) = some best := by
    rw [← Option.isSome_iff_exists, Option.isSome_iff_ne_none, Ne, Objective.earliestBest_eq_none]
    obtain ⟨first, rest, hcons⟩ := List.exists_cons_of_ne_nil hne
    have hm := hfeasible (show node.arms[0]? = some first by rw [hcons]; rfl)
    exact List.ne_nil_of_mem (List.mem_map_of_mem hm)
  have hpriced : ∀ scored ∈ node.feasible.map fun entry => (entry.1, method.score entry.2),
      ∃ a, scored.2 = number a := by
    intro scored hs
    obtain ⟨entry, hm, rfl⟩ := List.mem_map.mp hs
    obtain ⟨ha, -⟩ := mem_feasible.mp hm
    obtain ⟨r, hr⟩ := hreports entry.1
    obtain ⟨c, hc⟩ := hlocal ha
    exact ⟨r + c, by rw [hscore ha, hr, hc, number_add]⟩
  obtain ⟨entry, hm, rfl⟩ : ∃ entry ∈ node.feasible, (entry.1, method.score entry.2) = best :=
    List.mem_map.mp (Objective.mem_of_earliestBest hbest)
  obtain ⟨hentry, -⟩ := mem_feasible.mp hm
  refine ⟨entry.1, _, entry.2.localCost, hbest, ?_, fun j other hj => ?_⟩
  · rw [costs_process, getElem?_costs, hentry, Option.map_some]
  · obtain ⟨arm, ha, rfl⟩ := Option.map_eq_some_iff.mp ((node.getElem?_costs j).symm.trans hj)
    have hprefers := Objective.earliestBest_prefers hpriced hbest (j, method.score arm)
      (List.mem_map_of_mem (f := fun entry : Nat × Arm (Exact F) => (entry.1, method.score entry.2))
        (hfeasible ha))
    rw [hscore ha, hscore hentry] at hprefers
    exact hprefers

theorem storeCost_eq {index : Nat} {arm : Arm (Exact F)} (ha : node.arms[index]? = some arm)
    (hf : arm.isFeasible = true) (cost : Exact F) :
    (node.storeCost index cost).2 = { node with
      arms := node.arms.set index (arm.store node.objective cost)
      exploring := node.exploring && !node.unexplored.isEmpty } := by
  have ha : node.refreshExploring.arms[index]? = some arm := ha
  simp only [BanditNode.storeCost, BanditNode.credit, ha, hf, if_true]
  rfl

/-- The pending report makes the statistics of its value. -/
theorem Learns.known_storeCost [IsStrictOrderedRing F] {index : Nat}
    (h : node.Learns report (some index)) (hreports : ∀ i, ∃ r, report i = number r)
    (hlt : index < node.arms.length) (hdrawn : index ∉ node.unexplored) {i : Nat}
    {arm : Arm (Exact F)} (ha : (node.storeCost index (report index)).2.arms[i]? = some arm) :
    arm.Tells (report i) ∨ arm.Fresh node.objective ∧ i ∈ node.unexplored ∧ arm.visits = 0 := by
  have hold := List.getElem?_eq_getElem hlt
  obtain ⟨c, hc⟩ := h.exists_number hold
  obtain ⟨r, hr⟩ := hreports index
  rw [storeCost_eq hold (by rw [Arm.isFeasible, hc]; rfl)] at ha
  simp only [List.getElem?_set] at ha
  split at ha
  next he =>
    subst he
    obtain rfl := Option.some.inj ha
    refine .inl ?_
    rw [hr]
    refine Arm.tells_store hc ?_
    rw [← hr]
    refine (h.known index _ hold).imp_right fun ⟨hfresh, hu⟩ => ⟨hfresh, ?_⟩
    rcases hu with ⟨hi, -⟩ | ⟨-, hv⟩
    · exact absurd hi hdrawn
    · exact hv.le
  next hne =>
    refine (h.known i arm ha).imp_right fun ⟨hfresh, hu⟩ => ⟨hfresh, hu.resolve_right ?_⟩
    rintro ⟨he, -⟩
    exact hne (Option.some.inj he)

/-- The pending report completes what the node knows. -/
theorem Learns.storeCost [IsStrictOrderedRing F] {index : Nat} (h : node.Learns report (some index))
    (hexplored : node.exploring = false → node.unexplored = [])
    (hreports : ∀ i, ∃ r, report i = number r) (hlt : index < node.arms.length)
    (hdrawn : index ∉ node.unexplored) (method : SamplingMethod) :
    Learns report none (if (node.storeCost index (report index)).2.exploring
      then (node.storeCost index (report index)).2
      else method.process (node.storeCost index (report index)).2) := by
  have hknown : ∀ i (arm : Arm (Exact F)),
      (node.storeCost index (report index)).2.arms[i]? = some arm →
        arm.Tells (report i) ∨ arm.Fresh node.objective ∧ i ∈ node.unexplored ∧ arm.visits = 0 :=
    fun _ _ => h.known_storeCost hreports hlt hdrawn
  have hcosts := costs_storeCost node index (report index)
  have hlength := length_arms_storeCost node index (report index)
  obtain ⟨hobjective, hunexplored, hexploring⟩ :
      (node.storeCost index (report index)).2.objective = node.objective ∧
      (node.storeCost index (report index)).2.unexplored = node.unexplored ∧
      (node.storeCost index (report index)).2.exploring
        = (node.exploring && !node.unexplored.isEmpty) := by
    rw [storeCost_eq (List.getElem?_eq_getElem hlt) (by
      obtain ⟨c, hc⟩ := h.exists_number (List.getElem?_eq_getElem hlt)
      rw [Arm.isFeasible, hc]
      rfl)]
    exact ⟨rfl, rfl, rfl⟩
  generalize (node.storeCost index (report index)).2 = next at *
  cases hx : next.exploring with
  | true =>
    rw [if_pos rfl]
    refine ⟨hcosts ▸ h.numbers, fun i arm ha => ?_, fun _ _ hnil => ?_, by simp [hx]⟩
    · rw [hobjective, hunexplored]
      exact (hknown i arm ha).imp_right fun ⟨hfresh, hu⟩ => ⟨hfresh, .inl hu⟩
    · rw [hx, ← hunexplored, hnil] at hexploring
      simp at hexploring
  | false =>
    rw [if_neg Bool.false_ne_true]
    -- this was the last value to hear of, so that the leader is chosen among all
    have hnil : node.unexplored = [] := by
      rw [hx] at hexploring
      rcases (Bool.and_eq_false_iff).mp hexploring.symm with he | he
      · exact hexplored he
      · simpa using he
    have hall : ∀ i (arm : Arm (Exact F)), next.arms[i]? = some arm → arm.Tells (report i) :=
      fun i arm ha => (hknown i arm ha).resolve_right (by simp [hnil])
    refine ⟨hcosts ▸ h.numbers, fun i arm ha => .inl (hall i arm ha), fun _ he => ?_, fun _ => ?_⟩
    · exact absurd he (by simp [SamplingMethod.process, hx])
    · refine led_process hall (hcosts ▸ h.numbers) hreports ?_ method
      rw [ne_eq, ← List.length_eq_zero_iff, hlength]
      omega

end BanditNode

end DcopSearch
