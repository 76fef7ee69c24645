import DcopSearch.Proofs.Bandit.Draws
import DcopSearch.Proofs.Bandit.Statistics
import DcopSearch.Random.ChaCha
import Mathlib.Algebra.BigOperators.Group.Finset.Basic

/-! The statistics of a node, round by round.  In a round a value is drawn, the visit is recorded, and the
cost that is reported for the value is stored, or the value is given up.  A value not yet drawn has had no
report, and any other one has, unless it was passed over; so a method is asked only when each feasible
value has had one. -/

namespace DcopSearch

open CostArithmetic Exact

section

variable {K : Type} [CostArithmetic K]

namespace BanditNode

/-- What comes of the visit of a value: the cost that was reported is stored, and without one the value is
given up. -/
def credited (node : BanditNode K) (index : Nat) : Option K → BanditNode K
  | some cost => (node.storeCost index cost).2
  | none => node.prune index

/-- The end of a round: once the node does not explore any more, leader and next value are taken anew. -/
def conclude (node : BanditNode K) (method : SamplingMethod) (index : Nat) (report : Option K) :
    BanditNode K :=
  if (node.credited index report).exploring then node.credited index report
  else method.process (node.credited index report)

/-- Nothing changes but the arm of the value. -/
theorem getElem?_credited (node : BanditNode K) (index : Nat) (report : Option K) (i : Nat) :
    (node.credited index report).arms[i]?
      = node.arms[i]?.map fun arm => if index = i then arm.credited node.objective report else arm := by
  have hrefreshed : node.refreshExploring.arms = node.arms := rfl
  have hobjective : node.refreshExploring.objective = node.objective := rfl
  cases report with
  | some cost =>
    rw [credited, storeCost, credit, hrefreshed, hobjective]
    split
    next hnone =>
      rw [hrefreshed]
      by_cases hi : index = i
      · rw [← hi, hnone, Option.map_none]
      · simp [hi]
    next arm ha =>
      by_cases hi : index = i
      · subst hi
        obtain ⟨hlt, -⟩ := List.getElem?_eq_some_iff.mp ha
        rw [ha, Option.map_some, if_pos rfl, Arm.credited]
        split
        · simp [hlt]
        · rw [hrefreshed, ha]
      · split <;> simp [hi, hrefreshed]
  | none =>
    rw [credited, prune, exclude, isFeasible, hrefreshed, hobjective]
    by_cases hi : index = i
    · subst hi
      cases ha : node.arms[index]? with
      | none => simp [ha, hrefreshed]
      | some arm =>
        obtain ⟨hlt, harm⟩ := List.getElem?_eq_some_iff.mp ha
        rw [Option.any_some, Option.map_some, if_pos rfl, Arm.credited]
        split
        · simp [hlt, harm]
        · rw [hrefreshed, ha]
    · split <;> simp [hi, hrefreshed]

/-- What a credit leaves. -/
theorem credited_frame (node : BanditNode K) (index : Nat) (report : Option K) :
    (node.credited index report).frequency = node.frequency ∧
      (node.credited index report).ignoreInfeasible = node.ignoreInfeasible := by
  cases report with
  | some cost =>
    rw [credited, storeCost, credit_eq]
    exact ⟨rfl, rfl⟩
  | none =>
    rw [credited, prune, exclude_eq]
    exact ⟨rfl, rfl⟩

theorem conclude_frame (node : BanditNode K) (method : SamplingMethod) (index : Nat)
    (report : Option K) :
    (node.conclude method index report).arms = (node.credited index report).arms ∧
      (node.conclude method index report).unexplored = (node.credited index report).unexplored ∧
      (node.conclude method index report).frequency = node.frequency ∧
      (node.conclude method index report).ignoreInfeasible = node.ignoreInfeasible := by
  obtain ⟨hfrequency, hignore⟩ := node.credited_frame index report
  unfold conclude
  split <;> exact ⟨rfl, rfl, hfrequency, hignore⟩

variable {n : Nat} {node : BanditNode K}

theorem Steady.credited (h : node.Steady n) {index : Nat} (hi : index ∉ node.unexplored)
    (hworst : isInfinite (node.objective.worst : K) = true) (report : Option K) :
    node.Revised n (if report.isNone then some index else none) (node.credited index report) := by
  cases report with
  | some cost => exact h.storeCost index cost
  | none => exact h.prune hi hworst

variable {G : Type} {draw : Draw K G}

/-- The arms after a draw, once the visit of the node is recorded. -/
theorem getElem?_visited (h : node.DrawsOnce draw) {index : Nat} (hchosen : draw.chosen = some index)
    (formula : BoundFormula) (i : Nat) :
    (draw.node.recordVisit formula).arms[i]? = node.arms[i]?.map
      (·.visited formula (node.frequency + 1) (if index = i then 1 else 0)) := by
  simp only [recordVisit, h.arms, hchosen, Option.elim_some, countVisit, h.frequency,
    List.getElem?_map, List.getElem?_modify]
  cases node.arms[i]? with
  | none => rfl
  | some arm => by_cases hi : index = i <;> simp [hi, Arm.visited]

end BanditNode

end

variable {F : Type} [Field F] [LinearOrder F] [LnSqrt F]

namespace BanditNode

/-- The node after rounds, the latest first, of each of which the value that was drawn is known and the
cost that was reported for it; without one it was given up.  Method, formula and generator may be others
in each round. -/
inductive Played (G : Type) [Generator G] (first : BanditNode (Exact F)) :
    List (Nat × Option F) → BanditNode (Exact F) → Prop
  | start : Played G first [] first
  | round {rounds : List (Nat × Option F)} {node : BanditNode (Exact F)}
      (earlier : Played G first rounds node) (method : SamplingMethod) (formula : BoundFormula)
      (generator : G) (index : Nat) (report : Option F)
      (chosen : (node.draw method generator).chosen = some index) :
      Played G first ((index, report) :: rounds)
        (((node.draw method generator).node.recordVisit formula).conclude method index
          (report.map number))

/-- The reports for a value. -/
def reportsFor (i : Nat) (rounds : List (Nat × Option F)) : List (Option F) :=
  (rounds.filter fun round => round.1 == i).map Prod.snd

omit [Field F] [LinearOrder F] [LnSqrt F] in
theorem reportsFor_cons (i index : Nat) (report : Option F) (rounds : List (Nat × Option F)) :
    reportsFor i ((index, report) :: rounds)
      = if index = i then report :: reportsFor i rounds else reportsFor i rounds := by
  by_cases hi : index = i <;> simp [reportsFor, hi]

omit [Field F] [LinearOrder F] [LnSqrt F] in
theorem length_reportsFor (i : Nat) (rounds : List (Nat × Option F)) :
    (reportsFor i rounds).length = (rounds.map Prod.fst).count i := by
  rw [reportsFor, List.length_map, List.count, List.countP_map, ← List.countP_eq_length_filter]
  rfl

omit [Field F] [LinearOrder F] [LnSqrt F] in
/-- A value has reports just if it was drawn before. -/
theorem reportsFor_ne_nil {i : Nat} {rounds : List (Nat × Option F)} :
    reportsFor i rounds ≠ [] ↔ i ∈ rounds.map Prod.fst := by
  rw [← List.length_pos_iff, length_reportsFor, List.count_pos_iff]

/-- What a node keeps to in its rounds. -/
structure Becomes (first : BanditNode (Exact F)) (rounds : List (Nat × Option F))
    (node : BanditNode (Exact F)) : Prop where
  steady : node.Steady first.arms.length
  objective : node.objective = first.objective
  ignoring : node.ignoreInfeasible = first.ignoreInfeasible
  frequency : node.frequency = rounds.length
  drawn : ∀ round ∈ rounds, round.1 < first.arms.length
  accounts : ∀ (i : Nat) (arm : Arm (Exact F)) (cost : Exact F), node.arms[i]? = some arm →
    first.costs[i]? = some cost → arm.Accounts first.objective cost (reportsFor i rounds)
  /-- A value not yet drawn has no report. -/
  waiting : ∀ i ∈ node.unexplored, reportsFor i rounds = []
  /-- Any other one has, unless it has been passed over. -/
  taken : ∀ i < first.arms.length, i ∉ node.unexplored →
    reportsFor i rounds ≠ [] ∨ first.ignoreInfeasible = true ∧ first.isFeasible i = false

variable {first node : BanditNode (Exact F)} {rounds : List (Nat × Option F)}

theorem becomes_ofCosts (costs : List (Exact F)) (objective : Objective) (ignoreInfeasible : Bool) :
    (ofCosts costs objective ignoreInfeasible).Becomes [] (ofCosts costs objective ignoreInfeasible) where
  steady := by
    have hlength : (ofCosts costs objective ignoreInfeasible).arms.length = costs.length := by
      simp [ofCosts]
    rw [hlength]
    exact steady_ofCosts costs objective ignoreInfeasible
  objective := rfl
  ignoring := rfl
  frequency := rfl
  drawn := by simp
  accounts i arm cost ha hc := by
    obtain ⟨own, hown, rfl⟩ : ∃ own, costs[i]? = some own ∧ Arm.unsampled objective own = arm := by
      simpa [ofCosts] using ha
    rw [costs_ofCosts, hown] at hc
    obtain rfl := Option.some.inj hc
    exact Arm.accounts_unsampled objective own
  waiting _ _ := rfl
  taken i hi hnot := absurd (List.mem_range.mpr (by simpa [ofCosts] using hi)) hnot

theorem Becomes.exists_cost (h : first.Becomes rounds node) {i : Nat} {arm : Arm (Exact F)}
    (ha : node.arms[i]? = some arm) :
    ∃ cost, first.costs[i]? = some cost ∧
      arm.Accounts first.objective cost (reportsFor i rounds) := by
  obtain ⟨hlt, -⟩ := List.getElem?_eq_some_iff.mp ha
  have hcost : i < first.costs.length := by rwa [length_costs, ← h.steady.sized.arms]
  exact ⟨_, List.getElem?_eq_getElem hcost, h.accounts i arm _ ha (List.getElem?_eq_getElem hcost)⟩

/-- As long as a value is not given up it is as feasible as it was. -/
theorem Becomes.feasible_as_before (h : first.Becomes rounds node) {i : Nat}
    (hi : none ∉ reportsFor i rounds) : node.isFeasible i = first.isFeasible i := by
  cases ha : node.arms[i]? with
  | none =>
    have hout : first.arms[i]? = none := by
      rw [List.getElem?_eq_none_iff] at ha ⊢
      rwa [← h.steady.sized.arms]
    rw [isFeasible, isFeasible, ha, hout]
  | some arm =>
    obtain ⟨cost, hcost, haccounts⟩ := h.exists_cost ha
    rw [isFeasible_eq first, hcost, isFeasible, ha, Option.any_some, Option.any_some, Arm.isFeasible,
      haccounts.localCost hi]

/-- Of a feasible value that was not passed over, all that is looked at is finite. -/
theorem Becomes.measured [IsStrictOrderedRing F] (hln : ∀ x : F, 1 ≤ x → 0 ≤ LnSqrt.ln x)
    (h : first.Becomes rounds node) (hcosts : ∀ cost ∈ first.costs, cost ≠ undefined)
    (hpassed : ∀ i ∈ node.unexplored, node.isFeasible i = false) {i : Nat} {arm : Arm (Exact F)}
    (ha : node.arms[i]? = some arm) (hf : arm.isFeasible = true) :
    (reportsFor i rounds).reduceOption ≠ [] ∧ arm.Measured := by
  obtain ⟨cost, hcost, haccounts⟩ := h.exists_cost ha
  have hdefined := hcosts cost (List.mem_of_getElem? hcost)
  obtain ⟨hnone, -⟩ := haccounts.exists_number hdefined hf
  have hfeasible : node.isFeasible i = true := by rwa [isFeasible, ha, Option.any_some]
  have hdrawn : i ∉ node.unexplored := by
    intro hm
    rw [hpassed i hm] at hfeasible
    cases hfeasible
  have hlt : i < first.arms.length := h.steady.sized.arms ▸ index_lt_of_isFeasible hfeasible
  have hsome : reportsFor i rounds ≠ [] := by
    refine (h.taken i hlt hdrawn).resolve_right fun hignored => ?_
    rw [← h.feasible_as_before hnone, hfeasible] at hignored
    cases hignored.2
  exact haccounts.measured hln hdefined hsome hf

section

variable {G : Type} [Generator G] {generator : G} {index : Nat}

/-- A value is chosen again only if each of those that are to be chosen was. -/
theorem Becomes.once (h : first.Becomes rounds node) (method : SamplingMethod)
    (hchosen : (node.draw method generator).chosen = some index)
    (hagain : reportsFor index rounds ≠ []) {i : Nat} (hi : i < first.arms.length)
    (hf : first.ignoreInfeasible = true → first.isFeasible i = true) : reportsFor i rounds ≠ [] := by
  have honce := drawsOnce_draw node method generator
  have hnil := (h.steady.chosen_fresh method hchosen).resolve_left
    fun hm => hagain (h.waiting index hm)
  by_cases hm : i ∈ node.unexplored
  · rcases honce.left i hm with hc | hleft | ⟨hignore, hpassed⟩
    · obtain rfl := Option.some.inj (hchosen.symm.trans hc)
      exact hagain
    · rw [hnil] at hleft
      cases hleft
    · rw [h.feasible_as_before (by simp [h.waiting i hm]), hf (h.ignoring ▸ hignore)] at hpassed
      cases hpassed
  · refine (h.taken i hi hm).resolve_right fun hignored => ?_
    rw [hf hignored.1] at hignored
    cases hignored.2

/-- A node that passes over infeasible values chooses feasible ones. -/
theorem Becomes.chosen_feasible (h : first.Becomes rounds node) (method : SamplingMethod)
    (hchosen : (node.draw method generator).chosen = some index)
    (hignore : first.ignoreInfeasible = true) : node.isFeasible index = true := by
  have hself : node.attentive = node := by
    rw [attentive, ← hignore, ← h.ignoring]
  have hfair : node.Fair := hself ▸ h.steady.fair
  exact ((hfair.draw h.steady.sized method generator).chosen index hchosen).1

/-- A round keeps to it. -/
theorem Becomes.round [IsStrictOrderedRing F] (hln : ∀ x : F, 1 ≤ x → 0 ≤ LnSqrt.ln x)
    (h : first.Becomes rounds node) (hcosts : ∀ cost ∈ first.costs, cost ≠ undefined)
    (method : SamplingMethod) (formula : BoundFormula)
    (hchosen : (node.draw method generator).chosen = some index) (report : Option F) :
    first.Becomes ((index, report) :: rounds)
      (((node.draw method generator).node.recordVisit formula).conclude method index
        (report.map number)) := by
  have honce := drawsOnce_draw node method generator
  have hdraw := h.steady.draw method generator
  have hover := h.steady.sized.draw method generator
  obtain ⟨hout, -⟩ := hdraw.chosen index hchosen
  have hvisited := (hdraw.steady.ages_recordVisit formula).steady
  have hrevised := hvisited.credited hout (isInfinite_worst _) (report.map number)
  have hages := hrevised.ages hvisited method
  obtain ⟨harms, hunexplored, hfrequency, hignoring⟩ :=
    ((node.draw method generator).node.recordVisit formula).conclude_frame method index
      (report.map number)
  have hrest := hunexplored.trans hrevised.unexplored
  have hobjective : ((node.draw method generator).node.recordVisit formula).objective
      = first.objective := hover.objective.trans h.objective
  refine {
    steady := hages.steady
    objective := hages.objective.trans hobjective
    ignoring := hignoring.trans (hover.ignoring.trans h.ignoring)
    frequency := ?_
    drawn := List.forall_mem_cons.mpr ⟨hover.chosen index hchosen, h.drawn⟩
    accounts := fun i arm cost ha hc => ?_
    waiting := fun i hi => ?_
    taken := fun i hi hnot => ?_ }
  · rw [hfrequency, List.length_cons, ← h.frequency, ← honce.frequency]
    rfl
  -- every arm sees the visit of the node, the drawn one also the report
  · rw [harms, getElem?_credited, getElem?_visited honce hchosen, hobjective] at ha
    obtain ⟨visited, hv, rfl⟩ := Option.map_eq_some_iff.mp ha
    obtain ⟨old, hold, rfl⟩ := Option.map_eq_some_iff.mp hv
    have haccounts := h.accounts i old cost hold hc
    rw [reportsFor_cons]
    by_cases hi : index = i
    · rw [if_pos hi, if_pos hi, if_pos hi]
      exact haccounts.credited hln (hcosts cost (List.mem_of_getElem? hc)) formula (by omega) report
    · rw [if_neg hi, if_neg hi, if_neg hi]
      exact haccounts.visited hln formula (by omega)
  · have hi : i ∈ (node.draw method generator).node.unexplored := by rwa [hrest] at hi
    have hne : index ≠ i := fun he => hout (he ▸ hi)
    rw [reportsFor_cons, if_neg hne]
    exact h.waiting i (hdraw.unexplored hi)
  · have hnot : i ∉ (node.draw method generator).node.unexplored := by rwa [hrest] at hnot
    rw [reportsFor_cons]
    by_cases he : index = i
    · exact .inl (by simp [he])
    rw [if_neg he]
    by_cases hm : i ∈ node.unexplored
    -- it was to be drawn before the round, so that this draw has passed over it
    · rcases honce.left i hm with hc | hleft | ⟨hignore, hpassed⟩
      · exact absurd (Option.some.inj (hchosen.symm.trans hc)) he
      · exact absurd hleft hnot
      · rw [h.feasible_as_before (by simp [h.waiting i hm])] at hpassed
        exact .inr ⟨h.ignoring ▸ hignore, hpassed⟩
    · exact h.taken i hi hm

/-- So does every run. -/
theorem Played.becomes [IsStrictOrderedRing F] (hln : ∀ x : F, 1 ≤ x → 0 ≤ LnSqrt.ln x)
    (hfirst : first.Becomes [] first) (hcosts : ∀ cost ∈ first.costs, cost ≠ undefined)
    (h : Played G first rounds node) : first.Becomes rounds node := by
  induction h with
  | start => exact hfirst
  | round _ method formula _ _ report chosen ih => exact ih.round hln hcosts method formula chosen report

/-- The visits of all values. -/
theorem Becomes.sum_visits (h : first.Becomes rounds node) :
    ∑ i ∈ Finset.range first.arms.length, node.visits i = rounds.length := by
  have hvisits : ∀ i ∈ Finset.range first.arms.length,
      node.visits i = (rounds.map Prod.fst : Multiset Nat).count i := by
    intro i hi
    have hlt : i < node.arms.length := by
      rw [h.steady.sized.arms]
      exact Finset.mem_range.mp hi
    obtain ⟨cost, -, haccounts⟩ := h.exists_cost (List.getElem?_eq_getElem hlt)
    rw [visits, List.getElem?_eq_getElem hlt, Option.elim_some, haccounts.visits, length_reportsFor,
      Multiset.coe_count]
  have hdrawn : ∀ i ∈ (rounds.map Prod.fst : Multiset Nat), i ∈ Finset.range first.arms.length := by
    intro i hi
    obtain ⟨round, hm, rfl⟩ := List.mem_map.mp (Multiset.mem_coe.mp hi)
    exact Finset.mem_range.mpr (h.drawn round hm)
  rw [Finset.sum_congr rfl hvisits, Multiset.sum_count_eq_card hdrawn, Multiset.coe_card,
    List.length_map]

end

/-- What a node shows after rounds. -/
structure Records (G : Type) [Generator G] (first : BanditNode (Exact F))
    (rounds : List (Nat × Option F)) (node : BanditNode (Exact F)) : Prop where
  /-- It counts the rounds, each of which is a visit of one value. -/
  frequency : node.frequency = rounds.length
  visits : ∑ i ∈ Finset.range first.arms.length, node.visits i = rounds.length
  /-- A value that was chosen before is chosen only when every other one was; one that was infeasible from
  the beginning does not count if such values are passed over. -/
  once : ∀ (method : SamplingMethod) (generator : G) (index : Nat),
    (node.draw method generator).chosen = some index → index ∈ rounds.map Prod.fst →
      ∀ i < first.arms.length, (first.ignoreInfeasible = true → first.isFeasible i = true) →
        i ∈ rounds.map Prod.fst
  /-- What is chosen is feasible then. -/
  feasible : first.ignoreInfeasible = true → ∀ (method : SamplingMethod) (generator : G) (index : Nat),
    (node.draw method generator).chosen = some index → node.isFeasible index = true
  /-- The statistics of a feasible value are those of the costs that were stored for it. -/
  statistics : ∀ (i : Nat) (arm : Arm (Exact F)), node.arms[i]? = some arm → arm.isFeasible = true →
    let stored := (reportsFor i rounds).reduceOption
    first.costs[i]? = some arm.localCost ∧ arm.visits = stored.length ∧
      arm.average = number (stored.sum / stored.length) ∧
      arm.best = first.objective.best (stored.map fun x => number x + arm.localCost)
  /-- When a method is asked, at the end of the last round or in a draw, a cost has been stored for every
  feasible value. -/
  sampled : ∀ asked : BanditNode (Exact F),
    node.exploring = false ∧ asked = node ∨ (∃ generator : G, node.asked? generator = some asked) →
      ∀ (i : Nat) (arm : Arm (Exact F)), asked.arms[i]? = some arm → arm.isFeasible = true →
        (reportsFor i rounds).reduceOption ≠ [] ∧ arm.Measured

/-- The statistics of a node are exact, whatever the methods, formulas and generators and whatever is
reported.  The costs of the values are numbers or infinite. -/
theorem records_exactly {G : Type} [Generator G] [IsStrictOrderedRing F]
    (hln : ∀ x : F, 1 ≤ x → 0 ≤ LnSqrt.ln x) {costs : List (Exact F)}
    (hcosts : ∀ cost ∈ costs, cost ≠ undefined) (objective : Objective) (ignoreInfeasible : Bool)
    (h : Played G (ofCosts costs objective ignoreInfeasible) rounds node) :
    Records G (ofCosts costs objective ignoreInfeasible) rounds node := by
  have hfirst := becomes_ofCosts costs objective ignoreInfeasible
  have hdefined : ∀ cost ∈ (ofCosts costs objective ignoreInfeasible).costs, cost ≠ undefined := by
    rwa [costs_ofCosts]
  have hnode := h.becomes hln hfirst hdefined
  refine {
    frequency := hnode.frequency
    visits := hnode.sum_visits
    once := fun method generator index hchosen hagain i hi hf => ?_
    feasible := fun hignore method generator index hchosen =>
      hnode.chosen_feasible method hchosen hignore
    statistics := fun i arm ha hf => ?_
    sampled := fun asked hasked i arm ha hf => ?_ }
  · rw [← reportsFor_ne_nil] at hagain ⊢
    exact hnode.once method hchosen hagain hi hf
  · obtain ⟨cost, hcost, haccounts⟩ := hnode.exists_cost ha
    obtain ⟨hnone, -⟩ := haccounts.exists_number (hdefined cost (List.mem_of_getElem? hcost)) hf
    exact ⟨haccounts.localCost hnone ▸ hcost,
      haccounts.visits.trans (length_reduceOption hnone).symm, haccounts.average hf,
      haccounts.best hf⟩
  · rcases hasked with ⟨hx, rfl⟩ | ⟨generator, hasked⟩
    · have hnil : asked.unexplored = [] := hnode.steady.fair.explored hx
      exact hnode.measured hln hdefined (by simp [hnil]) ha hf
    · have hexplored := hnode.steady.explored_of_asked hasked
      rw [hexplored.arms] at ha
      exact hnode.measured hln hdefined (fun i hi => (hexplored.passed i hi).2) ha hf

/-- Of three values the one in the middle is infeasible.  The last one is drawn and told of, then the first
one, which is drawn again and given up. -/
theorem records_exactly_threefold :
    let first : BanditNode (Exact ℚ) := ofCosts [number 0, high, number 5] .minimize true
    let rounds : List (Nat × Option ℚ) := [(0, none), (0, some 3), (2, some 1)]
    ∃ node, node.exploring = false ∧ Played ChaCha.Stream first rounds node ∧
      Records ChaCha.Stream first rounds node := by
  intro first rounds
  have hstart : Played ChaCha.Stream first [] first := .start
  have hlast := hstart.round .mean .log (Generator.ofSeed 1) 2 (some 1) (by decide +kernel)
  have hfirst := hlast.round .mean .log (Generator.ofSeed 1) 0 (some 3) (by decide +kernel)
  have hagain := hfirst.round .mean .log (Generator.ofSeed 1) 0 none (by decide +kernel)
  exact ⟨_, by decide +kernel, hagain,
    records_exactly (fun x hx => sub_nonneg.mpr hx) (by decide +kernel) .minimize true hagain⟩

end BanditNode

end DcopSearch
