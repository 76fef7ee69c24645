import DcopSearch.Proofs.Bandit.Values

/-! Draws are fair: a node chooses a feasible value as long as there is one.  Its count of the feasible
values is never too small, since a value is counted down at most once, when it is passed over or when
it is excluded after it was drawn. -/

namespace DcopSearch

open CostArithmetic

variable {K : Type} [CostArithmetic K]

namespace BanditNode

/-- The number of values that are feasible. -/
def feasibleValues (node : BanditNode K) : Nat :=
  (List.range node.arms.length).countP node.isFeasible

/-- The number of values not yet drawn that are not feasible. -/
def infeasibleUnexplored (node : BanditNode K) : Nat :=
  node.unexplored.countP fun i => !node.isFeasible i

/-- What the count of the feasible values relies on.  A node that ignores no infeasible value has
none. -/
structure Counted (node : BanditNode K) : Prop where
  nodup : node.unexplored.Nodup
  count : (node.feasibleValues + node.infeasibleUnexplored : Int) ≤ node.feasibleCount
  explored : node.exploring = false → node.unexplored = []
  ignoring : node.ignoreInfeasible = true ∨ ∀ i < node.arms.length, node.isFeasible i = true

/-- The next value, which a method has named, is feasible. -/
structure Fair (node : BanditNode K) : Prop extends Counted node where
  next : ∀ entry, node.next = some entry → node.exploring = false ∧ node.isFeasible entry.1 = true

variable {node other : BanditNode K}

theorem isFeasible_eq (node : BanditNode K) (i : Nat) :
    node.isFeasible i = (node.costs[i]?).any fun cost => !isInfinite cost := by
  rw [isFeasible, getElem?_costs, Option.any_map]
  rfl

theorem isFeasible_congr (h : other.costs = node.costs) : other.isFeasible = node.isFeasible := by
  funext i
  rw [isFeasible_eq, isFeasible_eq, h]

omit [CostArithmetic K] in
theorem length_costs (node : BanditNode K) : node.costs.length = node.arms.length := by
  rw [costs, List.length_map]

theorem Counted.congr (h : node.Counted) (hcosts : other.costs = node.costs)
    (hunexplored : other.unexplored = node.unexplored)
    (hcount : other.feasibleCount = node.feasibleCount)
    (hignore : other.ignoreInfeasible = node.ignoreInfeasible)
    (hexplored : other.exploring = false → node.unexplored = []) : other.Counted := by
  have hfeasible := isFeasible_congr hcosts
  have hlength : other.arms.length = node.arms.length := by
    rw [← length_costs, hcosts, length_costs]
  refine ⟨hunexplored ▸ h.nodup, ?_, fun he => hunexplored ▸ hexplored he, ?_⟩
  · rw [hcount, feasibleValues, infeasibleUnexplored, hfeasible, hlength, hunexplored]
    exact h.count
  · rw [hignore, hfeasible, hlength]
    exact h.ignoring

theorem Fair.countVisit (h : node.Fair) (index : Nat) : (node.countVisit index).Fair :=
  ⟨h.toCounted.congr (costs_countVisit node index) rfl rfl rfl h.explored, fun entry he => by
    rw [isFeasible_congr (costs_countVisit node index)]
    exact h.next entry he⟩

theorem Fair.recordVisit (h : node.Fair) (formula : BoundFormula) : (node.recordVisit formula).Fair :=
  ⟨h.toCounted.congr (costs_recordVisit node formula) rfl rfl rfl h.explored, fun entry he => by
    rw [isFeasible_congr (costs_recordVisit node formula)]
    exact h.next entry he⟩

theorem Counted.refreshExploring (h : node.Counted) : node.refreshExploring.Counted :=
  h.congr rfl rfl rfl rfl (explored_refreshExploring h.explored)

theorem Fair.refreshExploring (h : node.Fair) : node.refreshExploring.Fair := by
  refine ⟨h.toCounted.refreshExploring, fun entry he => ?_⟩
  obtain ⟨hx, hf⟩ := h.next entry he
  exact ⟨by simp [BanditNode.refreshExploring, hx], hf⟩

theorem isFeasible_of_mem_feasible {entry : Nat × Arm K} (h : entry ∈ node.feasible) :
    node.isFeasible entry.1 = true := by
  obtain ⟨ha, hf⟩ := mem_feasible.mp h
  rw [isFeasible, ha]
  exact hf

theorem exists_mem_feasible {i : Nat} (h : node.isFeasible i = true) :
    ∃ arm, (i, arm) ∈ node.feasible := by
  obtain ⟨arm, ha, hf⟩ := (Option.any_eq_true _ _).mp h
  exact ⟨arm, mem_feasible.mpr ⟨ha, hf⟩⟩

theorem feasible_eq_nil : node.feasible = [] ↔ ∀ i, node.isFeasible i = false := by
  rw [List.eq_nil_iff_forall_not_mem]
  constructor
  · intro h i
    cases hf : node.isFeasible i with
    | false => rfl
    | true =>
      obtain ⟨arm, hm⟩ := exists_mem_feasible hf
      exact absurd hm (h _)
  · intro h entry hm
    have hf := isFeasible_of_mem_feasible hm
    rw [h] at hf
    cases hf

theorem Counted.process (h : node.Counted) (method : SamplingMethod)
    (hx : node.exploring = false) : (method.process node).Fair := by
  refine ⟨h.congr rfl rfl rfl rfl h.explored, fun entry he => ⟨hx, ?_⟩⟩
  have hnamed : ∀ score : Nat × Arm K → K,
      node.objective.earliestBest (node.feasible.map fun e => (e.1, score e)) = some entry →
        node.isFeasible entry.1 = true := by
    intro score hbest
    obtain ⟨e, hm, rfl⟩ := List.mem_map.mp (Objective.mem_of_earliestBest hbest)
    exact isFeasible_of_mem_feasible hm
  cases method with
  | mean => exact hnamed _ he
  | best => exact hnamed _ he
  | random => cases he

theorem Counted.isFeasible_eq_false (h : node.Counted) (hc : node.feasibleCount = 0) (i : Nat) :
    node.isFeasible i = false := by
  have hcount := h.count
  have hzero : node.feasibleValues = 0 := by omega
  cases hf : node.isFeasible i with
  | false => rfl
  | true =>
    obtain ⟨arm, hm⟩ := exists_mem_feasible hf
    have hlt := index_lt_of_mem_feasible hm
    exact absurd hf (List.countP_eq_zero.mp hzero i (List.mem_range.mpr hlt))

/-- What is left when a value is taken out of those not yet drawn. -/
theorem infeasibleUnexplored_of_perm {x : Nat} {rest : List Nat}
    (hperm : (x :: rest).Perm node.unexplored) : node.infeasibleUnexplored
      = rest.countP (fun i => !node.isFeasible i) + if node.isFeasible x then 0 else 1 := by
  rw [infeasibleUnexplored, ← hperm.countP_eq, List.countP_cons]
  cases node.isFeasible x <;> rfl

/-- A value is taken out of those not yet drawn; an infeasible one is counted down. -/
theorem Fair.take (h : node.Fair) (count : Int) {x : Nat} {rest : List Nat}
    (hperm : (x :: rest).Perm node.unexplored)
    (hcount : count = if node.isFeasible x then node.feasibleCount else node.feasibleCount - 1) :
    Fair { node with unexplored := rest, feasibleCount := count } := by
  have hx : node.exploring ≠ false := by
    intro hx
    rw [h.explored hx] at hperm
    simp at hperm
  have hsplit := infeasibleUnexplored_of_perm hperm
  have hle := h.count
  refine ⟨⟨(hperm.nodup_iff.mpr h.nodup).of_cons, ?_, fun hc => absurd hc hx, h.ignoring⟩, h.next⟩
  show (node.feasibleValues + (rest.countP fun i => !node.isFeasible i) : Int) ≤ count
  rw [hsplit] at hle
  rw [hcount]
  by_cases hf : node.isFeasible x = true
  · rw [if_pos hf] at hle ⊢
    exact hle
  · rw [if_neg hf] at hle ⊢
    omega

theorem index_lt_of_isFeasible {i : Nat} (h : node.isFeasible i = true) : i < node.arms.length := by
  obtain ⟨arm, hm⟩ := exists_mem_feasible h
  exact index_lt_of_mem_feasible hm

/-- A feasible value that is excluded is infeasible from then on. -/
theorem isFeasible_exclude_self {index : Nat} (hf : node.isFeasible index = true)
    (hworst : isInfinite (node.objective.worst : K) = true) :
    (node.exclude index).isFeasible index = false := by
  have hlt := index_lt_of_isFeasible hf
  rw [isFeasible_eq, BanditNode.exclude, if_pos hf]
  simp [costs, hlt, hworst]

theorem isFeasible_exclude_of_ne {index i : Nat} (hi : i ≠ index) :
    (node.exclude index).isFeasible i = node.isFeasible i := by
  rw [isFeasible_eq, isFeasible_eq]
  rcases getElem?_costs_exclude node index i with hc | ⟨rfl, _⟩
  · rw [hc]
  · exact absurd rfl hi

theorem unexplored_exclude (node : BanditNode K) (index : Nat) :
    (node.exclude index).unexplored = node.unexplored := by
  rw [exclude_eq]

theorem feasibleCount_exclude {index : Nat} (hf : node.isFeasible index = true) :
    (node.exclude index).feasibleCount
      = if node.feasibleCount = 0 then 0 else node.feasibleCount - 1 := by
  rw [BanditNode.exclude, if_pos hf]

/-- One value less is feasible. -/
theorem feasibleValues_exclude {index : Nat} (hf : node.isFeasible index = true)
    (hworst : isInfinite (node.objective.worst : K) = true) :
    node.feasibleValues = (node.exclude index).feasibleValues + 1 := by
  rw [feasibleValues, feasibleValues, length_arms_exclude]
  exact countP_eq_succ List.nodup_range (List.mem_range.mpr (index_lt_of_isFeasible hf))
    (isFeasible_exclude_self hf hworst) hf fun i _ hi => (isFeasible_exclude_of_ne hi).symm

/-- Excluding a value that was drawn counts it down once. -/
theorem Counted.exclude (h : node.Counted) {index : Nat} (hi : index ∉ node.unexplored)
    (hignore : node.ignoreInfeasible = true)
    (hworst : isInfinite (node.objective.worst : K) = true) : (node.exclude index).Counted := by
  cases hf : node.isFeasible index with
  | false =>
    rw [BanditNode.exclude, hf, if_neg Bool.false_ne_true]
    exact h
  | true =>
    have hunexplored := unexplored_exclude node index
    have hdown := feasibleCount_exclude hf
    have hvalues := feasibleValues_exclude hf hworst
    have hrest : (node.exclude index).infeasibleUnexplored = node.infeasibleUnexplored := by
      rw [infeasibleUnexplored, hunexplored]
      refine List.countP_congr fun i hm => ?_
      have hne : i ≠ index := fun he => hi (he ▸ hm)
      rw [isFeasible_exclude_of_ne hne]
    have hcount := h.count
    refine ⟨hunexplored ▸ h.nodup, ?_, fun hx => ?_, .inl ?_⟩
    · rw [hrest, hdown]
      split <;> omega
    · rw [exclude_eq] at hx
      rw [hunexplored]
      exact h.explored hx
    · rw [exclude_eq]
      exact hignore

theorem Counted.storeCost (h : node.Counted) (index : Nat) (report : K) :
    (node.storeCost index report).2.Counted := by
  have hcosts := costs_credit node.refreshExploring index report
  rw [BanditNode.storeCost]
  rw [credit_eq] at hcosts ⊢
  exact h.refreshExploring.congr hcosts rfl rfl rfl h.refreshExploring.explored

theorem Fair.next_eq_none (h : node.Fair) (hx : node.exploring = true) : node.next = none := by
  cases hn : node.next with
  | none => rfl
  | some entry =>
    have hover := (h.next entry hn).1
    rw [hx] at hover
    cases hover

theorem Counted.fair (h : node.Counted) (hn : node.next = none) : node.Fair :=
  ⟨h, fun entry he => by simp [hn] at he⟩

/-- In a new node every value is feasible or has still to be passed over. -/
theorem values_ofCosts (costs : List K) (objective : Objective) (ignoreInfeasible : Bool) :
    (ofCosts costs objective ignoreInfeasible).feasibleValues
      + (ofCosts costs objective ignoreInfeasible).infeasibleUnexplored = costs.length := by
  have hlength : (ofCosts costs objective ignoreInfeasible).arms.length = costs.length := by
    simp [ofCosts]
  have hunexplored : (ofCosts costs objective ignoreInfeasible).unexplored
      = List.range costs.length := rfl
  have hsplit := List.length_eq_countP_add_countP
    (ofCosts costs objective ignoreInfeasible).isFeasible (l := List.range costs.length)
  simp only [List.length_range, Bool.not_eq_true, Bool.decide_eq_false] at hsplit
  rw [feasibleValues, infeasibleUnexplored, hlength, hunexplored]
  exact hsplit.symm

/-- A node is fair at the beginning, as far as it ignores what is infeasible. -/
theorem fair_ofCosts {costs : List K} (objective : Objective) {ignoreInfeasible : Bool}
    (h : ignoreInfeasible = true ∨ ∀ cost ∈ costs, isInfinite cost = false) :
    (ofCosts costs objective ignoreInfeasible).Fair := by
  have hcosts := costs_ofCosts costs objective ignoreInfeasible
  have hvalues := values_ofCosts costs objective ignoreInfeasible
  refine Counted.fair ⟨List.nodup_range, ?_, by simp [ofCosts], h.imp id fun hall i hi => ?_⟩ rfl
  · show ((_ : Nat) + (_ : Nat) : Int) ≤ (costs.length : Int)
    omega
  · rw [isFeasible_eq, hcosts]
    have hlt : i < costs.length := by simpa [ofCosts] using hi
    simp [hlt, hall _ (List.getElem_mem hlt)]

variable {G : Type} [Generator G] {n : Nat}

/-- What a draw from a fair node gives: a feasible value that counts as drawn, or none if there is
none. -/
structure DrawsFair (node : BanditNode K) (draw : Draw K G) : Prop where
  fair : draw.node.Fair
  chosen : ∀ index, draw.chosen = some index →
    node.isFeasible index = true ∧ index ∉ draw.node.unexplored
  none : draw.chosen = none → ∀ i, node.isFeasible i = false

/-- A value that was not drawn before is drawn, unless there is none left to draw. -/
structure DrawsUnexplored (node : BanditNode K) (draw : Draw K G) : Prop where
  fair : draw.node.Fair
  chosen : ∀ index, draw.chosen = some index →
    node.isFeasible index = true ∧ index ∉ draw.node.unexplored
  none : draw.chosen = none → draw.node.exploring = false

theorem Fair.drawUnexplored (h : node.Fair) (hover : node.Over n) (generator : G) :
    DrawsUnexplored node (node.drawUnexplored generator) := by
  induction node, generator using drawUnexplored_induction with
  | passed node generator later index rest hperm _ hinfeasible hdraw ih =>
    have htaken := h.take (node.feasibleCount - 1) hperm (by rw [hinfeasible]; rfl)
    have hrest := ih htaken
      ⟨hover.arms, fun i hi => hover.unexplored i (hperm.mem_iff.mp (List.mem_cons_of_mem index hi)),
        hover.leader, hover.next⟩
    rw [hdraw]
    exact ⟨hrest.fair, hrest.chosen, hrest.none⟩
  | taken node generator later index rest hperm hfeasible hdraw =>
    have hmem : index ∈ node.unexplored := hperm.mem_iff.mp List.mem_cons_self
    have hfeasible : node.isFeasible index = true := by
      rcases h.ignoring with hi | hall
      · exact hfeasible hi
      · exact hall _ (hover.arms ▸ hover.unexplored _ hmem)
    have htaken := h.take node.feasibleCount hperm (by rw [hfeasible]; rfl)
    rw [hdraw]
    refine ⟨htaken.countVisit index, fun i hi => ?_, by simp⟩
    obtain rfl := Option.some.inj hi
    exact ⟨hfeasible, (List.nodup_cons.mp (hperm.nodup_iff.mpr h.nodup)).1⟩
  | spent node generator hnil hdraw =>
    rw [hdraw]
    refine ⟨⟨h.toCounted.congr rfl rfl rfl rfl fun _ => hnil, fun entry he => ?_⟩, by simp,
      fun _ => rfl⟩
    exact ⟨rfl, (h.next entry he).2⟩

/-- A value that is left to chance is feasible, and there is one unless no value is feasible. -/
theorem select_random (node : BanditNode K) (generator : G) :
    (∃ i, (SamplingMethod.random.select node generator).1 = some i ∧ node.isFeasible i = true) ∨
      (SamplingMethod.random.select node generator).1 = none ∧ ∀ i, node.isFeasible i = false := by
  cases hs : (SamplingMethod.random.select node generator).1 with
  | none => exact .inr ⟨rfl, feasible_eq_nil.mp (select_eq_none hs)⟩
  | some index =>
    rcases select_eq_some hs with ⟨hrandom, -⟩ | ⟨arm, hm⟩
    · exact absurd rfl hrandom
    · exact .inl ⟨index, rfl, isFeasible_of_mem_feasible hm⟩

theorem Fair.drawSelected (h : node.Fair) (method : SamplingMethod) (hx : node.exploring = false)
    (generator : G) : DrawsFair node (node.drawSelected method generator) := by
  have hselect : ∀ index, (method.select node generator).1 = some index →
      node.isFeasible index = true := by
    intro index hs
    rcases select_eq_some hs with ⟨-, entry, hn, rfl⟩ | ⟨arm, hm⟩
    · exact (h.next entry hn).2
    · exact isFeasible_of_mem_feasible hm
  have hnil : node.unexplored = [] := h.explored hx
  unfold BanditNode.drawSelected
  split
  next hs => exact ⟨h, by simp, fun _ => feasible_eq_nil.mp (select_eq_none (by rw [hs]))⟩
  next index _ hs =>
    refine ⟨h.countVisit index, fun i hi => ?_, by simp⟩
    obtain rfl := Option.some.inj hi
    refine ⟨hselect index (by rw [hs]), ?_⟩
    show index ∉ node.unexplored
    simp [hnil]

theorem Fair.draw (h : node.Fair) (hover : node.Over n) (method : SamplingMethod) (generator : G) :
    DrawsFair node (node.draw method generator) := by
  have hexplored := h.drawUnexplored hover generator
  have hfeasible := isFeasible_congr (hover.drawUnexplored generator).costs
  rcases node.draw_cases method generator with
    ⟨-, hstop, hdraw⟩ | ⟨-, hnone, hdraw⟩ | ⟨-, hzero, hdraw⟩ | ⟨hx, hdraw⟩ <;> rw [hdraw]
  · refine ⟨hexplored.fair, hexplored.chosen, fun hnone => ?_⟩
    rw [← hfeasible]
    exact hexplored.fair.isFeasible_eq_false (hstop hnone)
  · have hx := hexplored.none hnone
    have hs := (hexplored.fair.process method hx).drawSelected method hx
      (node.drawUnexplored generator).generator
    have hprocess : (method.process (node.drawUnexplored generator).node).isFeasible
        = node.isFeasible := (isFeasible_congr (costs_process _ _)).trans hfeasible
    exact ⟨hs.fair, hprocess ▸ hs.chosen, hprocess ▸ hs.none⟩
  · exact ⟨h, by simp, fun _ => h.isFeasible_eq_false hzero⟩
  · exact h.drawSelected method hx generator

end BanditNode

end DcopSearch
