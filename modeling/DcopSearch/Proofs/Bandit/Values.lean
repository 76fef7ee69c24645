import DcopSearch.Bandit.Selection

/-! The values a bandit node speaks of.  A node is made for a number of values; whatever it is asked
to do, it keeps one arm for each of them and names no other.  The costs of the values in the
variable's own spaces stay what they were, except that pruning replaces one by the worst. -/

namespace DcopSearch

open CostArithmetic

theorem countP_eq_succ {α : Type} {l : List α} {p q : α → Bool} {x : α} (hnodup : l.Nodup)
    (hx : x ∈ l) (hp : p x = false) (hq : q x = true) (hsame : ∀ y ∈ l, y ≠ x → q y = p y) :
    l.countP q = l.countP p + 1 := by
  induction l with
  | nil => simp at hx
  | cons y rest ih =>
    rw [List.nodup_cons] at hnodup
    by_cases hy : y = x
    · subst hy
      have hrest : rest.countP q = rest.countP p :=
        List.countP_congr fun z hz => by
          rw [hsame z (by simp [hz]) fun he => hnodup.1 (he ▸ hz)]
      simp [hp, hq, hrest]
    · have hxr : x ∈ rest := (List.mem_cons.mp hx).resolve_left (Ne.symm hy)
      have := ih hnodup.2 hxr fun z hz => hsame z (by simp [hz])
      simp only [List.countP_cons, hsame y (by simp) hy, this]
      omega

namespace BanditNode

variable {K : Type}

/-- The node has an arm for each of `n` values and speaks of no others. -/
structure Over (n : Nat) (node : BanditNode K) : Prop where
  arms : node.arms.length = n
  unexplored : ∀ i ∈ node.unexplored, i < n
  leader : ∀ entry, node.leader = some entry → entry.1 < n
  next : ∀ entry, node.next = some entry → entry.1 < n

/-- What the values cost in the variable's own spaces. -/
def costs (node : BanditNode K) : List K := node.arms.map Arm.localCost

theorem getElem?_costs (node : BanditNode K) (i : Nat) :
    node.costs[i]? = node.arms[i]?.map Arm.localCost :=
  List.getElem?_map

variable {n : Nat} {node : BanditNode K}

theorem Over.countVisit (h : node.Over n) (index : Nat) : (node.countVisit index).Over n :=
  ⟨by rw [length_arms_countVisit, h.arms], h.unexplored, h.leader, h.next⟩

@[simp] theorem costs_countVisit (node : BanditNode K) (index : Nat) :
    (node.countVisit index).costs = node.costs := by
  refine List.ext_getElem? fun i => ?_
  simp only [costs, BanditNode.countVisit, List.getElem?_map, List.getElem?_modify]
  cases node.arms[i]? with
  | none => rfl
  | some arm => by_cases h : index = i <;> simp [h]

theorem Over.refreshExploring (h : node.Over n) : node.refreshExploring.Over n :=
  ⟨h.arms, h.unexplored, h.leader, h.next⟩

@[simp] theorem costs_refreshExploring (node : BanditNode K) :
    node.refreshExploring.costs = node.costs := rfl

/-- Refreshing ends the exploration only where no value is left to draw. -/
theorem explored_refreshExploring (h : node.exploring = false → node.unexplored = [])
    (hx : node.refreshExploring.exploring = false) : node.unexplored = [] := by
  cases hexploring : node.exploring with
  | false => exact h hexploring
  | true => simpa [BanditNode.refreshExploring, hexploring] using hx

variable [CostArithmetic K]

theorem over_ofCosts (costs : List K) (objective : Objective) (ignoreInfeasible : Bool) :
    (ofCosts costs objective ignoreInfeasible).Over costs.length :=
  ⟨by simp [ofCosts], by simp [ofCosts], by simp [ofCosts], by simp [ofCosts]⟩

@[simp] theorem costs_ofCosts (costs : List K) (objective : Objective)
    (ignoreInfeasible : Bool) :
    (ofCosts costs objective ignoreInfeasible).costs = costs := by
  simp [BanditNode.costs, ofCosts, Arm.unsampled, Function.comp_def]

theorem Over.recordVisit (h : node.Over n) (formula : BoundFormula) :
    (node.recordVisit formula).Over n :=
  ⟨by rw [length_arms_recordVisit, h.arms], h.unexplored, h.leader, h.next⟩

@[simp] theorem costs_recordVisit (node : BanditNode K) (formula : BoundFormula) :
    (node.recordVisit formula).costs = node.costs := by
  simp [costs, BanditNode.recordVisit, Function.comp_def]

theorem credit_eq (node : BanditNode K) (index : Nat) (report : K) :
    (node.credit index report).2 = { node with arms := (node.credit index report).2.arms } := by
  unfold BanditNode.credit
  split
  · rfl
  · split <;> rfl

theorem Over.credit (h : node.Over n) (index : Nat) (report : K) :
    (node.credit index report).2.Over n := by
  have hl := length_arms_credit node index report
  rw [credit_eq]
  exact ⟨hl.trans h.arms, h.unexplored, h.leader, h.next⟩

@[simp] theorem costs_credit (node : BanditNode K) (index : Nat) (report : K) :
    (node.credit index report).2.costs = node.costs := by
  unfold BanditNode.credit
  split
  · rfl
  next arm ha =>
    split
    · refine List.ext_getElem? fun i => ?_
      simp only [costs, List.getElem?_map, List.getElem?_set]
      by_cases hi : index = i
      · subst hi
        obtain ⟨hlt, rfl⟩ := List.getElem?_eq_some_iff.mp ha
        simp [hlt, Arm.store]
      · simp [hi]
    · rfl

theorem Over.storeCost (h : node.Over n) (index : Nat) (report : K) :
    (node.storeCost index report).2.Over n :=
  h.refreshExploring.credit index report

@[simp] theorem costs_storeCost (node : BanditNode K) (index : Nat) (report : K) :
    (node.storeCost index report).2.costs = node.costs := by
  simp [BanditNode.storeCost]

theorem exclude_eq (node : BanditNode K) (index : Nat) :
    node.exclude index = { node with
      arms := (node.exclude index).arms, feasibleCount := (node.exclude index).feasibleCount } := by
  unfold BanditNode.exclude
  split <;> rfl

theorem Over.exclude (h : node.Over n) (index : Nat) : (node.exclude index).Over n := by
  have hl := length_arms_exclude node index
  rw [exclude_eq]
  exact ⟨hl.trans h.arms, h.unexplored, h.leader, h.next⟩

/-- Excluding a value leaves its cost or replaces it by the worst, and leaves the other costs. -/
theorem getElem?_costs_exclude (node : BanditNode K) (index i : Nat) :
    (node.exclude index).costs[i]? = node.costs[i]? ∨
      i = index ∧ (node.exclude index).costs[i]? = some node.objective.worst := by
  unfold BanditNode.exclude
  split
  next hf =>
    by_cases hi : index = i
    · subst hi
      have hlt : index < node.arms.length := by
        refine Nat.lt_of_not_le fun hn => ?_
        simp [isFeasible, List.getElem?_eq_none hn] at hf
      exact .inr ⟨rfl, by simp [costs, hlt]⟩
    · refine .inl ?_
      simp only [costs, List.getElem?_map, List.getElem?_modify, hi, if_false]
      cases node.arms[i]? <;> rfl
  next => exact .inl rfl

theorem Over.prune (h : node.Over n) (index : Nat) : (node.prune index).Over n :=
  h.refreshExploring.exclude index

/-- The feasible values are those of the feasible arms, each with its index. -/
theorem mem_feasible {entry : Nat × Arm K} : entry ∈ node.feasible
    ↔ node.arms[entry.1]? = some entry.2 ∧ entry.2.isFeasible = true := by
  rw [feasible, List.mem_map]
  constructor
  · rintro ⟨⟨arm, i⟩, hm, rfl⟩
    exact (List.mem_filter.mp hm).imp_left List.mk_mem_zipIdx_iff_getElem?.mp
  · rintro ⟨ha, hf⟩
    exact ⟨(entry.2, entry.1),
      List.mem_filter.mpr ⟨List.mk_mem_zipIdx_iff_getElem?.mpr ha, hf⟩, rfl⟩

theorem index_lt_of_mem_feasible {entry : Nat × Arm K} (h : entry ∈ node.feasible) :
    entry.1 < node.arms.length :=
  (List.getElem?_eq_some_iff.mp (mem_feasible.mp h).1).1

theorem Over.process (h : node.Over n) (method : SamplingMethod) :
    (method.process node).Over n := by
  have hscored : ∀ (score : Nat × Arm K → K) (entry : Nat × K),
      node.objective.earliestBest (node.feasible.map fun e => (e.1, score e)) = some entry →
        entry.1 < n := by
    intro score entry he
    obtain ⟨e, hm, rfl⟩ := List.mem_map.mp (Objective.mem_of_earliestBest he)
    exact h.arms ▸ index_lt_of_mem_feasible hm
  refine ⟨h.arms, h.unexplored, fun entry he => hscored _ entry he, fun entry he => ?_⟩
  cases method with
  | mean => exact hscored _ entry he
  | best => exact hscored _ entry he
  | random => cases he

@[simp] theorem costs_process (node : BanditNode K) (method : SamplingMethod) :
    (method.process node).costs = node.costs := rfl

variable {G : Type} [Generator G]

/-- A value that is selected is the next one or a feasible one; chance selects only the latter. -/
theorem select_eq_some {method : SamplingMethod} {generator : G} {index : Nat}
    (h : (method.select node generator).1 = some index) :
    method ≠ .random ∧ (∃ entry, node.next = some entry ∧ entry.1 = index) ∨
      ∃ arm, (index, arm) ∈ node.feasible := by
  have hor : (node.next.map (·.1)).or (node.feasible.map (·.1)).head? = some index →
      (∃ entry, node.next = some entry ∧ entry.1 = index) ∨ ∃ arm, (index, arm) ∈ node.feasible := by
    intro ho
    rcases Option.or_eq_some_iff.mp ho with ho | ⟨-, ho⟩
    · exact .inl (Option.map_eq_some_iff.mp ho)
    · obtain ⟨entry, hm, rfl⟩ := List.mem_map.mp (List.mem_of_head? ho)
      exact .inr ⟨entry.2, hm⟩
  cases method with
  | mean => exact (hor h).imp_left fun hnext => ⟨by decide, hnext⟩
  | best => exact (hor h).imp_left fun hnext => ⟨by decide, hnext⟩
  | random =>
    refine .inr ?_
    simp only [SamplingMethod.select] at h
    split at h
    · obtain rfl := Option.some.inj h
      rw [Fin.getElem_fin, List.getElem_map]
      exact ⟨_, List.getElem_mem _⟩
    · cases h

/-- No value is selected only if there is no feasible one. -/
theorem select_eq_none {method : SamplingMethod} {generator : G}
    (h : (method.select node generator).1 = none) : node.feasible = [] := by
  have hor : (node.next.map (·.1)).or (node.feasible.map (·.1)).head? = none → node.feasible = [] :=
    fun ho => List.map_eq_nil_iff.mp (List.head?_eq_none_iff.mp (Option.or_eq_none_iff.mp ho).2)
  cases method with
  | mean => exact hor h
  | best => exact hor h
  | random =>
    simp only [SamplingMethod.select] at h
    split at h
    · cases h
    next hlen => simpa using hlen

theorem Over.select (h : node.Over n) (method : SamplingMethod) (generator : G) {index : Nat}
    (hs : (method.select node generator).1 = some index) : index < n := by
  rcases select_eq_some hs with ⟨-, entry, hn, rfl⟩ | ⟨arm, hm⟩
  · exact h.next entry hn
  · exact h.arms ▸ index_lt_of_mem_feasible hm

/-- A draw keeps the node over its values and chooses one of them; it does not touch the costs. -/
structure DrawsOver (n : Nat) (node : BanditNode K) (draw : Draw K G) : Prop where
  covers : draw.node.Over n
  costs : draw.node.costs = node.costs
  objective : draw.node.objective = node.objective
  ignoring : draw.node.ignoreInfeasible = node.ignoreInfeasible
  chosen : ∀ index, draw.chosen = some index → index < n

/-- A draw among the values not yet drawn, by the value that is taken out of them: an infeasible one may
be passed over, and any other one is chosen. -/
theorem drawUnexplored_induction {motive : BanditNode K → G → Prop}
    (passed : ∀ (node : BanditNode K) (generator later : G) (index : Nat) (rest : List Nat),
      (index :: rest).Perm node.unexplored → node.ignoreInfeasible = true →
      node.isFeasible index = false →
      node.drawUnexplored generator = BanditNode.drawUnexplored
        { node with unexplored := rest, feasibleCount := node.feasibleCount - 1 } later →
      motive { node with unexplored := rest, feasibleCount := node.feasibleCount - 1 } later →
      motive node generator)
    (taken : ∀ (node : BanditNode K) (generator later : G) (index : Nat) (rest : List Nat),
      (index :: rest).Perm node.unexplored →
      (node.ignoreInfeasible = true → node.isFeasible index = true) →
      node.drawUnexplored generator
        = { chosen := some index
            node := BanditNode.countVisit { node with unexplored := rest } index
            generator := later } →
      motive node generator)
    (spent : ∀ (node : BanditNode K) (generator : G), node.unexplored = [] →
      node.drawUnexplored generator
        = { chosen := none, node := { node with exploring := false }, generator } →
      motive node generator)
    (node : BanditNode K) (generator : G) : motive node generator := by
  induction node, generator using BanditNode.drawUnexplored.induct with
  | case1 node generator hpos picked removed hskip ih =>
    have hdraw : node.drawUnexplored generator = BanditNode.drawUnexplored
        { node with unexplored := removed.2, feasibleCount := node.feasibleCount - 1 } picked.2 := by
      rw [BanditNode.drawUnexplored, dif_pos hpos]
      exact if_pos hskip
    simp only [Bool.and_eq_true, Bool.not_eq_true'] at hskip
    exact passed node generator picked.2 removed.1 removed.2 (swapRemove_perm _ _) hskip.1 hskip.2
      hdraw ih
  | case2 node generator hpos picked removed hskip =>
    have hdraw : node.drawUnexplored generator
        = { chosen := some removed.1
            node := BanditNode.countVisit { node with unexplored := removed.2 } removed.1
            generator := picked.2 } := by
      rw [BanditNode.drawUnexplored, dif_pos hpos]
      exact if_neg hskip
    refine taken node generator picked.2 removed.1 removed.2 (swapRemove_perm _ _) (fun hignore => ?_)
      hdraw
    simpa [hignore] using hskip
  | case3 node generator hpos =>
    have hdraw : node.drawUnexplored generator
        = { chosen := none, node := { node with exploring := false }, generator } := by
      rw [BanditNode.drawUnexplored, dif_neg hpos]
    exact spent node generator (by simpa using hpos) hdraw

theorem Over.drawUnexplored (h : node.Over n) (generator : G) :
    DrawsOver n node (node.drawUnexplored generator) := by
  induction node, generator using drawUnexplored_induction with
  | passed node generator later index rest hperm _ _ hdraw ih =>
    have htaken : BanditNode.Over n
        { node with unexplored := rest, feasibleCount := node.feasibleCount - 1 } :=
      ⟨h.arms, fun i hi => h.unexplored i (hperm.mem_iff.mp (List.mem_cons_of_mem index hi)), h.leader,
        h.next⟩
    have hrest := ih htaken
    rw [hdraw]
    exact ⟨hrest.covers, hrest.costs, hrest.objective, hrest.ignoring, hrest.chosen⟩
  | taken node generator later index rest hperm _ hdraw =>
    have htaken : BanditNode.Over n { node with unexplored := rest } :=
      ⟨h.arms, fun i hi => h.unexplored i (hperm.mem_iff.mp (List.mem_cons_of_mem index hi)), h.leader,
        h.next⟩
    rw [hdraw]
    refine ⟨htaken.countVisit index, costs_countVisit _ _, rfl, rfl, fun i hi => ?_⟩
    obtain rfl := Option.some.inj hi
    exact h.unexplored _ (hperm.mem_iff.mp List.mem_cons_self)
  | spent node generator _ hdraw =>
    rw [hdraw]
    exact ⟨⟨h.arms, h.unexplored, h.leader, h.next⟩, rfl, rfl, rfl, by simp⟩

theorem Over.drawSelected (h : node.Over n) (method : SamplingMethod) (generator : G) :
    DrawsOver n node (node.drawSelected method generator) := by
  unfold BanditNode.drawSelected
  split
  · exact ⟨h, rfl, rfl, rfl, by simp⟩
  next index next hs =>
    refine ⟨h.countVisit index, costs_countVisit node index, rfl, rfl, fun i hi => ?_⟩
    obtain rfl := Option.some.inj hi
    exact h.select method generator (by rw [hs])

/-- What a draw comes to.  Among the values not yet drawn one is found, or no value counts as feasible; if
neither, the method is asked about the node that is left.  A node that does not explore asks the method at
once, unless no value counts as feasible. -/
theorem draw_cases (node : BanditNode K) (method : SamplingMethod) (generator : G) :
    node.exploring = true ∧
        ((node.drawUnexplored generator).chosen = none →
          (node.drawUnexplored generator).node.feasibleCount = 0) ∧
        node.draw method generator = node.drawUnexplored generator ∨
      node.exploring = true ∧ (node.drawUnexplored generator).chosen = none ∧
        node.draw method generator = (method.process (node.drawUnexplored generator).node).drawSelected
          method (node.drawUnexplored generator).generator ∨
      node.exploring = false ∧ node.feasibleCount = 0 ∧
        node.draw method generator = { chosen := none, node, generator } ∨
      node.exploring = false ∧ node.draw method generator = node.drawSelected method generator := by
  cases hx : node.exploring with
  | true =>
    by_cases hstop : ((node.drawUnexplored generator).chosen.isSome
        || (node.drawUnexplored generator).node.feasibleCount == 0) = true
    · refine .inl ⟨rfl, fun hnone => by simpa [hnone] using hstop, ?_⟩
      rw [BanditNode.draw, if_pos hx]
      exact if_pos hstop
    · have hnone : (node.drawUnexplored generator).chosen = none := by
        simp only [Bool.or_eq_true, not_or] at hstop
        simpa using hstop.1
      refine .inr (.inl ⟨rfl, hnone, ?_⟩)
      rw [BanditNode.draw, if_pos hx]
      exact if_neg hstop
  | false =>
    have hover : ¬node.exploring = true := by simp [hx]
    by_cases hzero : node.feasibleCount = 0
    · refine .inr (.inr (.inl ⟨rfl, hzero, ?_⟩))
      rw [BanditNode.draw, if_neg hover, if_pos (by simpa using hzero)]
    · refine .inr (.inr (.inr ⟨rfl, ?_⟩))
      rw [BanditNode.draw, if_neg hover, if_neg (by simpa using hzero)]

theorem Over.draw (h : node.Over n) (method : SamplingMethod) (generator : G) :
    DrawsOver n node (node.draw method generator) := by
  have hexplored := h.drawUnexplored generator
  rcases node.draw_cases method generator with
    ⟨-, -, hdraw⟩ | ⟨-, -, hdraw⟩ | ⟨-, -, hdraw⟩ | ⟨-, hdraw⟩ <;> rw [hdraw]
  · exact hexplored
  · have hs := (hexplored.covers.process method).drawSelected method
      (node.drawUnexplored generator).generator
    exact ⟨hs.covers, by rw [hs.costs, costs_process, hexplored.costs],
      hs.objective.trans hexplored.objective, hs.ignoring.trans hexplored.ignoring, hs.chosen⟩
  · exact ⟨h, rfl, rfl, rfl, by simp⟩
  · exact h.drawSelected method generator

end BanditNode

end DcopSearch
