import DcopSearch.Proofs.Bandit.Fair

/-! A bandit node in use.  Whatever its method and whether or not it passes over infeasible values, the
values that it names are feasible and its count of the feasible ones is not too small.  A value that is
infeasible and was drawn is out of play: no draw chooses it again and no visit of it is counted. -/

namespace DcopSearch

open CostArithmetic

variable {K : Type}

namespace BanditNode

/-- How often a value was visited. -/
def visits (node : BanditNode K) (index : Nat) : Nat := node.arms[index]?.elim 0 Arm.visits

/-- The node, as if it passed over infeasible values.  Its count of the feasible ones is bounded by the
same terms. -/
def attentive (node : BanditNode K) : BanditNode K := { node with ignoreInfeasible := true }

theorem visits_countVisit {node : BanditNode K} {index : Nat} (h : index < node.arms.length) (i : Nat) :
    (node.countVisit index).visits i = node.visits i + if index = i then 1 else 0 := by
  simp only [visits, countVisit, List.getElem?_modify]
  by_cases hi : index = i
  · subst hi
    simp [h]
  · simp [hi]

variable [CostArithmetic K]

/-- The value is infeasible and was drawn, if it was ever to be. -/
structure Bars (node : BanditNode K) (index : Nat) : Prop where
  infeasible : node.isFeasible index = false
  drawn : index ∉ node.unexplored

/-- What a node keeps to while it is used. -/
structure Steady (n : Nat) (node : BanditNode K) : Prop where
  sized : node.Over n
  fair : node.attentive.Fair
  leader : ∀ entry, node.leader = some entry →
    node.exploring = false ∧ node.isFeasible entry.1 = true

theorem visits_recordVisit (node : BanditNode K) (formula : BoundFormula) (i : Nat) :
    (node.recordVisit formula).visits i = node.visits i := by
  simp only [visits, recordVisit, List.getElem?_map]
  cases node.arms[i]? <;> rfl

theorem visits_storeCost (node : BanditNode K) (index : Nat) (report : K) (i : Nat) :
    (node.storeCost index report).2.visits i = node.visits i := by
  unfold storeCost credit
  split
  · rfl
  next arm ha =>
    split
    · by_cases hi : index = i
      · subst hi
        obtain ⟨hlt, rfl⟩ := List.getElem?_eq_some_iff.mp ha
        have hlt' : index < node.arms.length := hlt
        simp [visits, refreshExploring, hlt', Arm.store]
      · simp [visits, refreshExploring, hi]
    · rfl

theorem visits_prune (node : BanditNode K) (index i : Nat) :
    (node.prune index).visits i = node.visits i := by
  unfold prune exclude
  split
  · simp only [visits, refreshExploring, List.getElem?_modify]
    by_cases hi : index = i
    · subst hi
      cases node.arms[index]? <;> simp
    · simp [hi]
  · rfl

/-- A value that was pruned is infeasible. -/
theorem isFeasible_prune (node : BanditNode K) (index : Nat)
    (hworst : isInfinite (node.objective.worst : K) = true) :
    (node.prune index).isFeasible index = false := by
  cases hf : node.isFeasible index with
  | false =>
    have hsame : node.prune index = node.refreshExploring :=
      if_neg (show ¬node.isFeasible index = true by simp [hf])
    rw [hsame]
    exact hf
  | true =>
    have hrefreshed : node.refreshExploring.isFeasible index = true := hf
    exact isFeasible_exclude_self hrefreshed hworst

/-- Pruning makes no value feasible. -/
theorem isFeasible_prune_of_false {node : BanditNode K} {i : Nat} (h : node.isFeasible i = false)
    (index : Nat) (hworst : isInfinite (node.objective.worst : K) = true) :
    (node.prune index).isFeasible i = false := by
  rcases getElem?_costs_exclude node.refreshExploring index i with hc | ⟨rfl, -⟩
  · rw [isFeasible_eq] at h ⊢
    rw [prune, hc]
    exact h
  · exact isFeasible_prune node i hworst

theorem exclude_attentive (node : BanditNode K) (index : Nat) :
    (node.exclude index).attentive = node.attentive.exclude index := by
  have hfeasible : node.attentive.isFeasible index = node.isFeasible index := rfl
  unfold exclude
  rw [hfeasible]
  split <;> rfl

/-- A node at its beginning. -/
theorem steady_ofCosts (costs : List K) (objective : Objective) (ignoreInfeasible : Bool) :
    (ofCosts costs objective ignoreInfeasible).Steady costs.length where
  sized := over_ofCosts costs objective ignoreInfeasible
  fair := fair_ofCosts objective (.inl rfl)
  leader := by simp [ofCosts]

/-- What becomes of a node in use, in which the value `pruned` is given up. -/
structure Ages (n : Nat) (pruned : Option Nat) (node later : BanditNode K) : Prop where
  steady : later.Steady n
  objective : later.objective = node.objective
  unexplored : later.unexplored ⊆ node.unexplored
  costs : ∀ i, later.costs[i]? = node.costs[i]? ∨
    pruned = some i ∧ later.costs[i]? = some node.objective.worst
  bars : ∀ i, node.Bars i ∨ pruned = some i → later.Bars i ∧ later.visits i = node.visits i

variable {n : Nat} {node later last : BanditNode K}

theorem Ages.refl (h : node.Steady n) : node.Ages n none node :=
  ⟨h, rfl, List.Subset.refl _, fun _ => .inl rfl, fun _ hb => ⟨hb.resolve_right (by simp), rfl⟩⟩

theorem Ages.trans {pruned : Option Nat} (h : node.Ages n pruned later) (h' : later.Ages n none last) :
    node.Ages n pruned last := by
  refine ⟨h'.steady, h'.objective.trans h.objective, List.Subset.trans h'.unexplored h.unexplored, fun i => ?_,
    fun i hb => ?_⟩
  · rcases h'.costs i with hc | ⟨hnone, -⟩
    · rw [hc]
      exact h.costs i
    · cases hnone
  · obtain ⟨hbars, hvisits⟩ := h.bars i hb
    obtain ⟨hlast, hsame⟩ := h'.bars i (.inl hbars)
    exact ⟨hlast, hsame.trans hvisits⟩

/-- A node that has been explored is steady once leader and next value are taken anew. -/
theorem steady_process (hover : node.Over n) (hcounted : node.attentive.Counted)
    (hx : node.exploring = false) (method : SamplingMethod) : (method.process node).Steady n := by
  refine ⟨hover.process method, hcounted.process method hx, fun entry he => ⟨hx, ?_⟩⟩
  obtain ⟨scored, hm, rfl⟩ := List.mem_map.mp (Objective.mem_of_earliestBest he)
  exact isFeasible_of_mem_feasible hm

namespace Steady

theorem exploring_leader (h : node.Steady n) (hx : node.exploring = true) : node.leader = none := by
  cases hl : node.leader with
  | none => rfl
  | some entry =>
    have hover := (h.leader entry hl).1
    rw [hx] at hover
    cases hover

/-- A node of which no value is feasible names none. -/
theorem leader_eq_none (h : node.Steady n) (hnone : ∀ i, node.isFeasible i = false) :
    node.leader = none := by
  cases hl : node.leader with
  | none => rfl
  | some entry =>
    have hf := (h.leader entry hl).2
    rw [hnone] at hf
    cases hf

/-- A value out of play is neither the leading nor the next one. -/
theorem not_named (h : node.Steady n) {index : Nat} (hb : node.Bars index) (score : K) :
    node.leader ≠ some (index, score) ∧ node.next ≠ some (index, score) := by
  refine ⟨fun hl => ?_, fun hn => ?_⟩
  · have hf := (h.leader _ hl).2
    rw [hb.infeasible] at hf
    cases hf
  · have hf : node.isFeasible index = true := (h.fair.next _ hn).2
    rw [hb.infeasible] at hf
    cases hf

omit [CostArithmetic K] in
theorem exploring_of_refreshed {node : BanditNode K} (h : node.refreshExploring.exploring = true) :
    node.exploring = true := by
  simp only [refreshExploring, Bool.and_eq_true] at h
  exact h.1

end Steady

/-- The node with other statistics, in which leader and next value have still to be taken anew. -/
structure Revised (n : Nat) (pruned : Option Nat) (node later : BanditNode K) : Prop where
  sized : later.Over n
  counted : later.attentive.Counted
  objective : later.objective = node.objective
  unexplored : later.unexplored = node.unexplored
  exploring : later.exploring = true → node.exploring = true
  leader : later.leader = node.leader
  next : later.next = node.next
  costs : ∀ i, later.costs[i]? = node.costs[i]? ∨
    pruned = some i ∧ later.costs[i]? = some node.objective.worst
  infeasible : ∀ i, node.isFeasible i = false ∨ pruned = some i → later.isFeasible i = false
  drawn : ∀ i, pruned = some i → i ∉ node.unexplored
  visits : ∀ i, later.visits i = node.visits i

/-- The names are taken anew once the node does not explore any more; before, it has none. -/
theorem Revised.ages {pruned : Option Nat} (h : node.Revised n pruned later) (hn : node.Steady n)
    (method : SamplingMethod) :
    node.Ages n pruned (if later.exploring then later else method.process later) := by
  have hbars : ∀ i, node.Bars i ∨ pruned = some i → later.isFeasible i = false ∧ i ∉ later.unexplored := by
    intro i hb
    refine ⟨h.infeasible i (hb.imp_left Bars.infeasible), ?_⟩
    rw [h.unexplored]
    exact hb.elim Bars.drawn (h.drawn i)
  have hsub : later.unexplored ⊆ node.unexplored := fun i hi => h.unexplored ▸ hi
  split
  next hexploring =>
    have hbefore := h.exploring hexploring
    have hsteady : later.Steady n := by
      refine ⟨h.sized, h.counted.fair (h.next.trans (hn.fair.next_eq_none hbefore)), fun entry he => ?_⟩
      rw [h.leader, hn.exploring_leader hbefore] at he
      cases he
    exact ⟨hsteady, h.objective, hsub, h.costs,
      fun i hb => ⟨⟨(hbars i hb).1, (hbars i hb).2⟩, h.visits i⟩⟩
  next hexploring =>
    have hsteady := steady_process h.sized h.counted (by simpa using hexploring) method
    exact ⟨hsteady, h.objective, hsub, h.costs,
      fun i hb => ⟨⟨(hbars i hb).1, (hbars i hb).2⟩, h.visits i⟩⟩

namespace Steady

/-- A report for a value is taken in. -/
theorem storeCost (h : node.Steady n) (index : Nat) (report : K) :
    node.Revised n none (node.storeCost index report).2 := by
  have hcosts := costs_storeCost node index report
  have heq : (node.storeCost index report).2 = { node.refreshExploring with
      arms := (node.storeCost index report).2.arms } := credit_eq node.refreshExploring index report
  refine {
    sized := h.sized.storeCost index report
    counted := ?_
    objective := by rw [heq]; rfl
    unexplored := by rw [heq]; rfl
    exploring := by rw [heq]; exact exploring_of_refreshed
    leader := by rw [heq]; rfl
    next := by rw [heq]; rfl
    costs := fun i => .inl (by rw [hcosts])
    infeasible := fun i hi => ?_
    drawn := by simp
    visits := visits_storeCost node index report }
  · have hstored : { node.refreshExploring.attentive with
        arms := (node.storeCost index report).2.arms }.costs = node.refreshExploring.attentive.costs :=
      hcosts
    have hrefreshed := h.fair.refreshExploring
    rw [heq]
    exact hrefreshed.toCounted.congr hstored rfl rfl rfl hrefreshed.explored
  · rw [isFeasible_congr hcosts]
    exact hi.resolve_right (by simp)

/-- A value that was drawn is given up. -/
theorem prune (h : node.Steady n) {index : Nat} (hi : index ∉ node.unexplored)
    (hworst : isInfinite (node.objective.worst : K) = true) :
    node.Revised n (some index) (node.prune index) := by
  have heq : node.prune index = { node.refreshExploring with
      arms := (node.prune index).arms, feasibleCount := (node.prune index).feasibleCount } :=
    exclude_eq node.refreshExploring index
  refine {
    sized := h.sized.prune index
    counted := ?_
    objective := by rw [heq]; rfl
    unexplored := by rw [heq]; rfl
    exploring := by rw [heq]; exact exploring_of_refreshed
    leader := by rw [heq]; rfl
    next := by rw [heq]; rfl
    costs := fun i => ?_
    infeasible := fun i hf => ?_
    drawn := fun i he => Option.some.inj he ▸ hi
    visits := visits_prune node index }
  · have hexcluded := h.fair.refreshExploring.toCounted.exclude hi rfl hworst
    rw [BanditNode.prune, exclude_attentive]
    exact hexcluded
  · rcases getElem?_costs_exclude node.refreshExploring index i with hc | ⟨rfl, hc⟩
    · exact .inl hc
    · exact .inr ⟨rfl, hc⟩
  · rcases hf with hf | he
    · exact isFeasible_prune_of_false hf index hworst
    · obtain rfl := Option.some.inj he
      exact isFeasible_prune node index hworst

end Steady

variable {G : Type} [Generator G]

/-- What a draw among the values not yet drawn gives. -/
structure DrawsFresh (n : Nat) (node : BanditNode K) (draw : Draw K G) : Prop where
  steady : draw.node.Steady n
  chosen : ∀ index, draw.chosen = some index →
    index ∉ draw.node.unexplored ∧ index ∈ node.unexplored
  unexplored : draw.node.unexplored ⊆ node.unexplored
  visits : ∀ i, draw.node.visits i = node.visits i + if draw.chosen = some i then 1 else 0
  none : draw.chosen = none → draw.node.exploring = false ∧ draw.node.leader = node.leader

/-- What a draw gives. -/
structure DrawsSteady (n : Nat) (node : BanditNode K) (draw : Draw K G) : Prop where
  steady : draw.node.Steady n
  /-- The chosen value counts as drawn, and was one not yet drawn or a feasible one. -/
  chosen : ∀ index, draw.chosen = some index →
    index ∉ draw.node.unexplored ∧ (index ∈ node.unexplored ∨ node.isFeasible index = true)
  unexplored : draw.node.unexplored ⊆ node.unexplored
  /-- Its visit is counted, and no other one. -/
  visits : ∀ i, draw.node.visits i = node.visits i + if draw.chosen = some i then 1 else 0
  /-- There is no choice only when every value was drawn and none is feasible. -/
  none : draw.chosen = none → draw.node.unexplored = [] ∧ ∀ i, node.isFeasible i = false

omit [Generator G] in
theorem Counted.raise {count : Int} (h : Counted { node with feasibleCount := count })
    (hle : count ≤ node.feasibleCount) : node.Counted :=
  ⟨h.nodup, Int.le_trans h.count hle, h.explored, h.ignoring⟩

theorem drawSelected_attentive (node : BanditNode K) (method : SamplingMethod) (generator : G) :
    node.attentive.drawSelected method generator
      = { node.drawSelected method generator with
          node := (node.drawSelected method generator).node.attentive } := by
  have hselect : method.select node.attentive generator = method.select node generator := rfl
  unfold drawSelected
  rw [hselect]
  split <;> rfl

namespace Steady

/-- A value is taken out of those not yet drawn.  An infeasible one need not be counted down. -/
theorem take (h : node.Steady n) {count : Int} {x : Nat} {rest : List Nat}
    (hperm : (x :: rest).Perm node.unexplored)
    (hcount : (if node.isFeasible x then node.feasibleCount else node.feasibleCount - 1) ≤ count) :
    Steady n { node with unexplored := rest, feasibleCount := count } := by
  have htaken := h.fair.take _ hperm rfl
  have hover : ∀ i ∈ rest, i < n :=
    fun i hi => h.sized.unexplored i (hperm.mem_iff.mp (List.mem_cons_of_mem x hi))
  exact ⟨⟨h.sized.arms, hover, h.sized.leader, h.sized.next⟩,
    ⟨htaken.toCounted.raise hcount, htaken.next⟩, h.leader⟩

theorem drawUnexplored (h : node.Steady n) (generator : G) :
    node.DrawsFresh n (node.drawUnexplored generator) := by
  induction node, generator using drawUnexplored_induction with
  | passed node generator later index rest hperm _ hinfeasible hdraw ih =>
    -- the value was infeasible and is counted down, so the node without it is steady again
    have hdown : (if node.isFeasible index then node.feasibleCount else node.feasibleCount - 1)
        ≤ node.feasibleCount - 1 := by
      rw [hinfeasible]
      exact Int.le_refl _
    have hrest := ih (h.take hperm hdown)
    have hsub : rest ⊆ node.unexplored :=
      fun i hi => hperm.mem_iff.mp (List.mem_cons_of_mem index hi)
    rw [hdraw]
    exact ⟨hrest.steady,
      fun i hi => ⟨(hrest.chosen i hi).1, hsub (hrest.chosen i hi).2⟩,
      List.Subset.trans hrest.unexplored hsub, hrest.visits, hrest.none⟩
  | taken node generator later index rest hperm _ hdraw =>
    have hmem : index ∈ node.unexplored := hperm.mem_iff.mp List.mem_cons_self
    have hfresh : index ∉ rest := (List.nodup_cons.mp (hperm.nodup_iff.mpr h.fair.nodup)).1
    have htaken : Steady n { node with unexplored := rest } := h.take hperm (by split <;> omega)
    have hcosts := costs_countVisit { node with unexplored := rest } index
    have hlt : index < node.arms.length := h.sized.arms ▸ h.sized.unexplored _ hmem
    rw [hdraw]
    refine ⟨⟨htaken.sized.countVisit _, htaken.fair.countVisit _, fun entry he => ?_⟩, fun i hi => ?_,
      fun i hi => hperm.mem_iff.mp (List.mem_cons_of_mem index hi), fun i => ?_, by simp⟩
    · rw [isFeasible_congr hcosts]
      exact htaken.leader entry he
    · obtain rfl := Option.some.inj hi
      exact ⟨hfresh, hmem⟩
    · simp only [Option.some.injEq]
      exact visits_countVisit hlt i
  | spent node generator hnil hdraw =>
    rw [hdraw]
    refine ⟨⟨⟨h.sized.arms, h.sized.unexplored, h.sized.leader, h.sized.next⟩,
      ⟨h.fair.toCounted.congr rfl rfl rfl rfl fun _ => hnil, fun entry he => ?_⟩, fun entry he => ?_⟩,
      by simp, fun i hi => hi, fun i => by simp [visits], fun _ => ⟨rfl, rfl⟩⟩
    · exact ⟨rfl, (h.fair.next entry he).2⟩
    · exact ⟨rfl, (h.leader entry he).2⟩

theorem drawSelected (h : node.Steady n) (method : SamplingMethod) (hx : node.exploring = false)
    (generator : G) : node.DrawsSteady n (node.drawSelected method generator) := by
  have hfair := h.fair.drawSelected method hx generator
  have hover := h.sized.drawSelected method generator
  have hnil : node.unexplored = [] := h.fair.explored hx
  rw [drawSelected_attentive] at hfair
  have hsame : (node.drawSelected method generator).node.leader = node.leader ∧
      (node.drawSelected method generator).node.exploring = node.exploring ∧
      (node.drawSelected method generator).node.unexplored = node.unexplored ∧
      ∀ i, (node.drawSelected method generator).node.visits i
        = node.visits i + if (node.drawSelected method generator).chosen = some i then 1 else 0 := by
    have hlt := hover.chosen
    unfold BanditNode.drawSelected at hlt ⊢
    split
    · exact ⟨rfl, rfl, rfl, fun i => by simp⟩
    next index _ hs =>
      rw [hs] at hlt
      refine ⟨rfl, rfl, rfl, fun i => ?_⟩
      simpa using visits_countVisit (h.sized.arms ▸ hlt index rfl) i
  obtain ⟨hleader, hexploring, hunexplored, hvisits⟩ := hsame
  refine ⟨⟨hover.covers, hfair.fair, fun entry he => ?_⟩, fun index hi => ?_, ?_, hvisits, fun hnone => ?_⟩
  · rw [hleader] at he
    rw [hexploring, isFeasible_congr hover.costs]
    exact h.leader entry he
  · exact ⟨(hfair.chosen index hi).2, .inr (hfair.chosen index hi).1⟩
  · rw [hunexplored]
    exact List.Subset.refl _
  · exact ⟨hunexplored.trans hnil, hfair.none hnone⟩

/-- A draw leaves a steady node. -/
theorem draw (h : node.Steady n) (method : SamplingMethod) (generator : G) :
    node.DrawsSteady n (node.draw method generator) := by
  have hfresh := h.drawUnexplored generator
  have hfeasible := isFeasible_congr (h.sized.drawUnexplored generator).costs
  rcases node.draw_cases method generator with
    ⟨-, hstop, hdraw⟩ | ⟨-, hnone, hdraw⟩ | ⟨hx, hzero, hdraw⟩ | ⟨hx, hdraw⟩ <;> rw [hdraw]
  · refine ⟨hfresh.steady, fun index hi => (hfresh.chosen index hi).imp_right .inl,
      hfresh.unexplored, hfresh.visits, fun hnone => ?_⟩
    refine ⟨hfresh.steady.fair.explored (hfresh.none hnone).1, fun i => ?_⟩
    rw [← hfeasible]
    exact hfresh.steady.fair.toCounted.isFeasible_eq_false (hstop hnone) i
  · have hover := (hfresh.none hnone).1
    have hprocessed :=
      steady_process hfresh.steady.sized hfresh.steady.fair.toCounted hover method
    have hprocess : (method.process (node.drawUnexplored generator).node).isFeasible
        = node.isFeasible := (isFeasible_congr (costs_process _ _)).trans hfeasible
    have hs := hprocessed.drawSelected method hover (node.drawUnexplored generator).generator
    refine ⟨hs.steady, fun index hi => ?_, List.Subset.trans hs.unexplored hfresh.unexplored, fun i => ?_,
      fun hn => hprocess ▸ hs.none hn⟩
    · exact (hs.chosen index hi).imp_right fun hor =>
        hor.imp (fun hm => hfresh.unexplored hm) fun hf => hprocess ▸ hf
    · have hbefore : (node.drawUnexplored generator).node.visits i = node.visits i := by
        simpa [hnone] using hfresh.visits i
      rw [← hbefore]
      exact hs.visits i
  · exact ⟨h, by simp, List.Subset.refl _, fun i => by simp,
      fun _ => ⟨h.fair.explored hx, h.fair.toCounted.isFeasible_eq_false hzero⟩⟩
  · exact h.drawSelected method hx generator

/-- A value out of play is not drawn. -/
theorem chosen_ne (h : node.Steady n) {index : Nat} (hb : node.Bars index) (method : SamplingMethod)
    (generator : G) : (node.draw method generator).chosen ≠ some index := by
  intro hchosen
  rcases ((h.draw method generator).chosen index hchosen).2 with hm | hf
  · exact hb.drawn hm
  · rw [hb.infeasible] at hf
    cases hf

/-- What becomes of a node by a draw, whether or not the visit of the node is recorded. -/
theorem ages_draw (h : node.Steady n) (method : SamplingMethod) (generator : G) :
    node.Ages n none (node.draw method generator).node := by
  have hdraw := h.draw method generator
  have hover := h.sized.draw method generator
  refine ⟨hdraw.steady, hover.objective, hdraw.unexplored, fun i => .inl (by rw [hover.costs]),
    fun i hb => ?_⟩
  have hb : node.Bars i := hb.resolve_right (by simp)
  refine ⟨⟨?_, fun hm => hb.drawn (hdraw.unexplored hm)⟩, ?_⟩
  · rw [isFeasible_congr hover.costs]
    exact hb.infeasible
  · rw [hdraw.visits, if_neg (h.chosen_ne hb method generator), Nat.add_zero]

theorem ages_recordVisit (h : node.Steady n) (formula : BoundFormula) :
    node.Ages n none (node.recordVisit formula) := by
  have hcosts := costs_recordVisit node formula
  have hsteady : (node.recordVisit formula).Steady n := by
    refine ⟨h.sized.recordVisit formula, h.fair.recordVisit formula, fun entry he => ?_⟩
    rw [isFeasible_congr hcosts]
    exact h.leader entry he
  refine ⟨hsteady, rfl, fun i hi => hi, fun i => .inl (by rw [hcosts]), fun i hb => ?_⟩
  have hb : node.Bars i := hb.resolve_right (by simp)
  refine ⟨⟨?_, hb.drawn⟩, visits_recordVisit node formula i⟩
  rw [isFeasible_congr hcosts]
  exact hb.infeasible

end Steady

end BanditNode

end DcopSearch
