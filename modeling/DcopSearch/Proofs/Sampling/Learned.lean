import DcopSearch.Proofs.Bandit.Learned
import DcopSearch.Proofs.Sampling.Grounds

/-! What a variable learns about its contexts.  If the children's reports about a value depend on the
context alone, and no cost is infinite, then the node of a context comes to know them all, and the value
that the variable ends with is the best one in its context.  A leaf always holds the best one. -/

namespace DcopSearch

open CostArithmetic Exact

variable {F G : Type} [Field F] [LinearOrder F] [LnSqrt F] {problem : Problem (Exact F)}
  {s t : SamplingState (Exact F)} {settings : SamplingSettings (Exact F)}
  {dead : (String → Option Value) → Prop} {report : List Value → Value → Exact F}
  {awaited : Option Nat} {objective : Objective}

/-- The value whose report is pending after an act. -/
def Act.pending {K : Type} (s : SamplingState K) : Act K → Option Nat
  | .sample => s.current
  | .report _ | .finish => none

namespace SamplingState

/-- The node of every context knows the reports about the values there; in the active node the one about
the pending value is still to come. -/
def Learned (report : List Value → Value → Exact F) (pending : Option Nat)
    (s : SamplingState (Exact F)) : Prop :=
  ∀ (key : List Value) (place : Nat) (node : BanditNode (Exact F)), s.index[key]? = some place →
    s.nodes[place]? = some node → node.Learns (fun i => report key (s.domain[i]?.getD 0))
      (if s.active = some place then pending else none)

/-- The value held is the best one in the context, by the reports and the variable's own costs. -/
structure Chooses (objective : Objective) (report : Value → Exact F) (s : SamplingState (Exact F)) :
    Prop where
  current : s.current.isSome
  best : ∀ other ∈ s.domain, objective.Prefers
    (report s.currentValue + s.costAt s.contextKey s.currentValue)
    (report other + s.costAt s.contextKey other)

/-- No value is given up, and all costs and reports are numbers. -/
structure Tame (dead : (String → Option Value) → Prop) (report : List Value → Value → Exact F)
    (s : SamplingState (Exact F)) : Prop where
  alive : ∀ value?, ¬dead value?
  costs : ∀ key own, ∃ a, s.costAt key own = number a
  reports : ∀ key own, ∃ a, report key own = number a

theorem Tame.keeps (h : s.Tame dead report) (hk : s.Keeps t) : t.Tame dead report :=
  ⟨h.alive, by rw [hk.costAt.1]; exact h.costs, h.reports⟩

theorem Chooses.keeps {report : Value → Exact F} (h : s.Chooses objective report) (hk : s.Keeps t)
    (hc : t.current = s.current) : t.Chooses objective report := by
  obtain ⟨hcost, -, hkey⟩ := hk.costAt
  refine ⟨hc ▸ h.current, ?_⟩
  rw [hcost, hkey, (hk.handed hc).2, hk.domain]
  exact h.best

theorem Learned.congr (h : s.Learned report awaited) (hdomain : t.domain = s.domain)
    (hnodes : t.nodes = s.nodes) (hindex : t.index = s.index)
    (hactive : t.active = s.active ∨ awaited = none) : t.Learned report awaited := by
  intro key place node hk hp
  rw [hindex] at hk
  rw [hnodes] at hp
  rw [hdomain]
  have hlearns := h key place node hk hp
  rcases hactive with ha | rfl
  · rwa [ha]
  · rw [ite_self] at hlearns ⊢
    exact hlearns

/-- Only the active node is replaced. -/
theorem Learned.setNode (h : s.Learned report awaited) (hc : s.Coherent settings dead)
    (ho : s.Opened) {node : BanditNode (Exact F)} {next : Option Nat}
    (hnode : node.Learns (fun i => report s.contextKey (s.domain[i]?.getD 0)) next) :
    (s.setNode node).Learned report next := by
  obtain ⟨active, ha, hactive⟩ := ho
  intro key place other hk hp
  rw [nodes_setNode ha, List.getElem?_set] at hp
  show other.Learns (fun i => report key (s.domain[i]?.getD 0))
    (if s.active = some place then next else none)
  split at hp
  next he =>
    subst he
    obtain rfl := hc.distinct key s.contextKey active hk hactive
    rw [if_pos ha]
    split at hp
    · obtain rfl := Option.some.inj hp
      exact hnode
    · cases hp
  next hne =>
    have hother : s.active ≠ some place := fun he => hne (Option.some.inj (ha.symm.trans he))
    have hlearns := h key place other hk hp
    rw [if_neg hother] at hlearns ⊢
    exact hlearns

theorem Learned.of_node (h : s.Learned report awaited) (ho : s.Opened)
    {node : BanditNode (Exact F)} (hn : s.node? = some node) :
    node.Learns (fun i => report s.contextKey (s.domain[i]?.getD 0)) awaited := by
  obtain ⟨active, ha, hactive⟩ := id ho
  have hlearns := h _ active node hactive (ho.node_eq hactive ▸ hn)
  rwa [if_pos ha] at hlearns

/-- A context that was not met before has all to be learned about. -/
theorem Learned.addNode (h : s.Learned report none) (hs : s.Sound problem)
    (wf : problem.WellFormed) (htame : s.Tame dead report) :
    (s.addNode s.contextKey (.ofCosts (s.domain.map s.ownCost) settings.objective
      settings.ignoreInfeasible)).Learned report none := by
  intro key place node hk hp
  rw [ite_self]
  rcases found_addNode hs.index hk hp with ⟨rfl, rfl⟩ | ⟨hk, hp⟩
  · refine BanditNode.learns_ofCosts (by simpa using hs.domain_ne_nil wf) (fun cost hc => ?_) _ _ _
    obtain ⟨own, -, rfl⟩ := List.mem_map.mp hc
    rw [hs.ownCost_eq]
    exact htame.costs _ own
  · have hlearns := h key place node hk hp
    rwa [ite_self] at hlearns

theorem Prices.eq_costAt {key : List Value} {node : BanditNode (Exact F)} {i : Nat} {own : Value}
    (h : s.Prices dead key node) (alive : ∀ value?, ¬dead value?) (hi : s.domain[i]? = some own) :
    node.costs[i]? = some (s.costAt key own) := by
  obtain ⟨cost, hc, rfl | ⟨-, hdead⟩⟩ := h i own hi
  · exact hc
  · exact absurd hdead (alive _)

/-- When exploring is over, the leading value is the best one. -/
theorem Learned.adoptLeader (h : s.Learned report none) (hc : s.Coherent settings dead)
    (hs : s.Sound problem) (ho : s.Opened) (htame : s.Tame dead report)
    {node : BanditNode (Exact F)} (hn : s.node? = some node) (hx : node.exploring = false) :
    s.adoptLeader.Chooses settings.objective (report s.contextKey) := by
  obtain ⟨i, score, cost, hleader, hcost, hbest⟩ := (h.of_node ho hn).led hx
  have hlt : i < s.domain.length := (hs.over_of_node hn).leader _ hleader
  have hprices := hc.prices_node ho hn
  have hadopt : s.adoptLeader = { s with current := some i } := by
    simp [SamplingState.adoptLeader, hn, hleader]
  have hvalue : s.adoptLeader.currentValue = s.domain[i] := by
    rw [hadopt, currentValue, Option.getD_some, List.getElem?_eq_getElem hlt, Option.getD_some]
  have hkeeps := keeps_adoptLeader s
  obtain ⟨hcosts, -, hkey⟩ := hkeeps.costAt
  obtain rfl := Option.some.inj
    (hcost.symm.trans (hprices.eq_costAt htame.alive (List.getElem?_eq_getElem hlt)))
  refine ⟨by rw [hadopt]; rfl, fun other ho => ?_⟩
  rw [hkeeps.domain] at ho
  obtain ⟨j, hj, rfl⟩ := List.mem_iff_getElem.mp ho
  have hprefers := hbest j _ (hprices.eq_costAt htame.alive (List.getElem?_eq_getElem hj))
  simp only [(hc.of_node hn).2.1, List.getElem?_eq_getElem hlt, List.getElem?_eq_getElem hj,
    Option.getD_some] at hprefers
  rw [hvalue, hcosts, hkey]
  exact hprefers

/-- A leaf holds the best value, by its own costs alone. -/
theorem Sound.chooses_answers [Generator G] (h : s.Sound problem) (wf : problem.WellFormed)
    (hi : s.Informed) (hl : s.isLeaf = true) (hcosts : ∀ own, ∃ a, s.ownCost own = number a)
    (final : Bool) (settings : SamplingSettings (Exact F)) (generator : G) :
    (s.answers settings problem generator final).state.Chooses settings.objective fun _ => 0 := by
  obtain ⟨i, cost, hbest, hcost, hsolve⟩ := h.solveLeaf wf hi settings.objective
  have hlt : i < s.domain.length := by
    simpa using (List.getElem?_eq_some_iff.mp hcost).1
  have hchooses : Chooses settings.objective (fun _ => 0) { s with current := some i } := by
    have hnumbers : ∀ entry ∈ (List.range s.domain.length).zip (s.domain.map s.ownCost),
        ∃ a, entry.2 = number a := by
      intro entry he
      obtain ⟨own, -, ho⟩ := List.mem_map.mp (List.of_mem_zip he).2
      exact ho ▸ hcosts own
    have hprefers := Objective.earliestBest_prefers hnumbers hbest
    rw [List.getElem?_map, List.getElem?_eq_getElem hlt, Option.map_some] at hcost
    obtain rfl := Option.some.inj hcost
    refine ⟨rfl, fun other ho => ?_⟩
    obtain ⟨j, hj, rfl⟩ := List.mem_iff_getElem.mp ho
    have hj : j < s.domain.length := hj
    have hentry : (j, s.ownCost s.domain[j])
        ∈ (List.range s.domain.length).zip (s.domain.map s.ownCost) := by
      refine List.mem_iff_getElem?.mpr ⟨j, ?_⟩
      rw [List.getElem?_zip_eq_some]
      simp [hj]
    have hown := hprefers _ hentry
    rw [h.ownCost_eq, h.ownCost_eq] at hown
    simp only [zero_add, currentValue, Option.getD_some, List.getElem?_eq_getElem hlt]
    exact hown
  unfold SamplingState.answers
  rw [if_pos hl, SamplingState.solves, hsolve]
  cases final with
  | true => exact hchooses.keeps ⟨rfl, rfl, rfl, rfl, rfl, rfl, rfl, rfl⟩ rfl
  | false => exact hchooses

end SamplingState

/-- After an act the nodes know what they can, and a variable that has ended has chosen the best
value. -/
structure Reaction.Learns (objective : Objective) (report : List Value → Value → Exact F)
    (reaction : Reaction (Exact F) G) (act : Act (Exact F)) : Prop where
  learned : reaction.state.Learned report (act.pending reaction.state)
  chooses : act = .finish →
    reaction.state.Chooses objective (report reaction.state.contextKey)

namespace SamplingState

variable [Generator G]

/-- A value is drawn and handed down, and its report is pending. -/
theorem Learned.samplesOr (h : s.Learned report none) (hc : s.Coherent settings dead)
    (hs : s.Sound problem) (wf : problem.WellFormed) (hi : s.Informed) (hl : s.isLeaf = false)
    (ho : s.Opened) (generator : G) {otherwise : SamplingState (Exact F) → G → Reaction (Exact F) G}
    {s' : SamplingState (Exact F)} {final : Bool} {act : Act (Exact F)}
    (hacts : (s.samplesOr settings problem generator otherwise).Acts problem settings.delta s' final
      act) :
    (s.samplesOr settings problem generator otherwise).Learns objective report act := by
  obtain ⟨node, hn, hover⟩ := hs.exists_node ho.isSome
  have hdraw := hover.draw settings.method generator
  obtain ⟨i, hchosen, hlearns⟩ := (h.of_node ho hn).draw (hc.of_node hn).1 hover
    (List.length_pos_iff.mpr (hs.domain_ne_nil wf)) settings.method generator
  have hlearned : (s.holds (node.draw settings.method generator).node i).Learned report (some i) :=
    (h.setNode hc ho (hlearns.recordVisit s.bound)).congr rfl rfl rfl (.inl rfl)
  have ht : (s.holds (node.draw settings.method generator).node i).Sound problem :=
    (hs.setNode (hdraw.covers.recordVisit s.bound)).setCurrent (hdraw.chosen i hchosen)
  have hsends := ht.sends hi hl rfl ho.isSome settings.delta
    (node.draw settings.method generator).generator (Bool.false_or s.parentFinished).symm
  rw [samplesOr_of_some hn hchosen] at hacts ⊢
  obtain rfl := hsends.unique hacts (by simp)
  exact ⟨hlearned, by simp⟩

/-- Going on by itself, a variable learns on, or ends with the best value. -/
theorem Learned.proceeds (h : s.Learned report none) (hc : s.Coherent settings dead)
    (hs : s.Sound problem) (wf : problem.WellFormed) (hi : s.Informed) (hl : s.isLeaf = false)
    (ho : s.Opened) (htame : s.Tame dead report) (generator : G) {s' : SamplingState (Exact F)}
    {final : Bool} {act : Act (Exact F)}
    (hacts : (s.proceeds settings problem generator).Acts problem settings.delta s' final act) :
    (s.proceeds settings problem generator).Learns settings.objective report act := by
  unfold SamplingState.proceeds at hacts ⊢
  split at hacts
  next hconverged =>
    rw [if_pos hconverged]
    obtain ⟨node, hn, -⟩ := hs.exists_node ho.isSome
    have hx : node.exploring = false := by
      have hnode : node.hasConverged settings.rule settings.error settings.delta = true := by
        simpa [SamplingState.hasConverged, hn] using hconverged
      simpa using ((Bool.and_eq_true _ _).mp hnode).1
    have hkeeps := keeps_adoptLeader s
    obtain rfl := (hs.adoptLeader.terminates (hkeeps.informed hi) settings.delta generator).unique
      hacts (by simp)
    have hlearned : s.adoptLeader.Learned report none := by
      unfold SamplingState.adoptLeader
      split
      · exact h
      · exact h.congr rfl rfl rfl (.inr rfl)
    refine ⟨hlearned.congr rfl rfl rfl (.inr rfl), fun _ => ?_⟩
    have hchooses := h.adoptLeader hc hs ho htame hn hx
    rw [← hkeeps.costAt.2.2] at hchooses
    exact hchooses.keeps ⟨rfl, rfl, rfl, rfl, rfl, rfl, rfl, rfl⟩ rfl
  next hgo =>
    rw [if_neg hgo]
    exact h.samplesOr hc hs wf hi hl ho generator hacts

/-- A variable with children learns on when it answers a context. -/
theorem Learned.answers (h : s.Learned report none) (hc : s.Coherent settings dead)
    (hs : s.Sound problem) (wf : problem.WellFormed) (hi : s.Informed) (hl : s.isLeaf = false)
    (htame : s.Tame dead report)
    (hfeasible : settings.ignoreInfeasible = true ∨
      ∀ own ∈ s.domain, isInfinite (s.ownCost own) = false)
    (final : Bool) (generator : G) {act : Act (Exact F)}
    (hacts : (s.answers settings problem generator final).Acts problem settings.delta s final act) :
    (s.answers settings problem generator final).Learns settings.objective report act := by
  obtain ⟨t, hactivate, ht, hk, htc, ho⟩ := hc.activate hs hi hfeasible
  have hlearned : t.Learned report none := by
    rcases hs.activate hi settings with ⟨place, -, he⟩ | ⟨-, he⟩
    · obtain rfl := Except.ok.inj (hactivate.symm.trans he)
      exact h.congr rfl rfl rfl (.inr rfl)
    · obtain rfl := Except.ok.inj (hactivate.symm.trans he)
      exact h.addNode hs wf htame
  have hleaf : t.isLeaf = false := by
    rw [isLeaf, hk.children]
    exact hl
  have hti := hk.informed hi
  unfold SamplingState.answers at hacts ⊢
  rw [if_neg (by simp [hl])] at hacts ⊢
  rw [hactivate] at hacts ⊢
  cases final with
  | true =>
    have hc' : Coherent settings dead { t with parentFinished := true } :=
      htc.congr rfl rfl rfl rfl rfl rfl
    have hk' : s.Keeps { t with parentFinished := true } :=
      hk.trans ⟨rfl, rfl, rfl, rfl, rfl, rfl, rfl, rfl⟩
    have hlearned' : Learned report none { t with parentFinished := true } :=
      hlearned.congr rfl rfl rfl (.inr rfl)
    exact hlearned'.proceeds hc' (ht.setPhase t.phase true t.round) wf hti hleaf ho
      (htame.keeps hk') generator hacts
  | false =>
    simp only [Bool.false_eq_true, if_false] at hacts ⊢
    exact hlearned.samplesOr htc ht wf hti hleaf ho generator hacts

/-- A variable learns what a round of reports sums up to. -/
theorem Learned.joins [IsStrictOrderedRing F] (h : s.Learned report s.current)
    (hc : s.Coherent settings dead) (hs : s.Sound problem) (wf : problem.WellFormed)
    (hi : s.Informed) (hl : s.isLeaf = false) (hroot : s.parent = none → s.parentFinished = true)
    (hsamples : s.Samples) (htame : s.Tame dead report) (round : Round (Exact F))
    (hfeasible : round.infeasible = false)
    (hsum : round.sum = report s.contextKey s.currentValue) (generator : G) {act : Act (Exact F)}
    (hacts : (s.joins settings problem generator round).Acts problem settings.delta s
      s.parentFinished act) :
    (s.joins settings problem generator round).Learns settings.objective report act := by
  obtain ⟨node, index, hn, hindex, -, hdrawn⟩ := hsamples.held
  have ho := hsamples.opened
  have hover := hs.over_of_node hn
  have hlt := hs.current index hindex
  have hown := hs.getElem?_current hindex
  have hcredited := hc.credited ho hn hown hdrawn round (fun _ he => by simp [hfeasible] at he)
    (Exact.isInfinite_worst _)
  have ht := hs.setNode (over_creditedNode hover settings round index)
  have hk := keeps_setNode s (creditedNode settings round index node)
  have hlearned : (s.setNode (creditedNode settings round index node)).Learned report none := by
    refine h.setNode hc ho ?_
    have hnode := h.of_node ho hn
    rw [hindex] at hnode
    have hlearns := hnode.storeCost (hc.of_node hn).1.explored (fun i => htame.reports _ _)
      (hover.arms ▸ hlt) hdrawn settings.method
    rw [hown, Option.getD_some, ← hsum] at hlearns
    unfold creditedNode SamplingState.credit
    simpa only [hfeasible, Bool.and_false, Bool.false_eq_true, if_false] using hlearns
  rw [joins_eq hindex hn] at hacts ⊢
  split at hacts
  next hfinished =>
    rw [if_pos hfinished]
    exact hlearned.proceeds hcredited ht wf hi hl ho (htame.keeps hk) generator hacts
  next hwaits =>
    rw [if_neg hwaits]
    obtain ⟨parent, hp⟩ : ∃ parent, s.parent = some parent := by
      cases hp : s.parent with
      | none => exact absurd (hroot hp) hwaits
      | some parent => exact ⟨parent, rfl⟩
    obtain rfl := ht.eq_report hp hacts
    exact ⟨hlearned, by simp⟩

end SamplingState

end DcopSearch
