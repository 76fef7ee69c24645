import DcopSearch.Proofs.Sampling.Coherent

/-! On what grounds a variable reports.  A leaf tells its best cost; a variable that has drawn no value
has none that is feasible; and after a round of reports a variable tells their sum and its own cost, or
gives up the value that it has pruned.  A reaction keeps the nodes coherent. -/

namespace DcopSearch

open CostArithmetic

variable {K G : Type} [CostArithmetic K] [Generator G] {problem : Problem K} {s t : SamplingState K}
  {settings : SamplingSettings K} {dead : (String → Option Value) → Prop}

omit [Generator G] in
theorem Reaction.Acts.unique {delta : K} {s' : SamplingState K} {final final' : Bool}
    {reaction : Reaction K G} {act act' : Act K} (h : reaction.Acts problem delta s final act)
    (h' : reaction.Acts problem delta s' final' act')
    (hp : ∀ cost, act = .report cost → reaction.state.parent.isSome) : act' = act := by
  have he := Except.ok.inj (h.outcome.symm.trans h'.outcome)
  have hmessages : act.messages problem delta reaction.state
      = act'.messages problem delta reaction.state := congrArg Emission.messages he
  have hfinish : act.isFinish = act'.isFinish := congrArg Emission.terminated he
  cases act with
  | report cost =>
    obtain ⟨parent, hparent⟩ := Option.isSome_iff_exists.mp (hp cost rfl)
    cases act' with
    | report cost' => simpa [Act.messages, hparent] using hmessages.symm
    | sample =>
      cases hc : reaction.state.children <;>
        simp [Act.messages, hparent, SamplingState.asks, hc] at hmessages
    | finish => cases hfinish
  | sample =>
    have hleaf := h.leaves.1
    cases act' with
    | report cost =>
      have hne : reaction.state.children ≠ [] := by simpa [SamplingState.isLeaf] using hleaf
      obtain ⟨child, rest, hc⟩ := List.exists_cons_of_ne_nil hne
      cases hparent : reaction.state.parent <;>
        simp [Act.messages, hparent, SamplingState.asks, hc] at hmessages
    | sample => rfl
    | finish => cases hfinish
  | finish =>
    cases act' with
    | finish => rfl
    | report cost => cases hfinish
    | sample => cases hfinish

/-- The nodes are coherent after an act, a sample is a feasible value, and what is reported is so on
the grounds that `tells` gives. -/
structure Reaction.Grounded (settings : SamplingSettings K) (dead : (String → Option Value) → Prop)
    (tells : Option K → SamplingState K → Prop) (reaction : Reaction K G) (act : Act K) : Prop where
  coherent : reaction.state.Coherent settings dead
  samples : act = .sample → reaction.state.Samples
  tells : ∀ cost, act = .report cost → tells cost reaction.state

namespace SamplingState

omit [CostArithmetic K] in
theorem node?_setNode {node : BanditNode K} (hn : s.node? = some node) (other : BanditNode K) :
    (s.setNode other).node? = some other := by
  obtain ⟨place, ha, hp⟩ := Option.bind_eq_some_iff.mp hn
  have hlt : place < s.nodes.length := (List.getElem?_eq_some_iff.mp hp).1
  simp [node?, SamplingState.setNode, ha, hlt]

/-- Without a feasible value in the node each value is infinite by itself or dead. -/
theorem Prices.of_infeasible {key : List Value} {node : BanditNode K} (h : s.Prices dead key node)
    (hnone : ∀ i, node.isFeasible i = false) {own : Value} (hown : own ∈ s.domain) :
    isInfinite (s.costAt key own) = true ∨ dead (s.under key own) := by
  obtain ⟨i, hi⟩ := List.mem_iff_getElem?.mp hown
  obtain ⟨cost, hc, hcost⟩ := h i own hi
  have hinfinite : isInfinite cost = true := by
    have hf := hnone i
    rw [BanditNode.isFeasible_eq, hc] at hf
    simpa using hf
  exact hcost.imp (fun he => by rw [← he, hinfinite]) And.right

theorem Prices.of_feasible {key : List Value} {node : BanditNode K} {i : Nat} {own : Value}
    (h : s.Prices dead key node) (hi : s.domain[i]? = some own) (hf : node.isFeasible i = true) :
    node.costs[i]? = some (s.costAt key own) := by
  obtain ⟨cost, hc, rfl | ⟨hinfinite, -⟩⟩ := h i own hi
  · exact hc
  · rw [BanditNode.isFeasible_eq, hc] at hf
    simp [hinfinite] at hf

omit [Generator G] in
theorem Sound.eq_report (h : s.Sound problem) {parent : String} (hp : s.parent = some parent)
    {delta : K} {generator : G} {cost : Option K} {s' : SamplingState K} {final : Bool} {act : Act K}
    (hacts : (s.reports problem generator cost).Acts problem delta s' final act) :
    act = .report cost := by
  refine (h.reports hp delta generator cost).unique hacts fun _ _ => ?_
  show s.parent.isSome
  rw [hp]
  rfl

/-- A draw keeps the nodes coherent.  What is drawn is feasible, and nothing is drawn only if no value
is. -/
theorem Coherent.draws (h : s.Coherent settings dead) (hs : s.Sound problem) (ho : s.Opened)
    {node : BanditNode K} (hn : s.node? = some node) (generator : G) :
    (s.setNode (node.draw settings.method generator).node).Coherent settings dead ∧
    (∀ i, (node.draw settings.method generator).chosen = some i →
      (s.holds (node.draw settings.method generator).node i).Coherent settings dead ∧
        (s.holds (node.draw settings.method generator).node i).Samples) ∧
    ((node.draw settings.method generator).chosen = none → ∀ own ∈ s.domain,
      isInfinite (s.costAt s.contextKey own) = true ∨ dead (s.under s.contextKey own)) := by
  obtain ⟨hfair, hobjective, hignore⟩ := h.of_node hn
  have hover := hs.over_of_node hn
  have hdraw := hover.draw settings.method generator
  have hdrawn := hfair.draw hover settings.method generator
  have hprices := h.prices_node ho hn
  refine ⟨?_, fun i hi => ⟨?_, ho, ?_⟩, fun hnone own hown => ?_⟩
  · exact h.setNode ho hdrawn.fair (hdraw.objective.trans hobjective)
      (hdraw.ignoring.trans hignore) (hprices.congr hdraw.costs)
  · have hset := h.setNode ho (hdrawn.fair.recordVisit s.bound)
      (hdraw.objective.trans hobjective) (hdraw.ignoring.trans hignore)
      (hprices.congr ((BanditNode.costs_recordVisit _ _).trans hdraw.costs))
    exact hset.congr rfl rfl rfl rfl rfl rfl
  · obtain ⟨hfeasible, hdrawn⟩ := hdrawn.chosen i hi
    refine ⟨_, i, node?_setNode hn _, rfl, ?_, hdrawn⟩
    rw [BanditNode.isFeasible_congr ((BanditNode.costs_recordVisit _ _).trans hdraw.costs)]
    exact hfeasible
  · exact hprices.of_infeasible (hdrawn.none hnone) hown

/-- Going on by itself, a variable reports nothing. -/
theorem Coherent.proceeds (h : s.Coherent settings dead) (hs : s.Sound problem) (hi : s.Informed)
    (hl : s.isLeaf = false) (ho : s.Opened) (tells : Option K → SamplingState K → Prop)
    (generator : G) {s' : SamplingState K} {final : Bool} {act : Act K}
    (hacts : (s.proceeds settings problem generator).Acts problem settings.delta s' final act) :
    (s.proceeds settings problem generator).Grounded settings dead tells act := by
  have hactive := ho.isSome
  obtain ⟨node, hn, hover⟩ := hs.exists_node hactive
  obtain ⟨hnone, hsome, -⟩ := h.draws hs ho hn generator
  have hfinish : ∀ (t : SamplingState K) (g : G), t.Sound problem → t.Informed →
      t.Coherent settings dead → (t.terminates problem settings.delta g).Acts problem
        settings.delta s' final act →
      (t.terminates problem settings.delta g).Grounded settings dead tells act := by
    intro t g ht hti hc hacts
    obtain rfl := (ht.terminates hti settings.delta g).unique hacts (by simp)
    exact ⟨hc.congr rfl rfl rfl rfl rfl rfl, by simp, by simp⟩
  unfold SamplingState.proceeds at hacts ⊢
  split at hacts
  next hconverged =>
    rw [if_pos hconverged]
    refine hfinish _ _ hs.adoptLeader ((keeps_adoptLeader s).informed hi) ?_ hacts
    unfold SamplingState.adoptLeader
    split
    · exact h
    · exact h.congr rfl rfl rfl rfl rfl rfl
  next hgo =>
    rw [if_neg hgo]
    have hdraw := hover.draw settings.method generator
    cases hc : (node.draw settings.method generator).chosen with
    | none =>
      rw [samplesOr_of_none hn hc] at hacts ⊢
      exact hfinish _ _ (hs.setNode hdraw.covers) hi hnone hacts
    | some i =>
      obtain ⟨hcoherent, hsamples⟩ := hsome i hc
      have ht : (s.holds (node.draw settings.method generator).node i).Sound problem :=
        (hs.setNode (hdraw.covers.recordVisit s.bound)).setCurrent (hdraw.chosen i hc)
      have hsends := ht.sends hi hl rfl hactive settings.delta
        (node.draw settings.method generator).generator (Bool.false_or s.parentFinished).symm
      rw [samplesOr_of_some hn hc] at hacts ⊢
      obtain rfl := hsends.unique hacts (by simp)
      exact ⟨hcoherent, fun _ => hsamples, by simp⟩

/-- The grounds on which a variable answers a context at once: a leaf has the cost of the best of its
values, and any other variable has none that is feasible. -/
inductive Solves (settings : SamplingSettings K) (dead : (String → Option Value) → Prop)
    (s : SamplingState K) : Option K → SamplingState K → Prop where
  | best {t : SamplingState K} {i : Nat} {cost : K} : s.children = [] → t.current = some i →
      settings.objective.earliestBest ((List.range s.domain.length).zip (s.domain.map s.ownCost))
        = some (i, cost) → (s.domain.map s.ownCost)[i]? = some cost →
      Solves settings dead s (if isInfinite cost then none else some cost) t
  | barren {t : SamplingState K} : (∀ own ∈ s.domain,
      isInfinite (s.costAt s.contextKey own) = true ∨ dead (s.under s.contextKey own)) →
      Solves settings dead s none t

/-- The node of the context is coherent with the others, whether it was there or not. -/
theorem Coherent.activate (h : s.Coherent settings dead) (hs : s.Sound problem) (hi : s.Informed)
    (hfeasible : settings.ignoreInfeasible = true ∨
      ∀ own ∈ s.domain, isInfinite (s.ownCost own) = false) :
    ∃ t, s.activate settings = .ok t ∧ t.Sound problem ∧ s.Keeps t ∧
      t.Coherent settings dead ∧ t.Opened := by
  rcases hs.activate hi settings with ⟨place, hp, hactivate⟩ | ⟨_, hactivate⟩
  · exact ⟨_, hactivate, hs.setActive (hs.index _ _ hp),
      ⟨rfl, rfl, rfl, rfl, rfl, rfl, rfl, rfl⟩, h.congr rfl rfl rfl rfl rfl rfl, place, rfl, hp⟩
  · exact ⟨_, hactivate, hs.addNode (over_ofCosts_domain s _ _) _, keeps_addNode s _ _,
      h.addNode hs hfeasible, opened_addNode s _⟩

theorem Keeps.costAt (h : s.Keeps t) : t.costAt = s.costAt ∧ t.under = s.under ∧
    t.contextKey = s.contextKey := by
  have hunder := under_congr h.name (congrArg _ h.slots)
  exact ⟨costAt_congr hunder h.spaces, hunder, by rw [contextKey, contextKey, h.slots]⟩

omit [CostArithmetic K] [Generator G] in
theorem Keeps.handed (h : s.Keeps t) (hc : t.current = s.current) :
    t.handed = s.handed ∧ t.currentValue = s.currentValue := by
  have hvalue : t.currentValue = s.currentValue := by
    rw [currentValue, currentValue, h.domain, hc]
  exact ⟨by rw [SamplingState.handed, SamplingState.handed, entries, entries, h.slots, h.name,
    hvalue], hvalue⟩

omit [Generator G] in
theorem Keeps.ownCost (h : s.Keeps t) : t.ownCost = s.ownCost := by
  funext own
  rw [SamplingState.ownCost, SamplingState.ownCost, h.spaces, entries, entries, h.slots, h.name]

omit [Generator G] in
/-- A leaf tells the cost of the best of its values. -/
theorem Coherent.solves (h : s.Coherent settings dead) (hs : s.Sound problem)
    (wf : problem.WellFormed) (hi : s.Informed) (hl : s.isLeaf = true) {final : Bool}
    (hparent : final = false → ∃ parent, s.parent = some parent) (generator : G) {act : Act K}
    (hacts : (s.solves settings problem generator final).Acts problem settings.delta s final act) :
    (s.solves settings problem generator final).Grounded settings dead (Solves settings dead s)
      act := by
  obtain ⟨i, cost, hbest, hcost, hsolve⟩ := hs.solveLeaf wf hi settings.objective
  have hlt : i < s.domain.length := by
    simpa using (List.getElem?_eq_some_iff.mp hcost).1
  have ht := hs.setCurrent hlt
  have hc : Coherent settings dead { s with current := some i } := h.congr rfl rfl rfl rfl rfl rfl
  rw [SamplingState.solves, hsolve] at hacts ⊢
  cases final with
  | true =>
    obtain rfl := (ht.terminates hi settings.delta generator).unique hacts (by simp)
    exact ⟨hc.congr rfl rfl rfl rfl rfl rfl, by simp, by simp⟩
  | false =>
    obtain ⟨parent, hp⟩ := hparent rfl
    obtain rfl := ht.eq_report hp hacts
    refine ⟨hc, by simp, fun told htold => ?_⟩
    obtain rfl := Act.report.inj htold
    exact .best (by simpa [isLeaf] using hl) rfl hbest hcost

/-- A variable that draws no value has none that is feasible. -/
theorem Coherent.samplesOr_reports (h : s.Coherent settings dead) (hs : s.Sound problem)
    (hi : s.Informed) (hl : s.isLeaf = false) (ho : s.Opened) {parent : String}
    (hp : s.parent = some parent) (tells : Option K → SamplingState K → Prop)
    (hbarren : (∀ own ∈ s.domain, isInfinite (s.costAt s.contextKey own) = true ∨
      dead (s.under s.contextKey own)) → ∀ t, tells none t) (generator : G)
    {s' : SamplingState K} {act : Act K}
    (hacts : (s.samplesOr settings problem generator fun state generator =>
      state.reports problem generator none).Acts problem settings.delta s' false act) :
    (s.samplesOr settings problem generator fun state generator =>
      state.reports problem generator none).Grounded settings dead tells act := by
  have hactive := ho.isSome
  obtain ⟨node, hn, hover⟩ := hs.exists_node hactive
  obtain ⟨hcoherent, hsome, hnone⟩ := h.draws hs ho hn generator
  have hdraw := hover.draw settings.method generator
  cases hchosen : (node.draw settings.method generator).chosen with
  | none =>
    simp only [samplesOr_of_none hn hchosen] at hacts ⊢
    obtain rfl := (hs.setNode hdraw.covers).eq_report hp hacts
    refine ⟨hcoherent, by simp, fun told htold => ?_⟩
    obtain rfl := Act.report.inj htold
    exact hbarren (hnone hchosen) _
  | some i =>
    simp only [samplesOr_of_some hn hchosen] at hacts ⊢
    have ht : (s.holds (node.draw settings.method generator).node i).Sound problem :=
      (hs.setNode (hdraw.covers.recordVisit s.bound)).setCurrent (hdraw.chosen i hchosen)
    obtain rfl := (ht.sends hi hl rfl hactive settings.delta
      (node.draw settings.method generator).generator
      (Bool.false_or s.parentFinished).symm).unique hacts (by simp)
    exact ⟨(hsome i hchosen).1, fun _ => (hsome i hchosen).2, by simp⟩

/-- A variable answers a context on good grounds. -/
theorem Coherent.answers (h : s.Coherent settings dead) (hs : s.Sound problem)
    (wf : problem.WellFormed) (hi : s.Informed)
    (hfeasible : settings.ignoreInfeasible = true ∨
      ∀ own ∈ s.domain, isInfinite (s.ownCost own) = false)
    {final : Bool} (hroot : s.parent = none → final = true) (generator : G) {act : Act K}
    (hacts : (s.answers settings problem generator final).Acts problem settings.delta s final act) :
    (s.answers settings problem generator final).Grounded settings dead (Solves settings dead s)
      act := by
  have hparent : final = false → ∃ parent, s.parent = some parent := by
    rintro rfl
    cases hp : s.parent with
    | none => simpa using hroot hp
    | some parent => exact ⟨parent, rfl⟩
  unfold SamplingState.answers at hacts ⊢
  split at hacts
  next hleaf =>
    rw [if_pos hleaf]
    exact h.solves hs wf hi hleaf hparent generator hacts
  next hleaf =>
    rw [if_neg hleaf]
    obtain ⟨t, hactivate, ht, hk, hc, ho⟩ := h.activate hs hi hfeasible
    have hleaf : t.isLeaf = false := by
      rw [isLeaf, hk.children]
      simpa [isLeaf] using hleaf
    have hti := hk.informed hi
    rw [hactivate] at hacts ⊢
    cases final with
    | true =>
      have hc' : Coherent settings dead { t with parentFinished := true } :=
        hc.congr rfl rfl rfl rfl rfl rfl
      exact hc'.proceeds (ht.setPhase t.phase true t.round) hti hleaf ho _ generator hacts
    | false =>
      obtain ⟨parent, hp⟩ := hparent rfl
      refine hc.samplesOr_reports ht hti hleaf ho (hk.parent.trans hp) _ (fun hall _ => ?_)
        generator hacts
      obtain ⟨hcost, hunder, hkey⟩ := hk.costAt
      rw [hcost, hunder, hkey, hk.domain] at hall
      exact .barren hall

/-- What is left of a node when a round has been credited to it. -/
structure Credited (dead : (String → Option Value) → Prop) (s : SamplingState K)
    (node credited : BanditNode K) : Prop where
  counted : credited.Counted
  next : credited.next = node.next
  exploring : credited.exploring = node.refreshExploring.exploring
  objective : credited.objective = node.objective
  ignoring : credited.ignoreInfeasible = node.ignoreInfeasible
  prices : s.Prices dead s.contextKey credited

/-- A value is pruned only where it is dead. -/
theorem Coherent.credit (h : s.Coherent settings dead) (ho : s.Opened) {node : BanditNode K}
    (hn : s.node? = some node) {index : Nat} {own : Value} (hown : s.domain[index]? = some own)
    (hdrawn : index ∉ node.unexplored) (round : Round K)
    (hdead : settings.pruning = true → round.infeasible = true →
      settings.ignoreInfeasible = true ∧ dead (s.under s.contextKey own))
    (hworst : isInfinite (settings.objective.worst : K) = true) :
    Credited dead s node (credit settings round index node).2 := by
  obtain ⟨hfair, hobjective, hignore⟩ := h.of_node hn
  have hprices := h.prices_node ho hn
  unfold SamplingState.credit
  split
  next hprune =>
    obtain ⟨hp, hr⟩ := (Bool.and_eq_true _ _).mp hprune
    obtain ⟨hi, hd⟩ := hdead hp hr
    have hworst : isInfinite (node.refreshExploring.objective.worst : K) = true := by
      rw [show node.refreshExploring.objective = _ from hobjective]
      exact hworst
    have hcounted := hfair.toCounted.refreshExploring.exclude hdrawn (hignore.trans hi) hworst
    refine ⟨hcounted, ?_, ?_, ?_, ?_, fun i other hi => ?_⟩
    · rw [BanditNode.prune, BanditNode.exclude_eq]; rfl
    · rw [BanditNode.prune, BanditNode.exclude_eq]
    · rw [BanditNode.prune, BanditNode.exclude_eq]; rfl
    · rw [BanditNode.prune, BanditNode.exclude_eq]; rfl
    · rcases BanditNode.getElem?_costs_exclude node.refreshExploring index i with hc | ⟨rfl, hc⟩
      · rw [BanditNode.prune, hc]
        exact hprices i other hi
      · obtain rfl := Option.some.inj (hi.symm.trans hown)
        exact ⟨_, hc, .inr ⟨hworst, hd⟩⟩
  next =>
    refine ⟨hfair.toCounted.storeCost index round.sum, ?_, ?_, ?_, ?_,
      hprices.congr (BanditNode.costs_storeCost node index round.sum)⟩
    all_goals rw [BanditNode.storeCost, BanditNode.credit_eq]
    all_goals rfl

/-- A round that is credited to the value held, which is feasible, keeps the node fair and coherent. -/
theorem Coherent.credited (h : s.Coherent settings dead) (ho : s.Opened) {node : BanditNode K}
    (hn : s.node? = some node) {index : Nat} {own : Value} (hown : s.domain[index]? = some own)
    (hdrawn : index ∉ node.unexplored) (round : Round K)
    (hdead : settings.pruning = true → round.infeasible = true →
      settings.ignoreInfeasible = true ∧ dead (s.under s.contextKey own))
    (hworst : isInfinite (settings.objective.worst : K) = true) :
    (s.setNode (creditedNode settings round index node)).Coherent settings dead := by
  obtain ⟨hfair, hobjective, hignore⟩ := h.of_node hn
  have hcredit := h.credit ho hn hown hdrawn round hdead hworst
  refine h.setNode ho ?_ ?_ ?_ ?_
  · unfold creditedNode
    simp only
    split
    next hx =>
      have hx : node.exploring = true := by
        rw [hcredit.exploring] at hx
        exact ((Bool.and_eq_true _ _).mp hx).1
      exact hcredit.counted.fair (hcredit.next.trans (hfair.next_eq_none hx))
    next hx => exact hcredit.counted.process _ (by simpa using hx)
  · unfold creditedNode
    simp only
    split <;> exact hcredit.objective.trans hobjective
  · unfold creditedNode
    simp only
    split <;> exact hcredit.ignoring.trans hignore
  · unfold creditedNode
    simp only
    split <;> exact hcredit.prices

/-- The grounds on which a variable reports after a round: the value held was pruned, or the cost is
the sum of the reports and of the value's own cost. -/
def Joins (settings : SamplingSettings K) (round : Round K) (s : SamplingState K) (cost : Option K)
    (t : SamplingState K) : Prop :=
  t.current = s.current ∧
    cost = if settings.pruning && round.infeasible then none
      else some (round.sum + s.ownCost s.currentValue)

/-- A variable reports after a round on good grounds. -/
theorem Coherent.joins (h : s.Coherent settings dead) (hs : s.Sound problem) (hi : s.Informed)
    (hl : s.isLeaf = false) (hroot : s.parent = none → s.parentFinished = true)
    (hsamples : s.Samples) (round : Round K)
    (hdead : settings.pruning = true → round.infeasible = true →
      settings.ignoreInfeasible = true ∧ dead (s.under s.contextKey s.currentValue))
    (hworst : isInfinite (settings.objective.worst : K) = true) (generator : G) {act : Act K}
    (hacts : (s.joins settings problem generator round).Acts problem settings.delta s
      s.parentFinished act) :
    (s.joins settings problem generator round).Grounded settings dead (Joins settings round s)
      act := by
  obtain ⟨node, index, hn, hindex, hfeasible, hdrawn⟩ := hsamples.held
  have ho := hsamples.opened
  have hown := hs.getElem?_current hindex
  have ht := hs.setNode (over_creditedNode (hs.over_of_node hn) settings round index)
  have hc := h.credited ho hn hown hdrawn round hdead hworst
  rw [joins_eq hindex hn] at hacts ⊢
  split at hacts
  next hfinished =>
    rw [if_pos hfinished]
    exact hc.proceeds ht hi hl ho _ generator hacts
  next hwaits =>
    rw [if_neg hwaits]
    obtain ⟨parent, hp⟩ : ∃ parent, s.parent = some parent := by
      cases hp : s.parent with
      | none => exact absurd (hroot hp) hwaits
      | some parent => exact ⟨parent, rfl⟩
    obtain rfl := ht.eq_report hp hacts
    refine ⟨hc, by simp, fun told htold => ⟨rfl, ?_⟩⟩
    obtain rfl := Act.report.inj htold
    unfold SamplingState.credit
    split
    · rfl
    · have hcost := (h.prices_node ho hn).of_feasible hown hfeasible
      rw [BanditNode.getElem?_costs] at hcost
      obtain ⟨arm, harm, hlocal⟩ := Option.map_eq_some_iff.mp hcost
      have hf : arm.isFeasible = true := by
        rw [BanditNode.isFeasible, harm] at hfeasible
        exact hfeasible
      have harm : node.refreshExploring.arms[index]? = some arm := harm
      simp only [BanditNode.storeCost, BanditNode.credit, harm, hf, if_true]
      rw [hlocal, hs.ownCost_eq]

end SamplingState

end DcopSearch
