import DcopSearch.Proofs.Sampling.Filed

/-! What a variable does to its bandit nodes when it reacts.  The value it holds was drawn in the active
node, or no value of that node is left to be drawn; so a report is credited, and a value given up, only
where it was drawn before.  A variable that has converged holds the leading value of its node, whose
radius the rule has found to be within the error, or its node has none. -/

namespace DcopSearch

open CostArithmetic

variable {K G : Type} [CostArithmetic K]

/-- The node keeps going when a round of reports is credited. -/
theorem BanditNode.Steady.creditedNode {n : Nat} {node : BanditNode K} (h : node.Steady n)
    {index : Nat} (hi : index ∉ node.unexplored)
    (hworst : isInfinite (node.objective.worst : K) = true) (settings : SamplingSettings K)
    (round : Round K) :
    node.Ages n (if settings.pruning && round.infeasible then some index else none)
      (SamplingState.creditedNode settings round index node) := by
  unfold SamplingState.creditedNode SamplingState.credit
  split
  · exact (h.prune hi hworst).ages h settings.method
  · exact (h.storeCost index round.sum).ages h settings.method

/-- A rule that looks at radii is satisfied only with a leading value whose radius is within the error. -/
theorem StoppingRule.within_of_converged {rule : StoppingRule} {node : BanditNode K} {error delta : K}
    (h : rule.converged node error delta = true) (hrule : rule ≠ .regret) {leader : Nat × K}
    (hl : node.leader = some leader) (hlt : leader.1 < node.arms.length) :
    lt error (node.radius leader.1 delta) = false := by
  have harm : node.arms[leader.1]? = some node.arms[leader.1] := List.getElem?_eq_getElem hlt
  have hwithin : ∀ score : Arm K → K,
      undominated node node.arms[leader.1] score error delta = true →
        lt error (node.radius leader.1 delta) = false := by
    intro score hu
    simp only [undominated, Bool.and_eq_true, Bool.not_eq_true'] at hu
    rw [BanditNode.radius, harm]
    exact hu.1
  simp only [converged, hl, Option.bind_some, harm] at h
  cases rule with
  | mean => exact hwithin _ h
  | best => exact hwithin _ h
  | regret => exact absurd rfl hrule

namespace SamplingState

/-- The value held was drawn in the active node. -/
def Drawn (s : SamplingState K) : Prop :=
  ∀ node i, s.node? = some node → s.current = some i → i ∉ node.unexplored

/-- The leading value of the active node, if there is one, is held, and a rule that looks at radii has
found its radius to be within the error. -/
def Ended (settings : SamplingSettings K) (s : SamplingState K) : Prop :=
  ∀ node leader, s.node? = some node → node.leader = some leader →
    s.current = some leader.1 ∧
      (settings.rule ≠ .regret → lt settings.error (node.radius leader.1 settings.delta) = false)

/-- What is known of the value that a variable with children holds. -/
structure Held (settings : SamplingSettings K) (s : SamplingState K) : Prop where
  drawn : s.isLeaf = false → s.Drawn
  ended : s.isLeaf = false → s.phase = .converged → s.Ended settings

/-- The value that a report makes the variable give up: the one held, if the report is the last one of
a round in which something infeasible was reported. -/
def prunes (s : SamplingState K) (settings : SamplingSettings K) (cost : Option K) : Option Nat :=
  let round := s.round.add s.penalty cost
  if s.phase = .sampling ∧ s.isLeaf = false ∧ s.children.length ≤ round.received ∧
      settings.pruning = true ∧ round.infeasible = true then
    s.current
  else none

variable {settings : SamplingSettings K} {before : List Value → Nat → Prop} {s t : SamplingState K}

omit [CostArithmetic K] in
theorem Drawn.congr (h : s.Drawn) (hn : t.node? = s.node?) (hc : t.current = s.current) : t.Drawn := by
  intro node i hnode hi
  exact h node i (hn ▸ hnode) (hc ▸ hi)

theorem Held.of_isLeaf (h : s.isLeaf = true) : s.Held settings :=
  ⟨fun hl => by simp [h] at hl, fun hl => by simp [h] at hl⟩

/-- A state that is not at its end and in which the value held is the same. -/
theorem Held.congr (h : s.Held settings) (hchildren : t.children = s.children)
    (hn : t.node? = s.node?) (hc : t.current = s.current) (hopen : t.phase ≠ .converged) :
    t.Held settings := by
  have hleaf : t.isLeaf = s.isLeaf := by rw [isLeaf, isLeaf, hchildren]
  exact ⟨fun hl => (h.drawn (hleaf ▸ hl)).congr hn hc, fun _ hp => absurd hp hopen⟩

theorem held_ofView (settings : SamplingSettings K) (name : String) (domain : List Value)
    (view : View) : (ofView settings name domain view).Held settings := by
  refine ⟨fun _ node i hn => ?_, fun _ hp => ?_⟩
  · cases hn
  · cases hp

/-- A node that is taken for explored has no value left to be drawn. -/
theorem Ledger.unexplored_eq_nil (hs : s.Ledger settings.objective before) {node : BanditNode K}
    (hn : s.node? = some node) (hx : node.exploring = false) : node.unexplored = [] :=
  (hs.steady_of_node hn).fair.explored hx

/-- What is left by a sample. -/
structure Sampled (s : SamplingState K) (sample : Sample K G) : Prop where
  works : s.Works none sample.state
  phase : sample.state.phase = s.phase
  drawn : sample.state.Drawn
  /-- If no value was drawn then none leads. -/
  leaderless : sample.chosen = none → ∀ node, sample.state.node? = some node → node.leader = none

section

variable [Generator G]

/-- Sampling fails only without an active node. -/
theorem drawn_of_sample_error {generator : G} {error : AgentError}
    (h : s.sample settings generator = .error error) : s.Drawn := by
  intro node i hn _
  unfold SamplingState.sample at h
  rw [hn] at h
  simp only at h
  split at h <;> cases h

theorem Ledger.sample (hs : s.Ledger settings.objective before) {generator : G} {sample : Sample K G}
    (h : s.sample settings generator = .ok sample) : s.Sampled sample := by
  unfold SamplingState.sample at h
  split at h
  · cases h
  next node hn =>
    have hsteady := hs.steady_of_node hn
    have hdraw := hsteady.draw settings.method generator
    have hages := hsteady.ages_draw settings.method generator
    simp only at h
    split at h
    next hnone =>
      cases h
      have hnode := node?_setNode hn (node.draw settings.method generator).node
      obtain ⟨hnil, hinfeasible⟩ := hdraw.none hnone
      refine ⟨works_setNode hn hages, rfl, fun other i ho _ => ?_, fun _ other ho => ?_⟩
      · obtain rfl := Option.some.inj (hnode.symm.trans ho)
        simp [hnil]
      · obtain rfl := Option.some.inj (hnode.symm.trans ho)
        refine hdraw.steady.leader_eq_none fun i => ?_
        rw [BanditNode.isFeasible_congr (hsteady.sized.draw settings.method generator).costs]
        exact hinfeasible i
    next index hi =>
      cases h
      have hrecorded := hages.trans (hdraw.steady.ages_recordVisit s.bound)
      have hnode := node?_setNode hn ((node.draw settings.method generator).node.recordVisit s.bound)
      have hset := works_setNode hn hrecorded
      refine ⟨hset.trans ?_, rfl, fun other i ho hc => ?_, fun hnone => by cases hnone⟩
      · exact (hs.works_none hset).works_of_frame rfl le_rfl
      · obtain rfl := Option.some.inj (hnode.symm.trans ho)
        obtain rfl := Option.some.inj hc
        exact (hdraw.chosen index hi).1

end

/-- Holding the leading value changes no node. -/
theorem Ledger.works_adoptLeader (hs : s.Ledger settings.objective before) :
    s.Works none s.adoptLeader := by
  unfold SamplingState.adoptLeader
  split
  · exact hs.works_refl
  · exact hs.works_of_frame rfl le_rfl

theorem rank_le_converged (phase : Phase) : phase.rank ≤ Phase.converged.rank := by
  cases phase <;> simp [Phase.rank]

end SamplingState

open SamplingState

/-- A reaction that works on the active node. -/
structure Reaction.Works (settings : SamplingSettings K) (pruned : Option Nat) (s : SamplingState K)
    (reaction : Reaction K G) : Prop where
  works : s.Works pruned reaction.state
  held : reaction.state.Held settings

/-- What a reaction does to the nodes of a variable. -/
structure Reaction.Tends (settings : SamplingSettings K) (before : List Value → Nat → Prop)
    (pruned : Option Nat) (s : SamplingState K) (reaction : Reaction K G) : Prop where
  tends : s.Tends settings.objective before pruned reaction.state
  held : reaction.state.Held settings

/-- A change before the reaction that leaves the nodes and what is known of them does not count. -/
theorem Reaction.Tends.of_same {settings : SamplingSettings K} {before : List Value → Nat → Prop}
    {pruned : Option Nat} {s t : SamplingState K} {reaction : Reaction K G}
    (hnodes : t.nodes = s.nodes) (hindex : t.index = s.index) (hactive : t.active = s.active)
    (hdomain : t.domain = s.domain) (h : reaction.Tends settings before pruned t) :
    reaction.Tends settings before pruned s := by
  refine ⟨⟨fun key place hk => ?_, fun place node hp => ?_, fun place node hp => ?_, ?_⟩, h.held⟩
  · exact h.tends.index key place (by rw [hindex]; exact hk)
  · exact h.tends.others place node (by rw [hnodes]; exact hp)
  · have hages := h.tends.ages place node (by rw [hnodes]; exact hp)
    rwa [hactive, hdomain] at hages
  · refine h.tends.ledger.mono fun key i hb => hb.imp_right fun hb => ?_
    rwa [hactive, hindex] at hb

theorem Reaction.Works.of_works {settings : SamplingSettings K} {pruned : Option Nat}
    {s t : SamplingState K} {reaction : Reaction K G} (h : s.Works pruned t)
    (h' : reaction.Works settings none t) : reaction.Works settings pruned s :=
  ⟨h.trans h'.works, h'.held⟩

namespace SamplingState

variable {settings : SamplingSettings K} {before : List Value → Nat → Prop} {s t : SamplingState K}
  {problem : Problem K}

/-- A reaction that leaves the state as it is. -/
theorem Ledger.tends_same (hs : s.Ledger settings.objective before) (hh : s.Held settings)
    {reaction : Reaction K G} (hsame : reaction.state = s) :
    reaction.Tends settings before none s := by
  refine ⟨?_, by rwa [hsame]⟩
  rw [hsame]
  exact hs.works_refl.tends hs

/-- A variable ends in good order if the leading value is held. -/
theorem Ledger.terminates (hs : s.Ledger settings.objective before) (hdrawn : s.Drawn)
    (hended : s.Ended settings) (generator : G) :
    (s.terminates problem settings.delta generator).Works settings none s := by
  exact ⟨hs.works_of_frame rfl (rank_le_converged s.phase), fun _ => hdrawn, fun _ _ => hended⟩

/-- Without a leading value there is nothing to hold. -/
theorem ended_of_leaderless (h : ∀ node, s.node? = some node → node.leader = none) :
    s.Ended settings := by
  intro node leader hn hl
  rw [h node hn] at hl
  cases hl

/-- When the rule is satisfied the leading value is held. -/
theorem Ledger.ended_adoptLeader (hs : s.Ledger settings.objective before)
    (hc : s.hasConverged settings = true) : s.adoptLeader.Drawn ∧ s.adoptLeader.Ended settings := by
  cases hn : s.node? with
  | none =>
    have hnone : s.adoptLeader.node? = none := by
      rw [SamplingState.adoptLeader, hn]
      exact hn
    exact ⟨fun node i hnode => by simp [hnone] at hnode, fun node leader hnode => by simp [hnone] at hnode⟩
  | some node =>
    have hsteady := hs.steady_of_node hn
    obtain ⟨hx, hrule⟩ : node.exploring = false ∧
        settings.rule.converged node settings.error settings.delta = true := by
      simpa [SamplingState.hasConverged, hn, BanditNode.hasConverged] using hc
    have hsame : s.adoptLeader.node? = some node := by
      unfold SamplingState.adoptLeader
      split <;> exact hn
    refine ⟨fun other i ho _ => ?_, fun other leader ho hl => ⟨?_, fun hregret => ?_⟩⟩ <;>
      obtain rfl := Option.some.inj (hsame.symm.trans ho)
    · simp [hs.unexplored_eq_nil hn hx]
    · rw [SamplingState.adoptLeader, hn, Option.bind_some, hl]
    · exact StoppingRule.within_of_converged hrule hregret hl
        (hsteady.sized.arms ▸ hsteady.sized.leader leader hl)

variable [Generator G]

/-- A sample is drawn in the active node; if there is none the other reaction finds no leading value. -/
theorem Ledger.samplesOr (hs : s.Ledger settings.objective before) (hopen : s.phase ≠ .converged)
    (generator : G)
    {otherwise : SamplingState K → G → Reaction K G}
    (ho : ∀ (t : SamplingState K) (g : G), t.Ledger settings.objective before → t.Drawn →
      t.phase ≠ .converged → (∀ node, t.node? = some node → node.leader = none) →
        (otherwise t g).Works settings none t) :
    (s.samplesOr settings problem generator otherwise).Works settings none s := by
  unfold SamplingState.samplesOr
  split
  next error herror =>
    exact ⟨hs.works_refl, fun _ => drawn_of_sample_error herror, fun _ hc => absurd hc hopen⟩
  next sample hsample =>
    have hsampled := hs.sample hsample
    have hphase : sample.state.phase ≠ .converged := hsampled.phase ▸ hopen
    split
    · exact ⟨hsampled.works, fun _ => hsampled.drawn, fun _ hc => absurd hc hphase⟩
    next hnone =>
      exact .of_works hsampled.works (ho _ _ (hs.works_none hsampled.works) hsampled.drawn hphase
        (hsampled.leaderless hnone))

theorem Ledger.proceeds (hs : s.Ledger settings.objective before) (hopen : s.phase ≠ .converged)
    (generator : G) :
    (s.proceeds settings problem generator).Works settings none s := by
  unfold SamplingState.proceeds
  split
  next hc =>
    obtain ⟨hdrawn, hended⟩ := hs.ended_adoptLeader hc
    have hadopted := hs.works_adoptLeader
    exact .of_works hadopted ((hs.works_none hadopted).terminates hdrawn hended generator)
  · exact hs.samplesOr hopen generator fun t g ht hdrawn _ hnone =>
      ht.terminates hdrawn (ended_of_leaderless hnone) g

omit [Generator G] in
theorem Ledger.solves (hs : s.Ledger settings.objective before) (hleaf : s.isLeaf = true)
    (generator : G) (final : Bool) :
    (s.solves settings problem generator final).Works settings none s := by
  unfold SamplingState.solves
  split
  · exact ⟨hs.works_refl, .of_isLeaf hleaf⟩
  next cost t hsolve =>
    obtain ⟨hworks, ht⟩ : s.Works none t ∧ t.isLeaf = true := by
      obtain ⟨costs, -, he⟩ := exists_of_map_eq_ok hsolve
      obtain ⟨-, rfl⟩ := Prod.mk.inj he
      exact ⟨hs.works_of_frame rfl le_rfl, hleaf⟩
    refine .of_works hworks ?_
    have hledger := hs.works_none hworks
    split
    · refine ⟨hledger.works_of_frame rfl ?_, .of_isLeaf ht⟩
      exact rank_le_converged t.phase
    · exact ⟨hledger.works_refl, .of_isLeaf ht⟩

/-- The node of the context is opened, and worked on. -/
theorem Ledger.answers (hs : s.Ledger settings.objective before) (hp : s.phase = .sampling)
    (hh : s.Held settings) (generator : G) (final : Bool) :
    (s.answers settings problem generator final).Tends settings before none s := by
  unfold SamplingState.answers
  split
  next hleaf =>
    have hsolves : (s.solves settings problem generator final).Works settings none s :=
      hs.solves hleaf generator final
    exact ⟨hsolves.works.tends hs, hsolves.held⟩
  split
  · exact hs.tends_same hh rfl
  next t hactivate =>
    have hopens := hs.activate rfl (by rw [hp]) hactivate
    have hopen : t.phase ≠ .converged := by simp [hopens.phase, hp]
    have ht := hopens.ledger
    split
    · have hfinished : t.Works none { t with parentFinished := true } :=
        ht.works_of_frame rfl le_rfl
      have hproceeds : (SamplingState.proceeds { t with parentFinished := true } settings problem
          generator).Works settings none { t with parentFinished := true } :=
        (ht.works_none hfinished).proceeds hopen generator
      exact ⟨(hfinished.trans hproceeds.works).tends_of_opens hopens, hproceeds.held⟩
    · have hsamples : (t.samplesOr settings problem generator fun state generator =>
          state.reports problem generator none).Works settings none t :=
        ht.samplesOr hopen generator fun u g hu hdrawn hopen _ =>
          ⟨hu.works_refl, fun _ => hdrawn, fun _ hc => absurd hc hopen⟩
      exact ⟨hsamples.works.tends_of_opens hopens, hsamples.held⟩

theorem Ledger.takes (hs : s.Ledger settings.objective before) (hh : s.Held settings)
    (hrank : s.phase.rank ≤ Phase.sampling.rank) (generator : G) (context : Context) :
    (s.takes settings problem generator context).Tends settings before none s := by
  unfold SamplingState.takes
  split
  · have ht := hs.assign context.entries .sampling hrank
    have hheld : Held settings { s.assign context.entries with phase := .sampling } :=
      hh.congr rfl rfl rfl (by simp)
    exact .of_same (t := { s.assign context.entries with phase := .sampling }) rfl rfl rfl rfl
      (ht.answers rfl hheld generator context.final)
  · exact hs.tends_same hh rfl

theorem Ledger.onContext (hs : s.Ledger settings.objective before) (hh : s.Held settings)
    (generator : G) (context : Context) :
    (s.onContext settings problem generator context).Tends settings before none s := by
  unfold SamplingState.onContext
  split
  next hp =>
    have hworks : s.Works none { s with phase := .awaitingNormalization (some context) } :=
      hs.works_of_frame rfl (by simp [hp, Phase.rank])
    exact ⟨hworks.tends hs, hh.congr rfl rfl rfl (by simp [sends])⟩
  · exact hs.tends_same hh rfl
  · exact hs.tends_same hh rfl
  next hp => exact hs.takes hh (by simp [hp, Phase.rank]) generator context
  next hp => exact hs.takes hh (by simp [hp]) generator context

theorem Ledger.onNormalized (hs : s.Ledger settings.objective before) (hh : s.Held settings)
    (generator : G) (normalized : Normalized K) :
    (s.onNormalized settings problem generator normalized).Tends settings before none s := by
  unfold SamplingState.onNormalized
  split
  next buffered hp =>
    have hnil : s.nodes = [] := hs.unopened (by simp [hp, Phase.rank])
    simp only
    split
    · have ht : Ledger settings.objective before
          { s.prepare settings normalized with phase := .sampling } :=
        hs.of_unopened hnil rfl rfl rfl
      have hheld : Held settings { s.prepare settings normalized with phase := .sampling } :=
        hh.congr rfl rfl rfl (by simp)
      exact .of_same (t := { s.prepare settings normalized with phase := .sampling }) rfl rfl rfl rfl
        (ht.answers rfl hheld generator true)
    · have ht : Ledger settings.objective before
          { s.prepare settings normalized with phase := .awaitingParentValue } :=
        hs.of_unopened hnil rfl rfl rfl
      have hheld : Held settings
          { s.prepare settings normalized with phase := .awaitingParentValue } :=
        hh.congr rfl rfl rfl (by simp)
      refine .of_same (t := { s.prepare settings normalized with phase := .awaitingParentValue })
        rfl rfl rfl rfl ?_
      split
      · exact ht.tends_same hheld rfl
      next context => exact ht.onContext hheld generator context
  · exact hs.tends_same hh rfl

/-- A round of reports is credited to the value held, which was drawn in the active node. -/
theorem Ledger.joins (hs : s.Ledger settings.objective before) (hdrawn : s.Drawn)
    (hp : s.phase = .sampling) (hworst : isInfinite (settings.objective.worst : K) = true)
    (generator : G) (round : Round K) :
    (s.joins settings problem generator round).Works settings
      (if settings.pruning && round.infeasible then s.current else none) s := by
  have hopen : s.phase ≠ .converged := by simp [hp]
  cases hc : s.current with
  | none =>
    simp only [SamplingState.joins, hc, ite_self]
    exact ⟨hs.works_refl, fun _ => hdrawn, fun _ he => absurd he hopen⟩
  | some index =>
    cases hn : s.node? with
    | none =>
      simp only [SamplingState.joins, hc, hn]
      refine ⟨⟨rfl, le_rfl, rfl, fun _ _ => rfl, fun node hnode => ?_⟩, fun _ => hdrawn,
        fun _ he => absurd he hopen⟩
      simp [hn] at hnode
    | some node =>
      have hnode := hs.steady node (mem_nodes_of_node hn)
      have hages := hnode.1.creditedNode (hdrawn node index hn hc) (hnode.2 ▸ hworst) settings round
      have hset := works_setNode hn hages
      have hledger := hs.works hset
      rw [joins_eq hc hn]
      refine .of_works hset ?_
      split
      · exact hledger.proceeds hopen generator
      · refine ⟨hledger.works_refl, fun _ other i ho hi hm => ?_, fun _ he => absurd he hopen⟩
        obtain rfl := Option.some.inj ((node?_setNode hn _).symm.trans ho)
        exact hdrawn node i hn hi (hages.unexplored hm)

theorem Ledger.onCost (hs : s.Ledger settings.objective before) (hh : s.Held settings)
    (hworst : isInfinite (settings.objective.worst : K) = true) (generator : G) (cost : Option K) :
    (s.onCost settings problem generator cost).Tends settings before (s.prunes settings cost) s := by
  unfold SamplingState.onCost
  split
  next hidle =>
    have hnone : s.prunes settings cost = none := by
      rcases hidle with hp | hl
      · simp [prunes, hp]
      · simp [prunes, hl]
    rw [hnone]
    exact hs.tends_same hh rfl
  next hready =>
    obtain ⟨hp, hleaf⟩ : s.phase = .sampling ∧ s.isLeaf = false := by simpa using hready
    simp only
    split
    next hless =>
      have hnone : s.prunes settings cost = none := by simp [prunes, Nat.not_le.mpr hless]
      have hworks : s.Works none { s with round := s.round.add s.penalty cost } :=
        hs.works_of_frame rfl le_rfl
      rw [hnone]
      exact ⟨hworks.tends hs, hh.congr rfl rfl rfl (by simp [sends, hp])⟩
    next hlast =>
      have hempty : s.Works none { s with round := .empty } := hs.works_of_frame rfl le_rfl
      have hjoins : (SamplingState.joins { s with round := .empty } settings problem generator
          (s.round.add s.penalty cost)).Works settings _ { s with round := .empty } :=
        (hs.works_none hempty).joins (hh.drawn hleaf) hp hworst generator _
      have hprunes : s.prunes settings cost
          = if settings.pruning && (s.round.add s.penalty cost).infeasible then s.current else none := by
        simp [prunes, hp, hleaf, Nat.not_lt.mp hlast]
      rw [hprunes]
      have hworks := hjoins.works
      exact ⟨Works.tends ⟨hworks.frame, hworks.forward, hworks.length, hworks.others, hworks.ages⟩ hs,
        hjoins.held⟩

end SamplingState

end DcopSearch
