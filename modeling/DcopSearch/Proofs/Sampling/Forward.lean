import DcopSearch.Proofs.Network.Delivery

/-! How a variable fares whatever it is told.  Its phase never goes back, and the values it speaks of
are values of its domain; it reports a value only when it converges, which it does once.  None of this
needs a sound state: a reaction that fails leaves the variable on the same way. -/

namespace DcopSearch

open CostArithmetic

variable {K G : Type}

/-- The place of a phase in the life of a variable. -/
def Phase.rank : Phase → Nat
  | awaitingNormalization _ => 0
  | awaitingParentValue => 1
  | sampling => 2
  | converged => 3

theorem Phase.eq_converged {phase : Phase} (h : converged.rank ≤ phase.rank) : phase = .converged := by
  cases phase <;> simp [rank] at h ⊢

/-- A message to a variable: it goes to an agent and is no result. -/
structure Outgoing.IsLetter (outgoing : Outgoing K) : Prop where
  destination : ∃ agent, outgoing.destination = .agent agent
  kind : outgoing.message.isResult = false

namespace Problem

variable {problem : Problem K}

theorem isLetter_of_toOwner {name : String} {message : Message K} {outgoing : Outgoing K}
    (hm : message.isResult = false) (h : problem.toOwner name message = .ok outgoing) :
    outgoing.IsLetter := by
  unfold toOwner at h
  split at h
  · cases h
  next owner ho =>
    cases h
    exact ⟨⟨owner, rfl⟩, hm⟩

theorem isLetter_of_toOwners {message : String → Message K} (hm : ∀ name, (message name).isResult = false)
    {names : List String} {sent : List (Outgoing K)} (h : problem.toOwners message names = .ok sent) :
    ∀ outgoing ∈ sent, outgoing.IsLetter := by
  induction names generalizing sent with
  | nil =>
    cases h
    simp
  | cons name rest ih =>
    unfold toOwners at h
    split at h
    · cases h
    next first hfirst =>
      obtain ⟨others, hothers, rfl⟩ := exists_of_map_eq_ok h
      intro outgoing ho
      rcases List.mem_cons.mp ho with rfl | ho
      · exact isLetter_of_toOwner (hm name) hfirst
      · exact ih hothers outgoing ho

end Problem

namespace SamplingState

variable {problem : Problem K} {s t u : SamplingState K}

theorem isLetter_of_contextMessages {final : Bool} {sent : List (Outgoing K)}
    (h : s.contextMessages problem final = .ok sent) : ∀ outgoing ∈ sent, outgoing.IsLetter := by
  unfold contextMessages at h
  split at h
  · cases h
  · exact Problem.isLetter_of_toOwners (fun _ => rfl) h

theorem isLetter_of_costMessage {cost : Option K} {outgoing : Outgoing K}
    (h : s.costMessage problem cost = .ok outgoing) : outgoing.IsLetter := by
  unfold costMessage at h
  split at h
  · cases h
  · exact Problem.isLetter_of_toOwner rfl h

/-- The domain is the declared one, has a value, and the values the variable speaks of are in it. -/
structure InDomain (problem : Problem K) (s : SamplingState K) : Prop where
  domain : problem.domain? s.name = some s.domain
  valued : 0 < s.domain.length
  current : ∀ i, s.current = some i → i < s.domain.length
  nodes : ∀ node ∈ s.nodes, node.Over s.domain.length

theorem InDomain.currentValue_mem (h : s.InDomain problem) : s.currentValue ∈ s.domain := by
  have hlt : s.current.getD 0 < s.domain.length := by
    cases hc : s.current with
    | none => exact h.valued
    | some i => exact h.current i hc
  rw [currentValue, List.getElem?_eq_getElem hlt, Option.getD_some]
  exact List.getElem_mem hlt

theorem InDomain.over_of_node (h : s.InDomain problem) {node : BanditNode K}
    (hn : s.node? = some node) : node.Over s.domain.length := by
  obtain ⟨place, -, hp⟩ := Option.bind_eq_some_iff.mp hn
  exact h.nodes node (List.mem_of_getElem? hp)

/-- The way from one state to a later one: the phase does not go back. -/
structure Leads (problem : Problem K) (s t : SamplingState K) : Prop where
  name : t.name = s.name
  forward : s.phase.rank ≤ t.phase.rank
  inDomain : s.InDomain problem → t.InDomain problem

theorem Leads.refl (s : SamplingState K) : s.Leads problem s := ⟨rfl, le_rfl, id⟩

theorem Leads.trans (h : s.Leads problem t) (h' : t.Leads problem u) : s.Leads problem u :=
  ⟨h'.name.trans h.name, h.forward.trans h'.forward, h'.inDomain ∘ h.inDomain⟩

/-- Nothing that the variable speaks of has changed but the phase. -/
theorem Leads.of_eq (hname : t.name = s.name) (hforward : s.phase.rank ≤ t.phase.rank)
    (hdomain : t.domain = s.domain) (hcurrent : t.current = s.current) (hnodes : t.nodes = s.nodes) :
    s.Leads problem t := by
  refine ⟨hname, hforward, fun h => ⟨?_, ?_, ?_, ?_⟩⟩
  · rw [hname, hdomain, h.domain]
  · rw [hdomain]
    exact h.valued
  · rw [hdomain, hcurrent]
    exact h.current
  · rw [hdomain, hnodes]
    exact h.nodes

theorem leads_setNode {node : BanditNode K}
    (hn : s.InDomain problem → node.Over s.domain.length) : s.Leads problem (s.setNode node) := by
  refine ⟨rfl, le_rfl, fun h => ⟨h.domain, h.valued, h.current, fun other ho => ?_⟩⟩
  unfold setNode at ho
  cases ha : s.active with
  | none =>
    rw [ha] at ho
    exact h.nodes other ho
  | some place =>
    rw [ha] at ho
    rcases List.mem_or_eq_of_mem_set ho with ho | rfl
    · exact h.nodes other ho
    · exact hn h

theorem leads_setCurrent {i : Nat} (hi : s.InDomain problem → i < s.domain.length) :
    s.Leads problem { s with current := some i } := by
  refine ⟨rfl, le_rfl, fun h => ⟨h.domain, h.valued, fun j hj => ?_, h.nodes⟩⟩
  cases hj
  exact hi h

theorem leads_adoptLeader (s : SamplingState K) : s.Leads problem s.adoptLeader := by
  unfold adoptLeader
  split
  · exact .refl s
  next leader hl =>
    obtain ⟨node, hn, hleader⟩ := Option.bind_eq_some_iff.mp hl
    exact leads_setCurrent fun h => (h.over_of_node hn).leader leader hleader

theorem phase_adoptLeader (s : SamplingState K) : s.adoptLeader.phase = s.phase := by
  unfold adoptLeader
  split <;> rfl

variable [CostArithmetic K]

theorem length_of_localCosts {costs : List K} (h : s.localCosts = .ok costs) :
    costs.length = s.domain.length := by
  have hlength : ∀ (values : List Value) (costs : List K),
      values.mapM s.localCost = .ok costs → costs.length = values.length := by
    intro values
    induction values with
    | nil =>
      intro costs h
      cases h
      rfl
    | cons value rest ih =>
      intro costs h
      rw [List.mapM_cons] at h
      cases hcost : s.localCost value with
      | error error =>
        rw [hcost] at h
        cases h
      | ok cost =>
        rw [hcost] at h
        cases hothers : rest.mapM s.localCost with
        | error error =>
          rw [hothers] at h
          cases h
        | ok others =>
          rw [hothers] at h
          cases h
          rw [List.length_cons, ih others hothers, List.length_cons]
  exact hlength s.domain costs h

theorem leads_activate {settings : SamplingSettings K} (h : s.activate settings = .ok t) :
    s.Leads problem t ∧ t.phase = s.phase := by
  unfold activate at h
  split at h
  · cases h
  · split at h
    · cases h
      exact ⟨.of_eq rfl le_rfl rfl rfl rfl, rfl⟩
    · obtain ⟨costs, hcosts, rfl⟩ := exists_of_map_eq_ok h
      refine ⟨⟨rfl, le_rfl, fun hs => ⟨hs.domain, hs.valued, hs.current, fun node hn => ?_⟩⟩, rfl⟩
      rcases List.mem_append.mp hn with hn | hn
      · exact hs.nodes node hn
      · obtain rfl := List.mem_singleton.mp hn
        have hover := BanditNode.over_ofCosts costs settings.objective settings.ignoreInfeasible
        rwa [length_of_localCosts hcosts] at hover

theorem leads_solveLeaf {objective : Objective} {cost : Option K}
    (h : s.solveLeaf objective = .ok (cost, t)) : s.Leads problem t ∧ t.phase = s.phase := by
  obtain ⟨costs, hcosts, he⟩ := exists_of_map_eq_ok h
  obtain ⟨-, rfl⟩ := Prod.mk.inj he
  refine ⟨leads_setCurrent fun hs => ?_, rfl⟩
  cases hbest : objective.earliestBest ((List.range costs.length).zip costs) with
  | none => exact hs.valued
  | some best =>
    have hm := List.of_mem_zip (Objective.mem_of_earliestBest hbest)
    rw [List.mem_range, length_of_localCosts hcosts] at hm
    exact hm.1

variable [Generator G]

theorem leads_sample {settings : SamplingSettings K} {generator : G} {sample : Sample K G}
    (h : s.sample settings generator = .ok sample) :
    s.Leads problem sample.state ∧ sample.state.phase = s.phase := by
  unfold SamplingState.sample at h
  split at h
  · cases h
  next node hn =>
    have hdraw := fun hs : s.InDomain problem =>
      (hs.over_of_node hn).draw settings.method generator
    simp only at h
    split at h
    · cases h
      exact ⟨leads_setNode fun hs => (hdraw hs).covers, rfl⟩
    next index hi =>
      cases h
      have hset : s.Leads problem
          (s.setNode ((node.draw settings.method generator).node.recordVisit s.bound)) :=
        leads_setNode fun hs => (hdraw hs).covers.recordVisit s.bound
      refine ⟨⟨rfl, le_rfl, fun hs => ?_⟩, rfl⟩
      have hi := (hdraw hs).chosen index hi
      exact (leads_setCurrent (s := s.setNode _) fun _ => hi).inDomain (hset.inDomain hs)

end SamplingState

variable [CostArithmetic K]

/-- What a reaction amounts to: either letters are sent, or the variable converges and reports its
value after them. -/
structure Reaction.Orderly (problem : Problem K) (delta : K) (s : SamplingState K)
    (reaction : Reaction K G) : Prop where
  leads : s.Leads problem reaction.state
  sends : ∀ emission, reaction.outcome = .ok emission →
    emission.terminated = false ∧ (∀ outgoing ∈ emission.messages, outgoing.IsLetter) ∨
    emission.terminated = true ∧ s.phase ≠ .converged ∧ reaction.state.phase = .converged ∧
      ∃ letters, emission.messages = letters ++ reaction.state.results delta ∧
        ∀ outgoing ∈ letters, outgoing.IsLetter

/-- What is done on the way to a reaction does not count. -/
theorem Reaction.Orderly.of_leads {problem : Problem K} {delta : K} {s t : SamplingState K}
    {reaction : Reaction K G} (hl : s.Leads problem t) (h : reaction.Orderly problem delta t) :
    reaction.Orderly problem delta s := by
  refine ⟨hl.trans h.leads, fun emission he => ?_⟩
  rcases h.sends emission he with hquiet | ⟨hterminated, hopen, hrest⟩
  · exact .inl hquiet
  · refine .inr ⟨hterminated, fun hc => hopen ?_, hrest⟩
    have hforward := hl.forward
    rw [hc] at hforward
    exact Phase.eq_converged hforward

namespace SamplingState

variable {problem : Problem K} {s : SamplingState K} (settings : SamplingSettings K) (delta : K)
  (generator : G)

theorem orderly_fails (s : SamplingState K) (error : AgentError) :
    (s.fails generator error).Orderly problem delta s := by
  refine ⟨.refl s, fun emission he => ?_⟩
  cases he

theorem orderly_sends (s : SamplingState K) {messages : Except AgentError (List (Outgoing K))}
    (h : ∀ sent, messages = .ok sent → ∀ outgoing ∈ sent, outgoing.IsLetter) :
    (s.sends generator messages).Orderly problem delta s := by
  refine ⟨.refl s, fun emission he => .inl ?_⟩
  obtain ⟨sent, hsent, rfl⟩ := exists_of_map_eq_ok he
  exact ⟨rfl, h sent hsent⟩

theorem orderly_reports (s : SamplingState K) (cost : Option K) :
    (s.reports problem generator cost).Orderly problem delta s := by
  refine orderly_sends delta generator s fun sent hsent outgoing ho => ?_
  obtain ⟨report, hreport, rfl⟩ := exists_of_map_eq_ok hsent
  obtain rfl := List.mem_singleton.mp ho
  exact isLetter_of_costMessage hreport

theorem orderly_terminates (h : s.phase ≠ .converged) :
    (s.terminates problem delta generator).Orderly problem delta s := by
  refine ⟨.of_eq rfl ?_ rfl rfl rfl, fun emission he => .inr ?_⟩
  · cases hp : s.phase <;> simp [terminates, Phase.rank]
  · obtain ⟨sent, hsent, rfl⟩ := exists_of_map_eq_ok he
    refine ⟨rfl, h, rfl, ?_⟩
    unfold finalMessages at hsent
    split at hsent
    next hleaf =>
      cases hsent
      exact ⟨[], by simp [results, terminates, hleaf], by simp⟩
    next hleaf =>
      obtain ⟨contexts, hcontexts, rfl⟩ := exists_of_map_eq_ok hsent
      refine ⟨contexts, ?_, isLetter_of_contextMessages hcontexts⟩
      simp [results, terminates, hleaf]

variable [Generator G]

theorem orderly_samplesOr (h : s.phase ≠ .converged) {otherwise : SamplingState K → G → Reaction K G}
    (ho : ∀ (t : SamplingState K) (g : G), t.phase ≠ .converged →
      (otherwise t g).Orderly problem delta t) :
    (s.samplesOr settings problem generator otherwise).Orderly problem delta s := by
  unfold SamplingState.samplesOr
  split
  · exact orderly_fails delta generator s _
  next sample hsample =>
    obtain ⟨hleads, hphase⟩ : s.Leads problem sample.state ∧ sample.state.phase = s.phase :=
      leads_sample hsample
    refine .of_leads hleads ?_
    split
    · exact orderly_sends delta _ _ fun sent hsent => isLetter_of_contextMessages hsent
    · exact ho _ _ (hphase ▸ h)

theorem orderly_proceeds (h : s.phase ≠ .converged) :
    (s.proceeds settings problem generator).Orderly problem settings.delta s := by
  unfold SamplingState.proceeds
  split
  · refine .of_leads (leads_adoptLeader s) (orderly_terminates _ _ ?_)
    rw [phase_adoptLeader]
    exact h
  · exact orderly_samplesOr settings _ _ h fun t g ht => orderly_terminates _ g ht

omit [Generator G] in
theorem orderly_solves (h : s.phase ≠ .converged) (final : Bool) :
    (s.solves settings problem generator final).Orderly problem settings.delta s := by
  unfold SamplingState.solves
  split
  · exact orderly_fails _ generator s _
  next cost t hsolve =>
    obtain ⟨hleads, hphase⟩ : s.Leads problem t ∧ t.phase = s.phase := leads_solveLeaf hsolve
    refine .of_leads hleads ?_
    split
    · exact orderly_terminates _ _ (hphase ▸ h)
    · exact orderly_reports _ _ _ _

theorem orderly_answers (h : s.phase ≠ .converged) (final : Bool) :
    (s.answers settings problem generator final).Orderly problem settings.delta s := by
  unfold SamplingState.answers
  split
  · exact orderly_solves settings generator h final
  split
  · exact orderly_fails _ generator s _
  next t hactivate =>
    obtain ⟨hleads, hphase⟩ : s.Leads problem t ∧ t.phase = s.phase := leads_activate hactivate
    have ht : t.phase ≠ .converged := hphase ▸ h
    refine .of_leads hleads ?_
    split
    · exact .of_leads (t := { t with parentFinished := true }) (.of_eq rfl le_rfl rfl rfl rfl)
        (orderly_proceeds settings generator ht)
    · exact orderly_samplesOr settings _ _ ht fun u g _ => orderly_reports _ g u none

theorem orderly_takes (h : s.phase.rank ≤ Phase.sampling.rank) (context : Context) :
    (s.takes settings problem generator context).Orderly problem settings.delta s := by
  unfold SamplingState.takes
  split
  · refine .of_leads (t := { s.assign context.entries with phase := .sampling })
      (.of_eq rfl h rfl rfl rfl) (orderly_answers settings generator ?_ context.final)
    simp
  · exact orderly_fails _ generator s _

theorem orderly_onContext (s : SamplingState K) (context : Context) :
    (s.onContext settings problem generator context).Orderly problem settings.delta s := by
  unfold SamplingState.onContext
  split
  next hp =>
    refine .of_leads (t := { s with phase := .awaitingNormalization (some context) })
      (.of_eq rfl ?_ rfl rfl rfl) (orderly_sends _ _ _ ?_)
    · simp [hp, Phase.rank]
    · rintro sent ⟨⟩
      simp
  · exact orderly_fails _ generator s _
  · exact orderly_fails _ generator s _
  next hp => exact orderly_takes settings generator (by simp [hp, Phase.rank]) context
  next hp => exact orderly_takes settings generator (by simp [hp, Phase.rank]) context

theorem orderly_onNormalized (s : SamplingState K) (normalized : Normalized K) :
    (s.onNormalized settings problem generator normalized).Orderly problem settings.delta s := by
  unfold SamplingState.onNormalized
  split
  next buffered hp =>
    have hrank : s.phase.rank = 0 := by simp [hp, Phase.rank]
    simp only
    split
    · refine .of_leads (t := { s.prepare settings normalized with phase := .sampling })
        (.of_eq rfl (by simp [hrank]) rfl rfl rfl) (orderly_answers settings generator ?_ true)
      simp
    · refine .of_leads (t := { s.prepare settings normalized with phase := .awaitingParentValue })
        (.of_eq rfl (by simp [hrank]) rfl rfl rfl) ?_
      split
      · refine orderly_sends _ _ _ ?_
        rintro sent ⟨⟩
        simp
      next context => exact orderly_onContext settings generator _ context
  · exact orderly_fails _ generator s _

theorem orderly_joins (h : s.phase ≠ .converged) (round : Round K) :
    (s.joins settings problem generator round).Orderly problem settings.delta s := by
  cases hc : s.current with
  | none =>
    simp only [SamplingState.joins, hc]
    exact orderly_fails _ generator s _
  | some index =>
    cases hn : s.node? with
    | none =>
      simp only [SamplingState.joins, hc, hn]
      exact orderly_fails _ generator s _
    | some node =>
      rw [joins_eq hc hn]
      have hleads : s.Leads problem (s.setNode (creditedNode settings round index node)) :=
        leads_setNode fun hs => over_creditedNode (hs.over_of_node hn) settings round index
      refine .of_leads hleads ?_
      split
      · exact orderly_proceeds settings generator h
      · exact orderly_reports _ _ _ _

theorem orderly_onCost (s : SamplingState K) (cost : Option K) :
    (s.onCost settings problem generator cost).Orderly problem settings.delta s := by
  unfold SamplingState.onCost
  split
  · exact orderly_fails _ generator s _
  next hready =>
    have hsampling : s.phase ≠ .converged := by
      intro hc
      simp [hc] at hready
    simp only
    split
    · refine .of_leads (t := { s with round := s.round.add s.penalty cost })
        (.of_eq rfl le_rfl rfl rfl rfl) (orderly_sends _ _ _ ?_)
      rintro sent ⟨⟩
      simp
    · refine .of_leads (t := { s with round := .empty }) (.of_eq rfl le_rfl rfl rfl rfl)
        (orderly_joins settings generator ?_ _)
      exact hsampling

end SamplingState

end DcopSearch
