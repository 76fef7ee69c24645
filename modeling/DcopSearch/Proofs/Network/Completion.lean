import DcopSearch.Proofs.Network.Safety

/-! Nothing is left undone.  When no message is under way every variable has converged, and every value
and the finish of every agent have been reported once. -/

namespace DcopSearch

open World

variable {K G : Type} [CostArithmetic K] {setup : Setup K} {w : World K}

/-- What has happened when no message is left. -/
structure Team.Complete (problem : Problem K) (team : Team K G) : Prop where
  converged : ∀ name ∈ problem.names, team.phase? name = some .converged
  reports : ∀ name, team.collector.reports[name]?.getD 0 = if name ∈ problem.names then 1 else 0
  finished : ∀ agent, agent ∈ team.collector.finished ↔ agent ∈ problem.agents
  once : team.collector.duplicateFinishes = 0

theorem Cell.Sound.flight_of_ended {name : String} {c : Cell K} (h : c.Sound setup name)
    (hx : c.exchange.stance = .ended) : c.flight setup name = 0 := by
  have hx := Exchange.stance_eq_ended.mp hx
  have ha := Ascent.stage_eq_normalized.mp (h.of_ended hx).1
  simp [Cell.flight, Cell.ascentFlight, Cell.exchangeFlight, ha, hx]

namespace Network

/-- When every agent has reported that it has finished, every variable has terminated, and what is
left to deliver are the other results. -/
theorem Shows.of_allFinished {network : Network K G} (h : network.Shows setup w)
    (valid : setup.Valid) (hall : network.team.allFinished = true) :
    (∀ agent ∈ setup.problem.agents, w.Through setup agent) ∧
    ∀ outgoing ∈ network.pool, outgoing.message.isResult = true ∧
      outgoing.message.finishes? = none ∧ ∀ agent, outgoing.destination ≠ .agent agent := by
  obtain ⟨results, hsum, haccounts⟩ := h.pool
  have hfinished : ∀ agent ∈ setup.problem.agents, agent ∈ network.team.collector.finished := by
    intro agent ha
    rw [← Std.ExtTreeSet.contains_iff_mem]
    refine List.all_eq_true.mp hall agent ?_
    simpa using (h.team.members agent).mpr ha
  have hthrough : ∀ agent ∈ setup.problem.agents, w.Through setup agent := by
    intro agent ha
    by_contra hopen
    have hcount := haccounts.finishes agent
    rw [if_pos (hfinished agent ha), if_neg fun hc => hopen hc.2] at hcount
    omega
  -- hence only results are under way, and news among them would be counted twice
  have hflight : w.flight setup = 0 := by
    refine Finset.sum_eq_zero fun name hn => ?_
    have hn : name ∈ setup.problem.names := List.mem_toFinset.mp hn
    obtain ⟨agent, ho⟩ := Problem.exists_owner hn
    refine (h.inv.sound name hn).flight_of_ended ?_
    exact hthrough agent (Problem.mem_agents_of_owner ho) name
      (valid.wellFormed.mem_variablesOf.mpr ho)
  refine ⟨hthrough, fun outgoing hm => ?_⟩
  have hm : outgoing ∈ results := by
    rw [← zero_add results, ← hflight, ← hsum]
    exact hm
  obtain ⟨hresult, hdestination⟩ := haccounts.kinds outgoing hm
  refine ⟨hresult, ?_, hdestination⟩
  by_contra hnews
  obtain ⟨agent, ha⟩ := Option.ne_none_iff_exists'.mp hnews
  have hcount := haccounts.finishes agent
  have hpos : 0 < results.countP fun outgoing => outgoing.message.finishes? = some agent :=
    Multiset.countP_pos.mpr ⟨outgoing, hm, ha⟩
  by_cases hmember : agent ∈ network.team.collector.finished
  · rw [if_pos hmember] at hcount
    split at hcount <;> omega
  · have hopen : ¬(agent ∈ setup.problem.agents ∧ w.Through setup agent) :=
      fun hc => hmember (hfinished agent hc.1)
    rw [if_neg hmember, if_neg hopen] at hcount
    omega

theorem Shows.complete {network : Network K G} (h : network.Shows setup w) (valid : setup.Valid)
    (hpool : network.pool = []) : network.team.Complete setup.problem := by
  obtain ⟨results, hsum, haccounts⟩ := h.pool
  rw [hpool] at hsum
  obtain ⟨hflight, rfl⟩ := add_eq_zero.mp hsum.symm
  have hover := ended_of_quiet valid h.inv h.settled hflight
  have hstance : ∀ name ∈ setup.problem.names, (w name).exchange.stance = .ended := by
    intro name hn
    rw [hover name hn]
    rfl
  constructor
  · intro name hn
    exact (h.team.phase?_eq_converged h.inv).mpr ⟨hn, hover name hn⟩
  · intro name
    have hvalues := haccounts.values name
    rw [Multiset.countP_zero, Nat.add_zero] at hvalues
    rw [hvalues]
    by_cases hn : name ∈ setup.problem.names
    · rw [if_pos ⟨hn, hstance name hn⟩, if_pos hn]
    · rw [if_neg fun hc => hn hc.1, if_neg hn]
  · intro agent
    have hfinishes := haccounts.finishes agent
    rw [Multiset.countP_zero, Nat.add_zero] at hfinishes
    have hthrough : w.Through setup agent := by
      intro name hm
      exact hstance name (Problem.mem_names_of_owner (valid.wellFormed.mem_variablesOf.mp hm))
    constructor
    · intro hf
      by_contra ha
      rw [if_pos hf, if_neg fun hc => ha hc.1] at hfinishes
      cases hfinishes
    · intro ha
      by_contra hf
      rw [if_neg hf, if_pos ⟨ha, hthrough⟩] at hfinishes
      cases hfinishes
  · exact haccounts.once

end Network

end DcopSearch
