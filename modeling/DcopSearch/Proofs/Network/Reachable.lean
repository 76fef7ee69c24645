import DcopSearch.Proofs.Network.Delivery

/-! The networks that deliveries lead to, in any order, from agents that have started.  Each of them
shows a world that the steps of its variables lead to. -/

namespace DcopSearch

open World

variable {K G : Type} [CostArithmetic K] [Generator G]

/-- The agents as they are created, some of which have started. -/
structure Team.Fresh (setup : Setup K) (seed : UInt64) (started : String → Bool)
    (team : Team K G) : Prop where
  problem : team.problem = setup.problem
  collector : team.collector = .empty
  agents : ∀ name, team.agents[name]?
    = if name ∈ setup.problem.agents then
        some { Agent.new name setup.problem setup.config seed with started := started name }
      else none

namespace Team

variable {setup : Setup K} {seed : UInt64} {started : String → Bool} {team : Team K G}

omit [CostArithmetic K] in
theorem nodup_agents (problem : Problem K) : problem.agents.Nodup := by
  have h := Std.ExtTreeSet.distinct_toList (t := (Std.ExtTreeSet.ofList
    (problem.declarations.values.map Variable.owner) : NameSet))
  exact h.imp fun hne he => hne (by simp [he])

theorem fresh_new (setup : Setup K) (seed : UInt64) :
    Fresh setup seed (fun _ => false) (.new setup.problem setup.config seed : Team K G) := by
  refine ⟨rfl, rfl, fun name => ?_⟩
  exact getElem?_ofList_map (nodup_agents setup.problem)
    (fun name => Agent.new name setup.problem setup.config seed) name

theorem Fresh.start (h : team.Fresh setup seed started) {name : String}
    (hn : name ∈ setup.problem.agents) :
    ∃ next : Team K G, team.deliver { destination := .agent name, message := .start }
        = (next, .ok []) ∧
      next.Fresh setup seed fun other => started other || other == name := by
  have hagent := h.agents name
  rw [if_pos hn] at hagent
  let agent : Agent K G :=
    { Agent.new name setup.problem setup.config seed with started := true }
  refine ⟨{ team with agents := team.agents.insert name agent },
    by simp only [Team.deliver, Team.deliverToAgent, hagent]; rfl, h.problem, h.collector,
    fun other => ?_⟩
  rw [Std.ExtTreeMap.getElem?_insert]
  by_cases he : name = other
  · subst he
    simp [hn, agent]
  · have hne : (other == name) = false := by simpa using Ne.symm he
    rw [if_neg (by simpa using he), h.agents other, hne, Bool.or_false]

theorem Fresh.starts (h : team.Fresh setup seed started) {names : List String}
    (hn : ∀ name ∈ names, name ∈ setup.problem.agents) :
    Fresh setup seed (fun other => started other || names.contains other)
      ((names.map fun name => ⟨.agent name, .start⟩).foldl
        (fun team start => (team.deliver start).1) team) := by
  induction names generalizing started team with
  | nil => simpa using h
  | cons name rest ih =>
    obtain ⟨next, hdeliver, hfresh⟩ := h.start (hn name (by simp))
    have hrest := ih hfresh fun other ho => hn other (by simp [ho])
    simp only [List.map_cons, List.foldl_cons, hdeliver]
    convert hrest using 2 with other
    rw [List.contains_cons, Bool.or_assoc]

theorem Fresh.shows (h : team.Fresh setup seed started)
    (hall : ∀ name ∈ setup.problem.agents, started name = true) :
    team.Shows setup (World.initial setup) := by
  refine ⟨h.problem, fun name => ?_, fun name agent ha => ?_⟩
  · rw [Std.ExtTreeMap.mem_iff_isSome_getElem?, h.agents name]
    split <;> simp [*]
  · rw [h.agents name] at ha
    split at ha
    next hn =>
      obtain rfl := Option.some.inj ha
      refine ⟨rfl, hall name hn, ⟨rfl, rfl, fun other _ => rfl⟩, ⟨rfl, fun other _ => rfl, ?_⟩⟩
      exact (List.countP_eq_length.mpr fun other _ => rfl).symm
    · cases ha

end Team

omit [Generator G] in
/-- The messages under way at the beginning are the views of the variables. -/
theorem World.flight_initial {setup : Setup K} (valid : setup.Valid) :
    (World.initial setup).flight setup
      = ↑(setup.tree.views.toList.map fun entry =>
          (⟨setup.problem.address entry.1, .view entry.1 entry.2⟩ : Outgoing K)) := by
  have hviews : setup.tree.views.toList.map (fun entry =>
        (⟨setup.problem.address entry.1, .view entry.1 entry.2⟩ : Outgoing K))
      = setup.tree.views.keys.map fun name =>
        ⟨setup.problem.address name, .view name (setup.view name)⟩ := by
    rw [← Std.ExtTreeMap.map_fst_toList_eq_keys, List.map_map]
    refine List.map_congr_left fun ⟨name, view⟩ hm => ?_
    have he : setup.tree.view? name = some view := by
      simpa [PseudoTree.view?] using hm
    simp [Setup.view, PseudoTree.view, he]
  have hkeys : setup.problem.names.Perm setup.tree.views.keys := by
    rw [List.perm_ext_iff_of_nodup setup.problem.nodup_names Std.ExtTreeMap.nodup_keys]
    intro name
    rw [valid.spans.views, Std.ExtTreeMap.mem_keys, Std.ExtTreeMap.mem_iff_isSome_getElem?]
    rfl
  have hsum : ∀ (names : List String) (f : String → Outgoing K),
      (names.map fun name => ({f name} : Multiset (Outgoing K))).sum = ↑(names.map f) := by
    intro names f
    induction names with
    | nil => rfl
    | cons name rest ih =>
      rw [List.map_cons, List.sum_cons, ih, List.map_cons, ← Multiset.cons_coe,
        Multiset.singleton_add]
  have hcell : ∀ name, (World.initial setup name).flight setup name
      = {⟨setup.problem.address name, .view name (setup.view name)⟩} := by
    intro name
    simp [World.initial, Cell.initial, Cell.flight, Cell.ascentFlight, Cell.exchangeFlight]
  rw [World.flight, List.sum_toFinset _ setup.problem.nodup_names, hviews]
  simp only [hcell, hsum]
  exact Multiset.coe_eq_coe.mpr (hkeys.map _)

omit [CostArithmetic K] [Generator G] in
theorem Team.viewMessages_eq {problem : Problem K} {entries : List (String × View)}
    (h : ∀ entry ∈ entries, entry.1 ∈ problem.names) :
    Team.viewMessages problem entries
      = .ok (entries.map fun entry => ⟨problem.address entry.1, .view entry.1 entry.2⟩) := by
  induction entries with
  | nil => rfl
  | cons entry rest ih =>
    rw [Team.viewMessages, Problem.toOwner_eq (h entry (by simp)),
      ih fun other ho => h other (by simp [ho])]
    rfl

namespace Network

/-- The network in which every agent has got its start and the views are under way. -/
def start (setup : Setup K) (seed : UInt64) : Except AgentError (Network K G) :=
  (Team.viewMessages setup.problem setup.tree.views.toList).map fun views =>
    .new setup.problem setup.config seed views false

/-- The networks that deliveries lead to. -/
inductive Reaches (first : Network K G) : Network K G → Prop where
  | refl : Reaches first first
  | deliver {network next : Network K G} {delivery : Delivery K} (position : Nat) :
      Reaches first network → network.deliverAt position = some (delivery, next) →
      Reaches first next

theorem Reaches.head {network next last : Network K G} {delivery : Delivery K} {position : Nat}
    (hd : network.deliverAt position = some (delivery, next)) (h : next.Reaches last) :
    network.Reaches last := by
  induction h with
  | refl => exact .deliver position .refl hd
  | deliver position _ hd ih => exact .deliver position ih hd

/-- Every schedule is one of the orders of delivery. -/
theorem reaches_follow (network : Network K G) (schedule : List Nat) (k steps : Nat) :
    network.Reaches (network.follow schedule k steps).2 := by
  induction steps generalizing network k with
  | zero => exact .refl
  | succ steps ih =>
    unfold follow
    split
    next => exact .refl
    next hd => exact .head hd (ih _ _)

variable {setup : Setup K} {w : World K}

theorem shows_initial (valid : setup.Valid) {seed : UInt64} {started : String → Bool}
    {team : Team K G} {pool : List (Outgoing K)} (hfresh : team.Fresh setup seed started)
    (hall : ∀ name ∈ setup.problem.agents, started name = true)
    (hpool : (↑pool : Multiset (Outgoing K)) = (World.initial setup).flight setup) :
    Network.Shows setup (.initial setup) { team, pool } := by
  refine ⟨hfresh.shows hall, inv_initial setup, fun name _ => ?_, 0, by rw [add_zero, hpool], ?_⟩
  · refine ⟨?_, ?_, ?_, ?_⟩ <;> simp [World.initial, Cell.initial, Ascent.stage]
  · rw [hfresh.collector]
    refine ⟨by simp, fun name => ?_, fun agent => ?_, rfl⟩
    · have hopen : ¬(name ∈ setup.problem.names ∧
          (World.initial setup name).exchange.stance = .ended) := by
        rintro ⟨_, hc⟩
        cases hc
      rw [if_neg hopen]
      rfl
    · have hopen : ¬(agent ∈ setup.problem.agents ∧ (World.initial setup).Through setup agent) := by
        rintro ⟨ha, hc⟩
        obtain ⟨name, hn, ho⟩ := Problem.mem_agents.mp ha
        cases hc name (valid.wellFormed.mem_variablesOf.mpr ho)
      rw [if_neg hopen]
      simp [Collector.empty]

theorem exists_views (valid : setup.Valid) :
    ∃ views, Team.viewMessages setup.problem setup.tree.views.toList = .ok views ∧
      (↑views : Multiset (Outgoing K)) = (World.initial setup).flight setup := by
  have hviews : ∀ entry ∈ setup.tree.views.toList, entry.1 ∈ setup.problem.names := by
    rintro ⟨name, view⟩ hm
    have he : setup.tree.view? name = some view := by simpa [PseudoTree.view?] using hm
    rw [valid.spans.views, he]
    rfl
  exact ⟨_, Team.viewMessages_eq hviews, (World.flight_initial valid).symm⟩

theorem exists_start (valid : setup.Valid) (seed : UInt64) :
    ∃ first : Network K G, start setup seed = .ok first ∧ first.Shows setup (.initial setup) := by
  obtain ⟨views, hviews, hpool⟩ := exists_views valid
  refine ⟨_, by rw [start, hviews]; rfl, ?_⟩
  exact shows_initial valid ((Team.fresh_new setup seed).starts fun _ => id)
    (fun name hn => by simpa using hn) hpool

theorem Shows.deliverAt {network next : Network K G} {position : Nat} {delivery : Delivery K}
    (h : network.Shows setup w) (valid : setup.Valid)
    (hd : network.deliverAt position = some (delivery, next)) :
    ∃ sent w', delivery.outcome = .ok sent ∧ next.Shows setup w' ∧
      (delivery.outgoing.message.isResult = true ∧ w' = w ∧ sent = [] ∨
        ∃ name agent, setup.problem.owner? name = some agent ∧
          w.Sends setup name delivery.outgoing ∧
          Handled setup G w agent name {delivery.outgoing} sent w') := by
  obtain ⟨results, hpool, haccounts⟩ := h.pool
  obtain ⟨outgoing, ho, he⟩ := Option.map_eq_some_iff.mp hd
  obtain ⟨hlt, hget⟩ := List.getElem?_eq_some_iff.mp ho
  have hperm : {outgoing} + (↑(network.pool.eraseIdx position) : Multiset (Outgoing K))
      = w.flight setup + results := by
    rw [← hpool, Multiset.singleton_add, Multiset.cons_coe, Multiset.coe_eq_coe, ← hget]
    exact List.getElem_cons_eraseIdx_perm hlt
  have hmem : outgoing ∈ w.flight setup + results := by
    rw [← hperm]
    simp
  rcases Multiset.mem_add.mp hmem with hm | hm
  · obtain ⟨name, hn, hsends⟩ := exists_sends valid hm
    obtain ⟨team, sent, w', agent, hdeliver, hshows, hcollector, howner, hsettled, hhandled⟩ :=
      h.team.deliver valid h.inv h.settled hn hsends
    simp only [hdeliver, Prod.mk.injEq] at he
    obtain ⟨rfl, rfl⟩ := he
    obtain ⟨letters, news, rfl, hflight, hannounces⟩ := hhandled.sends
    refine ⟨_, w', rfl, ⟨hshows, h.inv.steps valid hhandled.steps, hsettled, results + ↑news, ?_, ?_⟩,
      .inr ⟨name, agent, howner, hsends, hhandled⟩⟩
    -- what was taken from the flight is the message, and what was added the letters
    · refine add_right_cancel (b := {outgoing}) ?_
      calc (↑(network.pool.eraseIdx position ++ (letters ++ news)) + {outgoing} :
            Multiset (Outgoing K))
          = {outgoing} + ↑(network.pool.eraseIdx position) + ↑letters + ↑news := by
            simp only [← Multiset.coe_add]
            ac_rfl
        _ = w'.flight setup + {outgoing} + results + ↑news := by rw [hperm, hflight]; ac_rfl
        _ = w'.flight setup + (results + ↑news) + {outgoing} := by ac_rfl
    · rw [hcollector]
      exact haccounts.announce valid (h.inv.steps valid hhandled.steps) howner hhandled.near
        hhandled.opened hannounces
  · obtain ⟨rest, hrest⟩ := Multiset.exists_cons_of_mem hm
    obtain ⟨hresult, hdestination⟩ := haccounts.kinds outgoing hm
    have hsplit : results = rest + {outgoing} := by
      rw [hrest, ← Multiset.singleton_add, add_comm]
    obtain ⟨collector, hhandle, hrest⟩ := (hsplit ▸ haccounts).handle
    have hdeliver : network.team.deliver outgoing = ({ network.team with collector }, .ok []) := by
      rw [Team.deliver_of_result hdestination]
      simp only [Team.deliverToCollector, hhandle]
    simp only [hdeliver, Prod.mk.injEq] at he
    obtain ⟨rfl, rfl⟩ := he
    refine ⟨[], w, rfl, ⟨⟨h.team.problem, h.team.members, h.team.agents⟩, h.inv, h.settled, rest, ?_,
      hrest⟩, .inl ⟨hresult, rfl, rfl⟩⟩
    refine add_right_cancel (b := {outgoing}) ?_
    rw [List.append_nil, add_comm, hperm, hsplit]
    ac_rfl

/-- A network that deliveries lead to shows a world that steps lead to. -/
theorem Reaches.shows {first network : Network K G} (valid : setup.Valid)
    (hfirst : first.Shows setup w) (h : first.Reaches network) :
    ∃ w', network.Shows setup w' ∧ Steps setup G w w' := by
  induction h with
  | refl => exact ⟨w, hfirst, .refl⟩
  | deliver position _ hd ih =>
    obtain ⟨v, hshows, hsteps⟩ := ih
    obtain ⟨sent, w', _, hnext, ⟨_, rfl, _⟩ | ⟨name, agent, _, _, hhandled⟩⟩ :=
      hshows.deliverAt valid hd
    · exact ⟨w', hnext, hsteps⟩
    · exact ⟨w', hnext, hsteps.trans hhandled.steps⟩

end Network

end DcopSearch
