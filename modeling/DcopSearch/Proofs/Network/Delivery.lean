import DcopSearch.Network.Pool
import DcopSearch.Proofs.Network.Agents

/-! Any message of the pool can be delivered next.  If it is for a variable then the owner handles it
and the world takes some steps; if it is a result then the collector takes it in.  The results that the
collector has and those under way add up to one for every variable and every agent that is through. -/

namespace DcopSearch

open World

variable {K G : Type}

namespace Message

/-- The variable whose value is reported. -/
def assigns? : Message K → Option String
  | .assignment name _ => some name
  | _ => none

def finishes? : Message K → Option String
  | .agentFinished agent => some agent
  | _ => none

def bounds? : Message K → Option K
  | .finalBound bound => some bound
  | _ => none

def isResult : Message K → Bool
  | .assignment _ _ | .finalBound _ | .agentFinished _ => true
  | _ => false

end Message

instance {setup : Setup K} {w : World K} {agent : String} : Decidable (w.Through setup agent) :=
  inferInstanceAs (Decidable (∀ name ∈ setup.problem.variablesOf agent,
    (w name).exchange.stance = .ended))

variable [CostArithmetic K]

namespace SamplingState

variable (s : SamplingState K) (delta : K)

theorem mem_results {outgoing : Outgoing K} (h : outgoing ∈ s.results delta) :
    outgoing.message.isResult = true ∧ outgoing.destination = .collector ∧
      outgoing.message.finishes? = none := by
  rcases List.mem_cons.mp h with rfl | h
  · exact ⟨rfl, rfl, rfl⟩
  · split at h
    · obtain ⟨bound, _, rfl⟩ := List.mem_map.mp h
      exact ⟨rfl, rfl, rfl⟩
    · simp at h

theorem countP_assigns_results (name : String) :
    (s.results delta).countP (fun outgoing => outgoing.message.assigns? = some name)
      = if s.name = name then 1 else 0 := by
  have hbound : ∀ bounds : List K, (bounds.map fun bound =>
      (⟨.collector, .finalBound bound⟩ : Outgoing K)).countP
        (fun outgoing => outgoing.message.assigns? = some name) = 0 := by
    intro bounds
    rw [List.countP_eq_zero]
    intro outgoing hm
    obtain ⟨bound, _, rfl⟩ := List.mem_map.mp hm
    simp [Message.assigns?]
  rw [results, List.countP_cons]
  split
  · rw [hbound]
    simp [Message.assigns?]
  · simp [Message.assigns?]

theorem countP_finishes_results (agent : String) :
    (s.results delta).countP (fun outgoing => outgoing.message.finishes? = some agent) = 0 := by
  rw [List.countP_eq_zero]
  intro outgoing hm
  simp [(s.mem_results delta hm).2.2]

end SamplingState

namespace World.Announces

variable {setup : Setup K} {w : World K} {agent name : String} {sent : List (Outgoing K)}

theorem kinds (h : w.Announces setup agent name sent) : ∀ outgoing ∈ sent,
    outgoing.message.isResult = true ∧ ∀ agent, outgoing.destination ≠ .agent agent := by
  intro outgoing hm
  rcases h with ⟨-, rfl⟩ | ⟨-, news, rfl, hnews⟩
  · simp at hm
  rcases List.mem_append.mp hm with hm | hm
  · obtain ⟨hresult, hdestination, -⟩ := SamplingState.mem_results _ _ hm
    exact ⟨hresult, by simp [hdestination]⟩
  · rcases hnews with ⟨-, rfl⟩ | ⟨-, rfl⟩
    · obtain rfl := List.mem_singleton.mp hm
      exact ⟨rfl, by simp⟩
    · simp at hm

/-- A variable that has ended reports its value, and no other's. -/
theorem countP_assigns (h : w.Announces setup agent name sent)
    (hnamed : (w name).state.name = name) (other : String) :
    sent.countP (fun outgoing => outgoing.message.assigns? = some other)
      = if name = other ∧ (w name).exchange.stance = .ended then 1 else 0 := by
  rcases h with ⟨hstance, rfl⟩ | ⟨hstance, news, rfl, hnews⟩
  · simp [hstance]
  · have hzero : news.countP (fun outgoing => outgoing.message.assigns? = some other) = 0 := by
      rcases hnews with ⟨-, rfl⟩ | ⟨-, rfl⟩ <;> simp [Message.assigns?]
    rw [List.countP_append, SamplingState.countP_assigns_results, hnamed, hzero]
    simp [hstance]

/-- The last variable of an agent to end reports that the agent is through. -/
theorem countP_finishes (h : w.Announces setup agent name sent)
    (hmember : name ∈ setup.problem.variablesOf agent) (other : String) :
    sent.countP (fun outgoing => outgoing.message.finishes? = some other)
      = if agent = other ∧ w.Through setup agent then 1 else 0 := by
  rcases h with ⟨hstance, rfl⟩ | ⟨-, news, rfl, hnews⟩
  · have hopen : ¬w.Through setup agent := fun hall => hstance (hall name hmember)
    simp [hopen]
  · rw [List.countP_append, SamplingState.countP_finishes_results, zero_add]
    rcases hnews with ⟨hall, rfl⟩ | ⟨hall, rfl⟩ <;> simp [hall, Message.finishes?]

section

variable {w₀ : World K} (h : w.Announces setup agent name sent)
  (hn : setup.problem.owner? name = some agent) (hnear : Near name w₀ w)
  (hopen : (w₀ name).exchange.stance ≠ .ended)

include h hn hnear hopen

/-- The values of the variables that have ended were announced, and the one that ends now is. -/
theorem values (hinv : w.Inv setup) (other : String) :
    (if other ∈ setup.problem.names ∧ (w₀ other).exchange.stance = .ended then 1 else 0)
        + sent.countP (fun outgoing => outgoing.message.assigns? = some other)
      = if other ∈ setup.problem.names ∧ (w other).exchange.stance = .ended then 1 else 0 := by
  have hnames := Problem.mem_names_of_owner hn
  rw [h.countP_assigns (hinv.sound name hnames).named]
  by_cases he : name = other
  · subst he
    simp [hnames, hopen]
  · simp [he, (hnear other (Ne.symm he)).stance]

/-- The agents that are through have announced it, and the one that has just ended does. -/
theorem finishes (valid : setup.Valid) (other : String) :
    (if other ∈ setup.problem.agents ∧ w₀.Through setup other then 1 else 0)
        + sent.countP (fun outgoing => outgoing.message.finishes? = some other)
      = if other ∈ setup.problem.agents ∧ w.Through setup other then 1 else 0 := by
  have hmember := valid.wellFormed.mem_variablesOf.mpr hn
  rw [h.countP_finishes hmember]
  by_cases he : agent = other
  · subst he
    have hbefore : ¬w₀.Through setup agent := fun hall => hopen (hall name hmember)
    simp [Problem.mem_agents_of_owner hn, hbefore]
  · simp [he, hnear.through_iff valid.wellFormed hn (Ne.symm he)]

end

end World.Announces

/-- What the collector has and what is under way to it is what there is to report, each once. -/
structure Collector.Accounts (setup : Setup K) (w : World K) (collector : Collector K)
    (results : Multiset (Outgoing K)) : Prop where
  kinds : ∀ outgoing ∈ results,
    outgoing.message.isResult = true ∧ ∀ agent, outgoing.destination ≠ .agent agent
  values : ∀ name, collector.reports[name]?.getD 0
      + results.countP (fun outgoing => outgoing.message.assigns? = some name)
    = if name ∈ setup.problem.names ∧ (w name).exchange.stance = .ended then 1 else 0
  finishes : ∀ agent, (if agent ∈ collector.finished then 1 else 0)
      + results.countP (fun outgoing => outgoing.message.finishes? = some agent)
    = if agent ∈ setup.problem.agents ∧ w.Through setup agent then 1 else 0
  once : collector.duplicateFinishes = 0

namespace Collector.Accounts

variable {setup : Setup K} {w w' : World K} {agent name : String} {collector : Collector K}
  {results : Multiset (Outgoing K)}

theorem handle {outgoing : Outgoing K} (h : collector.Accounts setup w (results + {outgoing})) :
    ∃ next, collector.handle outgoing.message = .ok next ∧ next.Accounts setup w results := by
  have hresult := (h.kinds outgoing (by simp)).1
  have hrest : ∀ other ∈ results, other.message.isResult = true ∧
      ∀ agent, other.destination ≠ .agent agent := by
    intro other ho
    exact h.kinds other (by simp [ho])
  have hvalues := h.values
  have hfinishes := h.finishes
  simp only [Multiset.countP_add, ← Multiset.cons_zero, Multiset.countP_cons,
    Multiset.countP_zero, zero_add] at hvalues hfinishes
  cases hm : outgoing.message with
  | assignment name value =>
    have hassigns : outgoing.message.assigns? = some name := by rw [hm]; rfl
    have hnone : outgoing.message.finishes? = none := by rw [hm]; rfl
    refine ⟨_, rfl, hrest, fun other => ?_, fun agent => ?_, h.once⟩
    · have hv := hvalues other
      simp only [hassigns, Option.some.injEq] at hv
      simp only [Std.ExtTreeMap.getElem?_insert, Std.LawfulEqCmp.compare_eq_iff_eq]
      by_cases he : name = other
      · subst he
        simp only [if_true, Option.getD_some] at hv ⊢
        omega
      · rw [if_neg he] at hv ⊢
        exact hv
    · simpa [hnone] using hfinishes agent
  | finalBound bound =>
    have hnone : outgoing.message.assigns? = none := by rw [hm]; rfl
    have hnone' : outgoing.message.finishes? = none := by rw [hm]; rfl
    refine ⟨_, rfl, hrest, fun other => ?_, fun agent => ?_, h.once⟩
    · simpa [hnone] using hvalues other
    · simpa [hnone'] using hfinishes agent
  | agentFinished agent =>
    have hfinish : outgoing.message.finishes? = some agent := by rw [hm]; rfl
    have hnone : outgoing.message.assigns? = none := by rw [hm]; rfl
    -- a second report of the agent would be one more than the books have of it
    have hnew : agent ∉ collector.finished := by
      intro hc
      have hf := hfinishes agent
      rw [if_pos hc, if_pos hfinish] at hf
      split at hf <;> omega
    refine ⟨_, rfl, hrest, fun other => ?_, fun other => ?_, ?_⟩
    · simpa [hnone] using hvalues other
    · have hf := hfinishes other
      simp only [hfinish, Option.some.injEq] at hf
      simp only [Std.ExtTreeSet.mem_insert, Std.LawfulEqCmp.compare_eq_iff_eq]
      by_cases he : agent = other
      · subst he
        rw [if_neg hnew, if_pos rfl] at hf
        rw [if_pos (.inl rfl)]
        omega
      · simpa [he] using hf
    · have hfalse : collector.finished.contains agent = false := by
        rw [← Bool.not_eq_true, Std.ExtTreeSet.contains_iff_mem]
        exact hnew
      simp [hfalse, h.once]
  | _ => simp [hm, Message.isResult] at hresult

/-- What a variable announces when it terminates is accounted for. -/
theorem announce (h : collector.Accounts setup w results) (valid : setup.Valid)
    (hinv : w'.Inv setup) (hn : setup.problem.owner? name = some agent) (hnear : Near name w w')
    (hopen : (w name).exchange.stance ≠ .ended) {sent : List (Outgoing K)}
    (hsent : w'.Announces setup agent name sent) :
    collector.Accounts setup w' (results + ↑sent) := by
  refine ⟨fun outgoing hm => ?_, fun other => ?_, fun other => ?_, h.once⟩
  · rw [Multiset.mem_add, Multiset.mem_coe] at hm
    exact hm.elim (h.kinds outgoing) (hsent.kinds outgoing)
  · rw [Multiset.countP_add, Multiset.coe_countP, ← Nat.add_assoc, h.values,
      hsent.values hn hnear hopen hinv]
  · rw [Multiset.countP_add, Multiset.coe_countP, ← Nat.add_assoc, h.finishes,
      hsent.finishes hn hnear hopen valid]

end Collector.Accounts

theorem Team.deliver_of_agent [Generator G] {team : Team K G} {outgoing : Outgoing K} {agent : String}
    (h : outgoing.destination = .agent agent) :
    team.deliver outgoing = team.deliverToAgent agent outgoing.message := by
  rw [deliver, h]

theorem Team.deliver_of_result [Generator G] {team : Team K G} {outgoing : Outgoing K}
    (h : ∀ agent, outgoing.destination ≠ .agent agent) :
    team.deliver outgoing = team.deliverToCollector outgoing.message := by
  unfold deliver
  split
  next agent ha => exact absurd ha (h agent)
  all_goals rfl

/-- The agents hold the cells of their variables. -/
structure Team.Shows (setup : Setup K) (w : World K) (team : Team K G) : Prop where
  problem : team.problem = setup.problem
  members : ∀ name, name ∈ team.agents ↔ name ∈ setup.problem.agents
  agents : ∀ (name : String) (agent : Agent K G), team.agents[name]? = some agent →
    agent.Shows setup w name

variable [Generator G] {setup : Setup K} {w : World K}

theorem Team.Shows.deliver {team : Team K G} (h : team.Shows setup w) (valid : setup.Valid)
    (hinv : w.Inv setup) (hsettled : w.Settled setup) {name : String} {outgoing : Outgoing K}
    (hn : name ∈ setup.problem.names) (hsends : w.Sends setup name outgoing) :
    ∃ (next : Team K G) (sent : List (Outgoing K)) (w' : World K) (agent : String),
      team.deliver outgoing = (next, .ok sent) ∧ next.Shows setup w' ∧
      next.collector = team.collector ∧ setup.problem.owner? name = some agent ∧
      w'.Settled setup ∧ Handled setup G w agent name {outgoing} sent w' := by
  obtain ⟨agent, ho⟩ := Problem.exists_owner hn
  have hdestination := hsends.destination_of_owner ho
  have hmember : agent ∈ team.agents := (h.members agent).mpr (Problem.mem_agents_of_owner ho)
  obtain ⟨a, ha⟩ : ∃ a, team.agents[agent]? = some a :=
    ⟨_, Std.ExtTreeMap.getElem?_eq_some_getElem hmember⟩
  obtain ⟨next, sent, w', hhandle, hshows, hhandled⟩ :=
    (h.agents agent a ha).handle valid hinv (hsettled name hn) ho hsends
  refine ⟨{ team with agents := team.agents.insert agent next }, sent, w', agent, ?_,
    ⟨h.problem, fun other => ?_, fun other b hb => ?_⟩, rfl, ho, fun other hother => ?_, hhandled⟩
  · rw [Team.deliver_of_agent hdestination]
    simp only [Team.deliverToAgent, ha, h.problem, hhandle]
    rfl
  · rw [Std.ExtTreeMap.mem_insert, h.members other]
    have hagent := Problem.mem_agents_of_owner ho
    constructor
    · rintro (he | hm)
      · rwa [← Std.LawfulEqCmp.compare_eq_iff_eq.mp he]
      · exact hm
    · exact .inr
  · rw [Std.ExtTreeMap.getElem?_insert] at hb
    by_cases he : agent = other
    · subst he
      obtain rfl : next = b := by simpa using hb
      exact hshows
    · rw [if_neg (by simpa using he)] at hb
      refine (h.agents other b hb).near valid.wellFormed hhandled.near ?_
      rw [ho]
      simpa using he
  · by_cases he : other = name
    · exact he ▸ hhandled.settled
    · exact (hsettled other hother).of_alike (hhandled.near other he)

/-- The agents hold the cells of the world, and the pool has the messages that are under way and
results that are accounted for. -/
structure Network.Shows (setup : Setup K) (w : World K) (network : Network K G) : Prop where
  team : network.team.Shows setup w
  inv : w.Inv setup
  settled : w.Settled setup
  pool : ∃ results : Multiset (Outgoing K), ↑network.pool = w.flight setup + results ∧
    network.team.collector.Accounts setup w results

end DcopSearch
