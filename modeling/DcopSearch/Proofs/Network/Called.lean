import DcopSearch.Proofs.Network.Agreement
import DcopSearch.Proofs.Sampling.Calls

/-! How the sampling of an agent changes within a network.  Whatever message its agent handles, well or
not, the sampling is changed by calls only; so what holds after any calls holds of every agent, in
whatever order the messages are delivered. -/

namespace DcopSearch

variable {K G : Type} [CostArithmetic K] [Generator G]

namespace Sampler

/-- The sampling is what calls have made of the first one. -/
def Called (first sampler : Sampler K G) : Prop := ∃ calls, sampler = first.after calls

variable {first sampler : Sampler K G}

theorem Called.refl : first.Called first := ⟨[], rfl⟩

theorem Called.perform (h : first.Called sampler) (call : Call K) :
    first.Called (sampler.perform call) := by
  obtain ⟨calls, rfl⟩ := h
  exact ⟨calls ++ [call], by rw [after_append]; rfl⟩

theorem Called.onAllNormalized (h : first.Called sampler) (problem : Problem K)
    (completed : List (Normalized K)) :
    first.Called (sampler.onAllNormalized problem completed).1 := by
  induction completed generalizing sampler with
  | nil => exact h
  | cons normalized rest ih =>
    have hnext := h.perform (.normalized problem normalized)
    simp only [Sampler.perform] at hnext
    unfold Sampler.onAllNormalized
    split
    next heq =>
      rw [heq] at hnext
      exact hnext
    next heq =>
      rw [heq] at hnext
      exact ih hnext

end Sampler

namespace Agent

variable {first : Sampler K G} {agent : Agent K G}

theorem called_takeStep (h : first.Called agent.sampler) (problem : Problem K)
    (outcome : Normalizer K × Except AgentError (NormalizationStep K)) :
    first.Called (agent.takeStep problem outcome).1.sampler := by
  unfold takeStep
  simp only
  split
  · exact h
  · exact h.onAllNormalized problem _

/-- An agent changes its sampling by calls, whatever the message. -/
theorem called_handle (h : first.Called agent.sampler) (problem : Problem K) (message : Message K) :
    first.Called (agent.handle problem message).1.sampler := by
  have hreceive : first.Called (agent.receive problem message).1.sampler := by
    cases message with
    | view name view =>
      have hregistered := h.perform (.register problem name view)
      simp only [Sampler.perform] at hregistered
      simp only [receive, onView]
      split
      · exact h
      next next hnext =>
        rw [hnext] at hregistered
        exact called_takeStep hregistered problem _
    | range report => exact called_takeStep h problem _
    | divisor receiver divisor => exact called_takeStep h problem _
    | context context => exact h.perform (.message problem (.context context))
    | cost receiver cost => exact h.perform (.message problem (.cost receiver cost))
    | _ => exact h
  unfold handle
  split
  · exact h
  · split
    · exact hreceive
    · exact h

end Agent

/-- The sampling of every agent is what calls have made of that of a new one. -/
def Team.Called (problem : Problem K) (config : Config K) (seed : UInt64) (team : Team K G) : Prop :=
  ∀ (name : String) (agent : Agent K G), team.agents[name]? = some agent →
    (Sampler.new name problem config seed).Called agent.sampler

variable {problem : Problem K} {config : Config K} {seed : UInt64}

theorem Team.Called.deliver {team : Team K G} (h : team.Called problem config seed)
    (outgoing : Outgoing K) : (team.deliver outgoing).1.Called problem config seed := by
  have hcollector : (team.deliverToCollector outgoing.message).1.Called problem config seed := by
    unfold deliverToCollector
    split <;> exact h
  unfold Team.deliver
  split
  next name _ =>
    unfold deliverToAgent
    split
    · exact h
    next agent ha =>
      intro other next hnext
      simp only [Std.ExtTreeMap.getElem?_insert] at hnext
      split at hnext
      next he =>
        obtain rfl := Std.LawfulEqCmp.compare_eq_iff_eq.mp he
        obtain rfl := Option.some.inj hnext
        exact Agent.called_handle (h name agent ha) team.problem outgoing.message
      next => exact h other next hnext
  · exact hcollector
  · exact hcollector

theorem Team.called_new (setup : Setup K) (seed : UInt64) :
    (Team.new setup.problem setup.config seed : Team K G).Called setup.problem setup.config seed := by
  intro name agent ha
  rw [(fresh_new setup seed).agents name] at ha
  split at ha
  · obtain rfl := Option.some.inj ha
    exact .refl
  · cases ha

namespace Network

variable {first network : Network K G}

theorem called_start {setup : Setup K} (h : start setup seed = .ok first) :
    first.team.Called setup.problem setup.config seed := by
  have hstarted : ∀ (starts : List (Outgoing K)) (team : Team K G),
      team.Called setup.problem setup.config seed →
      (starts.foldl (fun team start => (team.deliver start).1) team).Called setup.problem
        setup.config seed := by
    intro starts
    induction starts with
    | nil => exact fun team hteam => hteam
    | cons message rest ih => exact fun team hteam => ih _ (hteam.deliver message)
  unfold start at h
  obtain ⟨views, -, rfl⟩ := exists_of_map_eq_ok h
  exact hstarted _ _ (Team.called_new setup seed)

/-- In whatever order the messages are delivered, the sampling of every agent is changed by calls. -/
theorem Reaches.called (h : first.Reaches network) (hfirst : first.team.Called problem config seed) :
    network.team.Called problem config seed := by
  induction h with
  | refl => exact hfirst
  | @deliver _ next _ position _ hd ih =>
    obtain ⟨-, hteam, -⟩ := deliverAt_eq_some hd
    have hnext : _ = next.team := congrArg Prod.fst hteam
    exact hnext ▸ ih.deliver _

end Network

end DcopSearch
