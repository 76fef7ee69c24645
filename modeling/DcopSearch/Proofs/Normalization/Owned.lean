import DcopSearch.Proofs.Sampling.Forward

/-! What a normalizer answers to any message.  It speaks to variables only, and a step completes at
most one variable, which its agent owns. -/

namespace DcopSearch

variable {K : Type}

/-- A step that an agent may take: it sends letters, and completes one of the agent's variables or
none. -/
structure NormalizationStep.Owned (problem : Problem K) (agent : String)
    (step : NormalizationStep K) : Prop where
  letters : ∀ outgoing ∈ step.messages, outgoing.IsLetter
  completed : step.completed = [] ∨
    ∃ normalized, step.completed = [normalized] ∧ problem.owner? normalized.name = some agent

theorem NormalizationStep.owned_empty (problem : Problem K) (agent : String) :
    Owned problem agent {} :=
  ⟨by simp, .inl rfl⟩

/-- The agent stays the same, and the step is one that it may take. -/
structure Normalizer.Proper (problem : Problem K) (agent : String)
    (outcome : Normalizer K × Except AgentError (NormalizationStep K)) : Prop where
  keeps : outcome.1.agent = agent
  step : ∀ step, outcome.2 = .ok step → step.Owned problem agent

namespace Normalizer

variable {problem : Problem K} {normalizer : Normalizer K} {agent name : String}

theorem proper_error (h : normalizer.agent = agent) (error : AgentError) :
    Proper problem agent (normalizer, .error error) := by
  refine ⟨h, fun step hs => ?_⟩
  cases hs

/-- Without an objection the variable is the agent's own. -/
theorem owner_of_ownershipError (h : normalizer.agent = agent)
    (ho : normalizer.ownershipError? problem name = none) : problem.owner? name = some agent := by
  unfold ownershipError? at ho
  split at ho
  · cases ho
  next owner howner =>
    split at ho
    next he => rw [howner, he, h]
    · cases ho

variable [CostArithmetic K] (h : normalizer.agent = agent)
  (hown : problem.owner? name = some agent)

include h

include hown in
theorem proper_applyDivisor (divisor : K) (range : Range K) :
    Proper problem agent (normalizer.applyDivisor problem name divisor range) := by
  unfold applyDivisor
  split
  · exact proper_error h _
  · split
    · exact proper_error h _
    · refine ⟨h, fun step hs => ?_⟩
      obtain ⟨messages, hm, rfl⟩ := exists_of_map_eq_ok hs
      exact ⟨Problem.isLetter_of_toOwners (fun _ => rfl) hm, .inr ⟨_, rfl, hown⟩⟩

include hown in
theorem proper_advance (range : Range K) :
    Proper problem agent (normalizer.advance problem name range) := by
  have hquiet : Proper problem agent (normalizer.setRange name range, .ok {}) := by
    refine ⟨h, fun step hs => ?_⟩
    cases hs
    exact NormalizationStep.owned_empty problem agent
  unfold advance
  split
  · exact hquiet
  next view hview =>
    split
    · simp only
      split
      · refine ⟨h, fun step hs => ?_⟩
        obtain ⟨outgoing, ho, rfl⟩ := exists_of_map_eq_ok hs
        refine ⟨fun other hm => ?_, .inl rfl⟩
        obtain rfl := List.mem_singleton.mp hm
        exact Problem.isLetter_of_toOwner rfl ho
      · have hset : (normalizer.setRange name (range.close name view)).agent = agent := h
        exact proper_applyDivisor hset hown _ _
    · exact hquiet

/-- Whatever comes, the answer is a step that the agent may take. -/
theorem proper_handle (message : Message K) :
    Proper problem agent (normalizer.handle problem message) := by
  cases message with
  | view name view =>
    simp only [handle, onView]
    split
    · exact proper_error h _
    next ho =>
      split
      · exact proper_error h _
      · exact proper_advance h (owner_of_ownershipError h ho) _
  | range report =>
    simp only [handle, onRange]
    split
    · exact proper_error h _
    next ho => exact proper_advance h (owner_of_ownershipError h ho) _
  | divisor receiver divisor =>
    simp only [handle, onDivisor]
    split
    · exact proper_error h _
    next ho =>
      split
      · exact proper_error h _
      · exact proper_applyDivisor h (owner_of_ownershipError h ho) _ _
  | _ => exact proper_error h _

end Normalizer

end DcopSearch
