import DcopSearch.Proofs.Network.Agreement
import DcopSearch.Proofs.Sampling.Tallied
import DcopSearch.Random.ChaCha

/-! An agent on its own, to which anything may be said in any order.  It keeps its tally whether it
can handle a message or not: no phase goes back, no value and no finish is reported twice, and the
finish is reported last. -/

namespace DcopSearch

open Outgoing

variable {K G : Type} [CostArithmetic K] [Generator G]

namespace Agent

/-- What an agent sends in answer to a message. -/
def answer (agent : Agent K G) (problem : Problem K) (message : Message K) : List (Outgoing K) :=
  sentOf (agent.handle problem message).2

/-- An agent after messages in turn.  One that it cannot handle may still have changed it. -/
def after (agent : Agent K G) (problem : Problem K) (messages : List (Message K)) : Agent K G :=
  messages.foldl (fun agent message => (agent.handle problem message).1) agent

/-- All that an agent sends in answer to messages in turn. -/
def sends (agent : Agent K G) (problem : Problem K) : List (Message K) → List (Outgoing K)
  | [] => []
  | message :: rest =>
    agent.answer problem message ++ (agent.handle problem message).1.sends problem rest

variable {problem : Problem K} {agent : Agent K G} {name : String}

theorem after_append (agent : Agent K G) (problem : Problem K) (earlier later : List (Message K)) :
    agent.after problem (earlier ++ later) = (agent.after problem earlier).after problem later :=
  List.foldl_append

/-- An agent of that name which has sent `sent`. -/
structure Tallies (problem : Problem K) (name : String) (sent : List (Outgoing K))
    (agent : Agent K G) : Prop where
  named : agent.name = name
  normalizer : agent.normalizer.agent = name
  sampler : agent.sampler.Tallies problem name sent

/-- The answer of an agent that has sent `sent` before keeps its tally. -/
structure Answers (problem : Problem K) (name : String) (sent : List (Outgoing K)) (agent : Agent K G)
    (answer : Agent K G × Except AgentError (List (Outgoing K))) : Prop where
  tallies : answer.1.Tallies problem name (sent ++ sentOf answer.2)
  concludes : Concludes problem name sent (sentOf answer.2)
  precedes : agent.sampler.Precedes answer.1.sampler

omit [CostArithmetic K] [Generator G] in
/-- The news that an agent has finished end what it sends, after the values of its variables. -/
theorem Answers.last {sent : List (Outgoing K)}
    {answer : Agent K G × Except AgentError (List (Outgoing K))}
    (h : agent.Answers problem name sent answer) {outgoing : Outgoing K}
    (ho : outgoing ∈ sentOf answer.2) (hnews : outgoing.message.finishes?.isSome) :
    ∃ before, sentOf answer.2 = before ++ [outgoing] ∧
      outgoing = ⟨.orchestrator, .agentFinished name⟩ ∧
      ∀ other ∈ problem.variablesOf name,
        answer.1.sampler.phase? other = some .converged ∧
        ∃ value, ⟨.collector, .assignment other value⟩ ∈ sent ++ before := by
  have hquiet : ∀ batch, finishers batch = [] → outgoing ∉ batch := by
    intro batch hnone hm
    rw [List.filterMap_eq_nil_iff.mp hnone outgoing hm] at hnews
    cases hnews
  rcases h.concludes with hnone | ⟨before, hbatch, hbefore, hall⟩
  · exact absurd ho (hquiet _ hnone)
  have hsub : ∀ letter ∈ sent ++ before, letter ∈ sent ++ sentOf answer.2 := by
    intro letter hl
    rw [hbatch, ← List.append_assoc]
    exact List.mem_append_left _ hl
  rw [hbatch] at ho ⊢
  obtain rfl := List.mem_singleton.mp ((List.mem_append.mp ho).resolve_left (hquiet before hbefore))
  refine ⟨before, rfl, rfl, fun other hother => ?_⟩
  obtain ⟨destination, value, hv⟩ := mem_assigned.mp (hall other hother)
  obtain ⟨rfl, -⟩ := h.tallies.sampler.values destination other value (hsub _ hv)
  have hconverged := h.tallies.sampler.converged other (mem_assigned.mpr ⟨_, value, hsub _ hv⟩)
  exact ⟨hconverged, value, hv⟩

theorem tallies_new (name : String) (problem : Problem K) (config : Config K) (seed : UInt64) :
    (new name problem config seed : Agent K G).Tallies problem name [] where
  named := rfl
  normalizer := rfl
  sampler := {
    settings := rfl
    states := by simp [new, Sampler.new]
    once := List.nodup_nil
    converged := by simp
    remaining := rfl
    news := by simp
    kinds := by simp
    values := by simp }

namespace Tallies

variable {sent : List (Outgoing K)}

section

omit [CostArithmetic K] [Generator G]

theorem fails (h : agent.Tallies problem name sent) (error : AgentError) :
    agent.Answers problem name sent (agent, .error error) :=
  ⟨by simpa [sentOf] using h, .inl rfl, .refl _⟩

theorem of_sampler (h : agent.Tallies problem name sent)
    {answer : Sampler K G × Except AgentError (List (Outgoing K))}
    (ha : agent.sampler.Answers problem name sent answer) :
    agent.Answers problem name sent ({ agent with sampler := answer.1 }, answer.2) :=
  ⟨⟨h.named, h.normalizer, ha.tallies⟩, ha.concludes, ha.precedes⟩

end

theorem takeStep (h : agent.Tallies problem name sent) (wf : problem.WellFormed)
    {outcome : Normalizer K × Except AgentError (NormalizationStep K)}
    (ho : Normalizer.Proper problem name outcome) :
    agent.Answers problem name sent (agent.takeStep problem outcome) := by
  have htaken : Tallies problem name sent { agent with normalizer := outcome.1 } :=
    ⟨h.named, ho.keeps, h.sampler⟩
  unfold Agent.takeStep
  simp only
  split
  next error _ =>
    have hanswers := htaken.fails error
    exact ⟨hanswers.tallies, hanswers.concludes, hanswers.precedes⟩
  next step hstep =>
    have hanswers := htaken.of_sampler (h.sampler.onAllNormalized wf (ho.step step hstep))
    exact ⟨hanswers.tallies, hanswers.concludes, hanswers.precedes⟩

theorem receive (h : agent.Tallies problem name sent) (wf : problem.WellFormed)
    (message : Message K) : agent.Answers problem name sent (agent.receive problem message) := by
  have hproper : ∀ message, Normalizer.Proper problem name (agent.normalizer.handle problem message) :=
    Normalizer.proper_handle h.normalizer
  cases message with
  | view other view =>
    simp only [Agent.receive, Agent.onView]
    split
    · exact h.fails _
    next sampler hregister =>
      obtain ⟨hregistered, hprecedes⟩ := h.sampler.register wf hregister
      have hview : Tallies problem name sent { agent with sampler } :=
        ⟨h.named, h.normalizer, hregistered⟩
      have hanswers := hview.takeStep wf (hproper (.view other view))
      exact ⟨hanswers.tallies, hanswers.concludes, hprecedes.trans hanswers.precedes⟩
  | range report => exact h.takeStep wf (hproper (.range report))
  | divisor receiver divisor => exact h.takeStep wf (hproper (.divisor receiver divisor))
  | context context => exact h.of_sampler (h.sampler.handle wf (.context context))
  | cost receiver cost => exact h.of_sampler (h.sampler.handle wf (.cost receiver cost))
  | _ => exact h.fails _

/-- Whatever is said to it, an agent keeps its tally. -/
theorem handle (h : agent.Tallies problem name sent) (wf : problem.WellFormed)
    (message : Message K) : agent.Answers problem name sent (agent.handle problem message) := by
  unfold Agent.handle
  split
  · refine ⟨⟨h.named, h.normalizer, ?_⟩, .inl rfl, .refl _⟩
    simpa [sentOf] using h.sampler
  · split
    · exact h.receive wf message
    · exact h.fails _

theorem after (h : agent.Tallies problem name sent) (wf : problem.WellFormed)
    (messages : List (Message K)) :
    (agent.after problem messages).Tallies problem name (sent ++ agent.sends problem messages) ∧
      agent.sampler.Precedes (agent.after problem messages).sampler := by
  induction messages generalizing agent sent with
  | nil =>
    rw [Agent.sends, List.append_nil]
    exact ⟨h, .refl _⟩
  | cons message rest ih =>
    have hanswers := h.handle wf message
    obtain ⟨htallies, hprecedes⟩ := ih hanswers.tallies
    refine ⟨?_, hanswers.precedes.trans hprecedes⟩
    rw [List.append_assoc] at htallies
    exact htallies

end Tallies

/-- How an agent of a name behaves whatever it is told after `first`. -/
structure Orderly (problem : Problem K) (first : Agent K G) : Prop where
  /-- No phase goes back. -/
  forward : ∀ earlier later,
    (first.after problem earlier).sampler.Precedes (first.after problem (earlier ++ later)).sampler
  /-- No value is reported twice, and neither is that the agent has finished. -/
  values : ∀ messages name, (first.sends problem messages).countP
    (fun outgoing => outgoing.message.assigns? = some name) ≤ 1
  finish : ∀ messages, (first.sends problem messages).countP
    (fun outgoing => outgoing.message.finishes?.isSome) ≤ 1
  /-- That it has finished is the last thing it says in answer to a message; all its variables have
  converged then, and their values have been sent. -/
  last : ∀ messages message, ∀ outgoing ∈ (first.after problem messages).answer problem message,
    outgoing.message.finishes?.isSome → ∃ before,
      (first.after problem messages).answer problem message = before ++ [outgoing] ∧
      outgoing = ⟨.orchestrator, .agentFinished first.name⟩ ∧
      ∀ name ∈ problem.variablesOf first.name,
        (first.after problem (messages ++ [message])).sampler.phase? name = some .converged ∧
        ∃ value, ⟨.collector, .assignment name value⟩ ∈ first.sends problem messages ++ before

theorem orderly_new {problem : Problem K} (built : problem.Built) (name : String)
    (config : Config K) (seed : UInt64) (G : Type) [Generator G] :
    Orderly problem (new name problem config seed : Agent K G) := by
  have wf := built.wellFormed
  have hfirst : Tallies problem name [] (new name problem config seed : Agent K G) :=
    tallies_new name problem config seed
  generalize hnew : (new name problem config seed : Agent K G) = first at hfirst ⊢
  have hafter : ∀ messages,
      (first.after problem messages).Tallies problem name (first.sends problem messages) := by
    intro messages
    simpa using (hfirst.after wf messages).1
  refine ⟨fun earlier later => ?_, fun messages other => ?_, fun messages => ?_,
    fun messages message outgoing ho hnews => ?_⟩
  · rw [after_append]
    exact ((hafter earlier).after wf later).2
  · have honce := List.nodup_iff_count_le_one.mp (hafter messages).sampler.once other
    rw [assigned, List.count_filterMap] at honce
    simpa only [beq_eq_decide] using honce
  · have hlength := congrArg List.length (hafter messages).sampler.news
    rw [finishers, List.length_filterMap_eq_countP] at hlength
    rw [hlength]
    split <;> simp
  · rw [after_append, hfirst.named]
    exact ((hafter messages).handle wf message).last ho hnews

open Exact in
/-- The agent that owns the first variable of the chain.  It finishes with the last of three reports,
and just once, though it is told everything twice. -/
theorem orderly_chain :
    let first : Agent (Exact ℚ) ChaCha.Stream := new "x" Problem.chain .content 1
    let range : RangeReport (Exact ℚ) := ⟨"a", number 0, number 5, 2, 1, (∅ : NameSet).insert "a"⟩
    let messages : List (Message (Exact ℚ)) := [.start, .view "a" { children := ["b"] }, .range range,
      .cost "a" (some (number 1)), .cost "a" (some (number 0)), .cost "a" none]
    Problem.chain.variablesOf "x" = ["a"] ∧ Orderly Problem.chain first ∧
      (first.sends Problem.chain (messages ++ messages)).countP
        (fun outgoing => outgoing.message.finishes?.isSome) = 1 := by
  refine ⟨by decide +kernel, orderly_new Problem.built_chain "x" .content 1 ChaCha.Stream, ?_⟩
  decide +kernel

end Agent

end DcopSearch
