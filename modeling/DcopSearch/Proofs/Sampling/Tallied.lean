import DcopSearch.Proofs.Normalization.Owned

/-! What an agent has sent and what it counts belong together, whatever it was told.  Every variable it
has reported has converged, it has reported none twice, and the variables that it still counts are the
others that it owns.  So when it comes to the end of its count it has reported all of them, and it
does so once. -/

namespace DcopSearch

variable {K G : Type}

namespace Outgoing

/-- The variables whose values are reported, in the order of the reports. -/
def assigned (messages : List (Outgoing K)) : List String :=
  messages.filterMap fun outgoing => outgoing.message.assigns?

/-- The agents that are reported to have finished. -/
def finishers (messages : List (Outgoing K)) : List String :=
  messages.filterMap fun outgoing => outgoing.message.finishes?

@[simp] theorem assigned_nil : assigned ([] : List (Outgoing K)) = [] := rfl

@[simp] theorem finishers_nil : finishers ([] : List (Outgoing K)) = [] := rfl

@[simp] theorem assigned_news (destination : Destination) (agent : String) :
    assigned [(⟨destination, .agentFinished agent⟩ : Outgoing K)] = [] := rfl

@[simp] theorem finishers_news (destination : Destination) (agent : String) :
    finishers [(⟨destination, .agentFinished agent⟩ : Outgoing K)] = [agent] := rfl

@[simp] theorem assigned_append (first second : List (Outgoing K)) :
    assigned (first ++ second) = assigned first ++ assigned second :=
  List.filterMap_append

@[simp] theorem finishers_append (first second : List (Outgoing K)) :
    finishers (first ++ second) = finishers first ++ finishers second :=
  List.filterMap_append

theorem mem_assigned {messages : List (Outgoing K)} {name : String} :
    name ∈ assigned messages ↔
      ∃ destination value, ⟨destination, .assignment name value⟩ ∈ messages := by
  rw [assigned, List.mem_filterMap]
  constructor
  · rintro ⟨⟨destination, message⟩, hm, ha⟩
    cases message <;> simp [Message.assigns?] at ha
    next value =>
      subst ha
      exact ⟨destination, value, hm⟩
  · rintro ⟨destination, value, hm⟩
    exact ⟨_, hm, rfl⟩

theorem IsLetter.none {outgoing : Outgoing K} (h : outgoing.IsLetter) :
    outgoing.message.assigns? = none ∧ outgoing.message.finishes? = none := by
  have hk := h.kind
  cases hm : outgoing.message <;> simp [hm, Message.isResult, Message.assigns?, Message.finishes?] at hk ⊢

theorem assigned_letters {letters : List (Outgoing K)}
    (h : ∀ outgoing ∈ letters, outgoing.IsLetter) : assigned letters = [] :=
  List.filterMap_eq_nil_iff.mpr fun outgoing ho => (h outgoing ho).none.1

theorem finishers_letters {letters : List (Outgoing K)}
    (h : ∀ outgoing ∈ letters, outgoing.IsLetter) : finishers letters = [] :=
  List.filterMap_eq_nil_iff.mpr fun outgoing ho => (h outgoing ho).none.2

variable [CostArithmetic K] (s : SamplingState K) (delta : K)

theorem assigned_results : assigned (s.results delta) = [s.name] := by
  have hbounds : ∀ bounds : List K, assigned (bounds.map fun bound =>
      (⟨.collector, .finalBound bound⟩ : Outgoing K)) = [] := by
    intro bounds
    refine List.filterMap_eq_nil_iff.mpr fun outgoing ho => ?_
    obtain ⟨bound, -, rfl⟩ := List.mem_map.mp ho
    rfl
  simp only [SamplingState.results, assigned, List.filterMap_cons, Message.assigns?]
  split
  · exact congrArg _ (hbounds _)
  · rfl

theorem finishers_results : finishers (s.results delta) = [] :=
  List.filterMap_eq_nil_iff.mpr fun _ ho => (s.mem_results delta ho).2.2

end Outgoing

open Outgoing

/-- What is sent in answer: nothing if the answer is an error. -/
def sentOf (answer : Except AgentError (List (Outgoing K))) : List (Outgoing K) :=
  match answer with
  | .ok sent => sent
  | .error _ => []

/-- If a batch has the news that the agent has finished, then at its end and nowhere else, and the
values of all its variables have been sent by then. -/
def Concludes (problem : Problem K) (agent : String) (sent batch : List (Outgoing K)) : Prop :=
  finishers batch = [] ∨
  ∃ rest, batch = rest ++ [⟨.orchestrator, .agentFinished agent⟩] ∧ finishers rest = [] ∧
    ∀ name ∈ problem.variablesOf agent, name ∈ assigned (sent ++ rest)

/-- After the news that an agent has finished no value is reported. -/
def Sealed (sent : List (Outgoing K)) : Prop :=
  sent.Pairwise fun first second => first.message.finishes? ≠ none → second.message.assigns? = none

theorem Concludes.isSealed {problem : Problem K} {agent : String} {sent batch : List (Outgoing K)}
    (h : Concludes problem agent sent batch) : Sealed batch := by
  have hquiet : ∀ {messages : List (Outgoing K)}, finishers messages = [] → Sealed messages := by
    intro messages hnone
    refine List.pairwise_of_forall_mem_list fun first hfirst second _ hnews => ?_
    exact absurd (List.filterMap_eq_nil_iff.mp hnone first hfirst) hnews
  rcases h with h | ⟨rest, rfl, hrest, -⟩
  · exact hquiet h
  · refine List.pairwise_append.mpr ⟨hquiet hrest, List.pairwise_singleton _ _, ?_⟩
    intro first hfirst second _ hnews
    exact absurd (List.filterMap_eq_nil_iff.mp hrest first hfirst) hnews

theorem Concludes.append_letters {problem : Problem K} {agent : String}
    {sent letters batch : List (Outgoing K)} (h : Concludes problem agent sent batch)
    (hl : ∀ outgoing ∈ letters, outgoing.IsLetter) :
    Concludes problem agent sent (letters ++ batch) := by
  rcases h with h | ⟨rest, rfl, hrest, hall⟩
  · exact .inl (by rw [finishers_append, finishers_letters hl, h]; rfl)
  · refine .inr ⟨letters ++ rest, by rw [List.append_assoc], ?_, fun name hn => ?_⟩
    · rw [finishers_append, finishers_letters hl, hrest]
      rfl
    · have hmem := hall name hn
      simp only [assigned_append, assigned_letters hl, List.nil_append] at hmem ⊢
      exact hmem

/-- What is sent when a variable ends: results of its own besides letters, its value among them. -/
structure Emission.Ends (problem : Problem K) (name : String) (emission : Emission K) : Prop where
  terminated : emission.terminated = true
  assigned : assigned emission.messages = [name]
  finishers : finishers emission.messages = []
  kinds : ∀ outgoing ∈ emission.messages, outgoing.IsLetter ∨
    outgoing.message.isResult = true ∧ ∀ agent, outgoing.destination ≠ .agent agent
  values : ∀ destination name value, ⟨destination, .assignment name value⟩ ∈ emission.messages →
    destination = .collector ∧ problem.Allows name value

theorem Reaction.Orderly.ends_or_quiet [CostArithmetic K] {problem : Problem K} {delta : K}
    {s : SamplingState K} {reaction : Reaction K G} (h : reaction.Orderly problem delta s)
    (hs : s.InDomain problem) {emission : Emission K} (he : reaction.outcome = .ok emission) :
    emission.terminated = false ∧ (∀ outgoing ∈ emission.messages, outgoing.IsLetter) ∨
      s.phase ≠ .converged ∧ reaction.state.phase = .converged ∧ emission.Ends problem s.name := by
  rcases h.sends emission he with hquiet | ⟨hterminated, hopen, hconverged, letters, hm, hletters⟩
  · exact .inl hquiet
  have hmem : ∀ outgoing ∈ emission.messages,
      outgoing.IsLetter ∨ outgoing ∈ reaction.state.results delta := by
    intro outgoing ho
    rw [hm] at ho
    exact (List.mem_append.mp ho).imp_left (hletters outgoing)
  refine .inr ⟨hopen, hconverged, hterminated, ?_, ?_, fun outgoing ho => ?_, ?_⟩
  · rw [hm, assigned_append, assigned_letters hletters, assigned_results, h.leads.name]
    rfl
  · rw [hm, finishers_append, finishers_letters hletters, finishers_results]
    rfl
  · refine (hmem outgoing ho).imp_right fun hr => ?_
    obtain ⟨hresult, hdestination, -⟩ := SamplingState.mem_results _ _ hr
    exact ⟨hresult, by simp [hdestination]⟩
  · intro destination name value ho
    rcases hmem _ ho with hl | hr
    · exact absurd hl.kind (by simp [Message.isResult])
    · have ht := h.leads.inDomain hs
      rcases List.mem_cons.mp hr with hr | hr
      · obtain ⟨rfl, rfl⟩ : name = reaction.state.name ∧ value = reaction.state.currentValue := by
          simpa using congrArg Outgoing.message hr
        exact ⟨congrArg Outgoing.destination hr, _, ht.domain, ht.currentValue_mem⟩
      · split at hr
        · obtain ⟨bound, -, hb⟩ := List.mem_map.mp hr
          simp at hb
        · simp at hr

namespace Sampler

/-- Every variable of the first is a variable of the second, in no earlier phase. -/
def Precedes (sampler next : Sampler K G) : Prop :=
  ∀ name phase, sampler.phase? name = some phase →
    ∃ later, next.phase? name = some later ∧ phase.rank ≤ later.rank

theorem Precedes.refl (sampler : Sampler K G) : sampler.Precedes sampler :=
  fun _ phase hp => ⟨phase, hp, le_rfl⟩

theorem Precedes.trans {first second third : Sampler K G} (h : first.Precedes second)
    (h' : second.Precedes third) : first.Precedes third := by
  intro name phase hp
  obtain ⟨later, hl, hle⟩ := h name phase hp
  obtain ⟨last, hlast, hle'⟩ := h' name later hl
  exact ⟨last, hlast, hle.trans hle'⟩

/-- The variables of an agent, its count of them and all that it has `sent` belong together. -/
structure Tallies (problem : Problem K) (agent : String) (sent : List (Outgoing K))
    (sampler : Sampler K G) : Prop where
  settings : sampler.settings.agent = agent
  states : ∀ (name : String) (s : SamplingState K), sampler.states[name]? = some s →
    s.name = name ∧ s.InDomain problem ∧ (0 < s.phase.rank → problem.owner? name = some agent)
  once : (assigned sent).Nodup
  converged : ∀ name ∈ assigned sent, sampler.phase? name = some .converged
  remaining : sampler.remaining + (assigned sent).length = (problem.variablesOf agent).length
  news : finishers sent = if sampler.remaining = 0 ∧ assigned sent ≠ [] then [agent] else []
  kinds : ∀ outgoing ∈ sent, outgoing.IsLetter ∨
    outgoing.message.isResult = true ∧ ∀ agent, outgoing.destination ≠ .agent agent
  values : ∀ destination name value, ⟨destination, .assignment name value⟩ ∈ sent →
    destination = .collector ∧ problem.Allows name value

/-- The answer of an agent that has sent `sent` before keeps its tally. -/
structure Answers (problem : Problem K) (agent : String) (sent : List (Outgoing K))
    (sampler : Sampler K G)
    (answer : Sampler K G × Except AgentError (List (Outgoing K))) : Prop where
  tallies : answer.1.Tallies problem agent (sent ++ sentOf answer.2)
  concludes : Concludes problem agent sent (sentOf answer.2)
  precedes : sampler.Precedes answer.1

namespace Tallies

variable {problem : Problem K} {agent name : String} {sent : List (Outgoing K)}
  {sampler : Sampler K G} {s : SamplingState K}

theorem owner_of_assigned (h : sampler.Tallies problem agent sent) (hn : name ∈ assigned sent) :
    problem.owner? name = some agent := by
  obtain ⟨s, hs, hp⟩ := Option.map_eq_some_iff.mp (h.converged name hn)
  exact (h.states name s hs).2.2 (by simp [hp, Phase.rank])

/-- Letters do not count, wherever they stand. -/
theorem insert_letters {batch : List (Outgoing K)}
    (h : sampler.Tallies problem agent (sent ++ batch)) {letters : List (Outgoing K)}
    (hl : ∀ outgoing ∈ letters, outgoing.IsLetter) :
    sampler.Tallies problem agent (sent ++ (letters ++ batch)) := by
  have hassigned : assigned (sent ++ (letters ++ batch)) = assigned (sent ++ batch) := by
    simp [assigned_letters hl]
  have hfinishers : Outgoing.finishers (sent ++ (letters ++ batch))
      = Outgoing.finishers (sent ++ batch) := by
    simp [finishers_letters hl]
  have hmem : ∀ outgoing ∈ sent ++ (letters ++ batch),
      outgoing ∈ sent ++ batch ∨ outgoing.IsLetter := by
    intro outgoing ho
    simp only [List.mem_append] at ho ⊢
    rcases ho with ho | ho | ho
    · exact .inl (.inl ho)
    · exact .inr (hl outgoing ho)
    · exact .inl (.inr ho)
  refine ⟨h.settings, h.states, hassigned ▸ h.once, hassigned ▸ h.converged,
    hassigned ▸ h.remaining, ?_, fun outgoing ho => ?_, fun destination name value hm => ?_⟩
  · rw [hassigned, hfinishers, h.news]
  · rcases hmem outgoing ho with ho | ho
    · exact h.kinds outgoing ho
    · exact .inl ho
  · rcases hmem _ hm with hm | hm
    · exact h.values destination name value hm
    · exact absurd hm.kind (by simp [Message.isResult])

theorem append_letters (h : sampler.Tallies problem agent sent) {letters : List (Outgoing K)}
    (hl : ∀ outgoing ∈ letters, outgoing.IsLetter) :
    sampler.Tallies problem agent (sent ++ letters) := by
  have hnil : sampler.Tallies problem agent (sent ++ []) := by rwa [List.append_nil]
  simpa using hnil.insert_letters hl

theorem precedes_insert (hs : sampler.states[name]? = some s) {t : SamplingState K}
    (hl : s.Leads problem t) (generator : G) (remaining : Nat) :
    sampler.Precedes { sampler with
      generator := generator, states := sampler.states.insert name t, remaining := remaining } := by
  intro other phase hp
  by_cases he : name = other
  · subst he
    obtain rfl : s.phase = phase := by simpa [phase?, hs] using hp
    exact ⟨t.phase, by simp [phase?], hl.forward⟩
  · refine ⟨phase, ?_, le_rfl⟩
    simpa [phase?, Std.ExtTreeMap.getElem?_insert, he] using hp

/-- A variable that reports nothing goes its way. -/
theorem insert (h : sampler.Tallies problem agent sent) (hs : sampler.states[name]? = some s)
    {t : SamplingState K} (hl : s.Leads problem t)
    (hown : 0 < t.phase.rank → problem.owner? name = some agent) (generator : G) :
    Tallies problem agent sent { sampler with
      generator := generator, states := sampler.states.insert name t } := by
  obtain ⟨hname, hdomain, -⟩ := h.states name s hs
  refine ⟨h.settings, fun other u hu => ?_, h.once, fun other ho => ?_, h.remaining, h.news,
    h.kinds, h.values⟩
  · by_cases he : name = other
    · subst he
      obtain rfl : t = u := by simpa using hu
      exact ⟨hl.name.trans hname, hl.inDomain hdomain, hown⟩
    · exact h.states other u (by simpa [Std.ExtTreeMap.getElem?_insert, he] using hu)
  · obtain ⟨later, hlater, hle⟩ :=
      precedes_insert hs hl generator sampler.remaining other _ (h.converged other ho)
    rw [← Phase.eq_converged hle]
    exact hlater

/-- Only the agent itself says that it has finished, and then it has reported all its variables. -/
theorem reported_all (h : sampler.Tallies problem agent sent) (wf : problem.WellFormed)
    {other : String} (hm : other ∈ finishers sent) :
    other = agent ∧ ∀ name ∈ problem.variablesOf agent, name ∈ assigned sent := by
  rw [h.news] at hm
  split at hm
  next hzero =>
    have hsub : (assigned sent).Subperm (problem.variablesOf agent) :=
      List.subperm_of_subset h.once fun name hn => wf.mem_variablesOf.mpr (h.owner_of_assigned hn)
    have hperm := hsub.perm_of_length_le (by have := h.remaining; omega)
    exact ⟨List.mem_singleton.mp hm, fun name hn => hperm.mem_iff.mpr hn⟩
  · cases hm

/-- An agent that has finished has no value left to report. -/
theorem isSealed_append {next : Sampler K G} {batch : List (Outgoing K)}
    (h : sampler.Tallies problem agent sent) (hnext : next.Tallies problem agent (sent ++ batch))
    (hconcludes : Concludes problem agent sent batch) (hsealed : Sealed sent) :
    Sealed (sent ++ batch) := by
  refine List.pairwise_append.mpr ⟨hsealed, hconcludes.isSealed, fun first hfirst second hsecond hnews => ?_⟩
  have hzero : sampler.remaining = 0 := by
    by_contra hmore
    have hnone := h.news
    rw [if_neg fun hc => hmore hc.1] at hnone
    exact hnews (List.filterMap_eq_nil_iff.mp hnone first hfirst)
  have hbefore := h.remaining
  have hafter := hnext.remaining
  rw [assigned_append, List.length_append] at hafter
  have hnil : assigned batch = [] := List.length_eq_zero_iff.mp (by omega)
  exact List.filterMap_eq_nil_iff.mp hnil second hsecond

/-- A variable that has converged without a report can be reported once. -/
theorem unreported (h : sampler.Tallies problem agent sent) (wf : problem.WellFormed)
    (hopen : name ∉ assigned sent) (hconverged : sampler.phase? name = some .converged) :
    (assigned sent ++ [name]).Nodup ∧
      (∀ other ∈ assigned sent ++ [name], sampler.phase? other = some .converged) ∧
      (assigned sent ++ [name]).Subperm (problem.variablesOf agent) := by
  have hnodup : (assigned sent ++ [name]).Nodup := by
    rw [List.nodup_append_comm]
    exact List.nodup_cons.mpr ⟨hopen, h.once⟩
  have hphases : ∀ other ∈ assigned sent ++ [name], sampler.phase? other = some .converged := by
    intro other ho
    rcases List.mem_append.mp ho with ho | ho
    · exact h.converged other ho
    · rwa [List.mem_singleton.mp ho]
  refine ⟨hnodup, hphases, ?_⟩
  refine List.subperm_of_subset hnodup fun other ho => wf.mem_variablesOf.mpr ?_
  obtain ⟨s, hs, hp⟩ := Option.map_eq_some_iff.mp (hphases other ho)
  exact (h.states other s hs).2.2 (by simp [hp, Phase.rank])

/-- A variable that ends reports its value, and after the last one comes the news that the agent has
finished. -/
theorem settle (h : sampler.Tallies problem agent sent) (wf : problem.WellFormed)
    (hopen : name ∉ assigned sent) (hconverged : sampler.phase? name = some .converged)
    {emission : Emission K} (he : emission.Ends problem name) :
    (sampler.settle emission).1.Tallies problem agent (sent ++ (sampler.settle emission).2) ∧
      Concludes problem agent sent (sampler.settle emission).2 := by
  obtain ⟨hnodup, hphases, hsub⟩ := h.unreported wf hopen hconverged
  have hlength := hsub.length_le
  have hremaining := h.remaining
  rw [List.length_append, List.length_singleton] at hlength
  have hnone : finishers sent = [] := by
    rw [h.news, if_neg]
    omega
  obtain ⟨news, hsettle, hcase⟩ := sampler.exists_settle he.terminated
  rw [h.settings] at hcase
  rw [hsettle]
  have hassigned : assigned (sent ++ (emission.messages ++ news)) = assigned sent ++ [name] := by
    rcases hcase with ⟨-, rfl⟩ | ⟨-, rfl⟩ <;> simp [he.assigned]
  refine ⟨⟨h.settings, h.states, hassigned ▸ hnodup, hassigned ▸ hphases, ?_, ?_,
    fun outgoing ho => ?_, fun destination other value hm => ?_⟩, ?_⟩
  · rw [hassigned, List.length_append, List.length_singleton]
    show sampler.remaining - 1 + _ = _
    omega
  · rw [hassigned, finishers_append, finishers_append, hnone, he.finishers]
    rcases hcase with ⟨hzero, rfl⟩ | ⟨hmore, rfl⟩
    · simp [hzero]
    · simp [hmore]
  · rcases List.mem_append.mp ho with ho | ho
    · exact h.kinds outgoing ho
    rcases List.mem_append.mp ho with ho | ho
    · exact he.kinds outgoing ho
    · rcases hcase with ⟨-, rfl⟩ | ⟨-, rfl⟩
      · obtain rfl := List.mem_singleton.mp ho
        exact .inr ⟨rfl, by simp⟩
      · cases ho
  · rcases List.mem_append.mp hm with hm | hm
    · exact h.values destination other value hm
    rcases List.mem_append.mp hm with hm | hm
    · exact he.values destination other value hm
    · rcases hcase with ⟨-, rfl⟩ | ⟨-, rfl⟩ <;> simp at hm
  · rcases hcase with ⟨hzero, rfl⟩ | ⟨-, rfl⟩
    · refine .inr ⟨emission.messages, rfl, he.finishers, fun other ho => ?_⟩
      have hperm := hsub.perm_of_length_le (by simp; omega)
      rw [assigned_append, he.assigned]
      exact hperm.mem_iff.mpr ho
    · exact .inl (by simp [he.finishers])

theorem fails (h : sampler.Tallies problem agent sent) (error : AgentError) :
    sampler.Answers problem agent sent (sampler, .error error) :=
  ⟨by simpa [sentOf] using h, .inl rfl, .refl sampler⟩

variable [CostArithmetic K]

/-- Whatever a variable does, its agent keeps the tally. -/
theorem absorb (h : sampler.Tallies problem agent sent) (wf : problem.WellFormed)
    (hs : sampler.states[name]? = some s) {delta : K} {reaction : Reaction K G}
    (hr : reaction.Orderly problem delta s)
    (hown : 0 < reaction.state.phase.rank → problem.owner? name = some agent) :
    sampler.Answers problem agent sent (sampler.absorb name reaction) := by
  obtain ⟨hname, hdomain, -⟩ := h.states name s hs
  have htallies := h.insert hs hr.leads hown reaction.generator
  have hprecedes := precedes_insert hs hr.leads reaction.generator sampler.remaining
  unfold Sampler.absorb
  simp only
  split
  · exact ⟨by simpa [sentOf] using htallies, .inl rfl, hprecedes⟩
  next emission houtcome =>
    rcases hr.ends_or_quiet hdomain houtcome with ⟨hquiet, hletters⟩ | ⟨hopen, hphase, hends⟩
    · simp only [Sampler.settle, hquiet, Bool.false_eq_true, if_false]
      exact ⟨htallies.append_letters hletters, .inl (finishers_letters hletters), hprecedes⟩
    · have hunreported : name ∉ assigned sent := by
        intro hn
        have hconverged := h.converged name hn
        simp only [phase?, hs, Option.map_some, Option.some.injEq] at hconverged
        exact hopen hconverged
      obtain ⟨hsettled, hconcludes⟩ := htallies.settle wf hunreported
        (by simp [phase?, hphase]) (hname ▸ hends)
      refine ⟨hsettled, hconcludes, ?_⟩
      rw [Sampler.settle, if_pos hends.terminated]
      exact precedes_insert hs hr.leads reaction.generator _

theorem react (h : sampler.Tallies problem agent sent) (wf : problem.WellFormed)
    {delta : K} {reaction : SamplingState K → Reaction K G}
    (hr : ∀ s, (reaction s).Orderly problem delta s)
    (hown : ∀ s, sampler.states[name]? = some s → 0 < (reaction s).state.phase.rank →
      problem.owner? name = some agent) :
    sampler.Answers problem agent sent (sampler.react name reaction) := by
  unfold Sampler.react
  split
  · exact h.fails _
  next s hs => exact h.absorb wf hs (hr s) (hown s hs)

/-- A variable comes into the tally when its place becomes known. -/
theorem register (h : sampler.Tallies problem agent sent) (wf : problem.WellFormed) {view : View}
    {next : Sampler K G} (hnext : sampler.register problem name view = .ok next) :
    next.Tallies problem agent sent ∧ sampler.Precedes next := by
  unfold Sampler.register at hnext
  split at hnext
  · cases hnext
  next hnew =>
    split at hnext
    · cases hnext
    next domain hdomain =>
      cases hnext
      have hnone : sampler.states[name]? = none := by
        refine Std.ExtTreeMap.getElem?_eq_none ?_
        simpa using hnew
      have hphases : ∀ other phase, sampler.phase? other = some phase → phase? { sampler with
          states := sampler.states.insert name (.ofView sampler.settings name domain view) } other
            = some phase := by
        intro other phase hp
        have hne : name ≠ other := by
          rintro rfl
          simp [phase?, hnone] at hp
        simpa [phase?, Std.ExtTreeMap.getElem?_insert, hne] using hp
      refine ⟨⟨h.settings, fun other u hu => ?_, h.once, fun other ho => ?_, h.remaining, h.news,
        h.kinds, h.values⟩, fun other phase hp => ⟨phase, hphases other phase hp, le_rfl⟩⟩
      · by_cases he : name = other
        · subst he
          obtain rfl : SamplingState.ofView sampler.settings name domain view = u := by
            simpa using hu
          refine ⟨rfl, ⟨hdomain, ?_, ?_, ?_⟩, fun hrank => absurd hrank (Nat.lt_irrefl 0)⟩
          · exact List.length_pos_iff.mpr (wf.valued name domain hdomain)
          · intro i hi
            cases hi
          · intro node hn
            cases hn
        · exact h.states other u (by simpa [Std.ExtTreeMap.getElem?_insert, he] using hu)
      · exact hphases other _ (h.converged other ho)

variable [Generator G]

theorem onNormalized (h : sampler.Tallies problem agent sent) (wf : problem.WellFormed)
    {normalized : Normalized K} (hown : problem.owner? normalized.name = some agent) :
    sampler.Answers problem agent sent (sampler.onNormalized problem normalized) :=
  h.react wf (fun s => s.orderly_onNormalized _ _ normalized) fun _ _ _ => hown

/-- A step of normalization is followed by what the variable does that it completes. -/
theorem onAllNormalized (h : sampler.Tallies problem agent sent) (wf : problem.WellFormed)
    {step : NormalizationStep K} (hstep : step.Owned problem agent) :
    sampler.Answers problem agent sent ((sampler.onAllNormalized problem step.completed).1,
      (sampler.onAllNormalized problem step.completed).2.map (step.messages ++ ·)) := by
  rcases hstep.completed with hnone | ⟨normalized, hone, hown⟩
  · have htallies := h.append_letters hstep.letters
    have hconcludes := finishers_letters hstep.letters
    rw [hnone, Sampler.onAllNormalized, Except.map, List.append_nil]
    exact ⟨htallies, .inl hconcludes, .refl _⟩
  · have hanswers := h.onNormalized wf hown
    rw [hone, Sampler.onAllNormalized]
    rcases he : sampler.onNormalized problem normalized with ⟨next, error | messages⟩
    · rw [he] at hanswers
      exact hanswers
    · rw [he] at hanswers
      simp only [Sampler.onAllNormalized, Except.map, List.append_nil]
      exact ⟨hanswers.tallies.insert_letters hstep.letters,
        hanswers.concludes.append_letters hstep.letters, hanswers.precedes⟩

/-- A context or a report comes for a variable that has started already, or changes nothing in its
phase. -/
theorem handle (h : sampler.Tallies problem agent sent) (wf : problem.WellFormed)
    (message : Message K) : sampler.Answers problem agent sent (sampler.handle problem message) := by
  cases message with
  | context context =>
    refine h.react wf (fun s => s.orderly_onContext _ _ context) fun s hs hrank => ?_
    refine (h.states _ s hs).2.2 (Nat.pos_of_ne_zero fun hzero => ?_)
    cases hp : s.phase with
    | awaitingNormalization buffered =>
      cases buffered <;> simp [SamplingState.onContext, hp, SamplingState.sends,
        SamplingState.fails, Phase.rank] at hrank
    | _ => simp [hp, Phase.rank] at hzero
  | cost receiver cost =>
    refine h.react wf (fun s => s.orderly_onCost _ _ cost) fun s hs hrank => ?_
    refine (h.states _ s hs).2.2 (Nat.pos_of_ne_zero fun hzero => ?_)
    have hsampling : s.phase ≠ .sampling := by
      intro hp
      simp [hp, Phase.rank] at hzero
    simp only [SamplingState.onCost, hsampling, ne_eq, not_false_eq_true, true_or, if_true,
      SamplingState.fails] at hrank
    omega
  | _ => exact h.fails _

end Tallies

end Sampler

end DcopSearch
