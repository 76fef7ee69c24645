import DcopSearch.Network.Agent
import DcopSearch.Proofs.Protocol.Flight
import DcopSearch.Proofs.Protocol.Progress

/-! How agents hold the cells of a world.  The agent of a variable has its range and, once the view has
come, its state; it counts the variables of its own that have not terminated.  When one variable has
changed, its agent is the only one that has to be looked at. -/

namespace DcopSearch

variable {K G : Type} [CostArithmetic K]

/-- The normalizer has the ranges of the variables that the agent owns. -/
structure Normalizer.Shows (setup : Setup K) (w : World K) (agent : String)
    (normalizer : Normalizer K) : Prop where
  named : normalizer.agent = agent
  substitute : normalizer.substitute = setup.substitute
  ranges : ∀ name, setup.problem.owner? name = some agent →
    normalizer.range name = (w name).range

/-- The sampler has the states of the variables whose views have come, and counts those that have not
terminated. -/
structure Sampler.Shows (setup : Setup K) (w : World K) (agent : String) (sampler : Sampler K G) :
    Prop where
  settings : sampler.settings = .ofConfig agent setup.problem.objective setup.config
  states : ∀ name, setup.problem.owner? name = some agent → sampler.states[name]?
    = if (w name).ascent.stage = .unseen then none else some (w name).state
  remaining : sampler.remaining = (setup.problem.variablesOf agent).countP fun name =>
    decide ((w name).exchange.stance ≠ .ended)

/-- The agent has started and holds the cells of its variables. -/
structure Agent.Shows (setup : Setup K) (w : World K) (name : String) (agent : Agent K G) :
    Prop where
  named : agent.name = name
  started : agent.started = true
  normalizer : agent.normalizer.Shows setup w name
  sampler : agent.sampler.Shows setup w name

variable {setup : Setup K} {w w' : World K} {agent name : String}

namespace Normalizer.Shows

variable {normalizer : Normalizer K}

theorem setRange (h : normalizer.Shows setup w agent) (hnear : World.Near name w w') :
    (normalizer.setRange name (w' name).range).Shows setup w' agent := by
  refine ⟨h.named, h.substitute, fun other ho => ?_⟩
  by_cases hn : name = other
  · subst hn
    simp [Normalizer.range, Normalizer.setRange]
  · have hold := h.ranges other ho
    rw [(hnear other (Ne.symm hn)).range, ← hold]
    simp [Normalizer.range, Normalizer.setRange, Std.ExtTreeMap.getElem?_insert, hn]

theorem congr (h : normalizer.Shows setup w agent)
    (hw : ∀ name, setup.problem.owner? name = some agent → (w' name).range = (w name).range) :
    normalizer.Shows setup w' agent :=
  ⟨h.named, h.substitute, fun name hn => (h.ranges name hn).trans (hw name hn).symm⟩

theorem getElem?_eq (h : normalizer.Shows setup w agent)
    (hn : setup.problem.owner? name = some agent) {view : View}
    (hview : (w name).range.view = some view) :
    normalizer.ranges[name]? = some (w name).range := by
  have hr := h.ranges name hn
  cases hc : normalizer.ranges[name]? with
  | none =>
    rw [Normalizer.range, hc] at hr
    rw [← hr] at hview
    cases hview
  | some range =>
    rw [Normalizer.range, hc] at hr
    rw [← hr]
    rfl

theorem ownershipError?_eq_none (h : normalizer.Shows setup w agent)
    (hn : setup.problem.owner? name = some agent) :
    normalizer.ownershipError? setup.problem name = none := by
  simp [Normalizer.ownershipError?, hn, h.named]

end Normalizer.Shows

/-- All variables of an agent have terminated. -/
def World.Through (setup : Setup K) (w : World K) (agent : String) : Prop :=
  ∀ name ∈ setup.problem.variablesOf agent, (w name).exchange.stance = .ended

omit [CostArithmetic K] in
theorem World.Near.through_iff {other : String} (h : World.Near name w w')
    (wf : setup.problem.WellFormed) (hn : setup.problem.owner? name = some agent)
    (hne : other ≠ agent) : w'.Through setup other ↔ w.Through setup other := by
  refine forall₂_congr fun variableName hm => ?_
  have hv : variableName ≠ name := by
    rintro rfl
    exact hne (Option.some.inj ((wf.mem_variablesOf.mp hm).symm.trans hn))
  rw [(h variableName hv).stance]

omit [CostArithmetic K] in
/-- The messages that end a variable are followed by the news if it was the last one. -/
theorem Sampler.exists_settle (sampler : Sampler K G) {emission : Emission K}
    (ht : emission.terminated = true) :
    ∃ news, sampler.settle emission
        = ({ sampler with remaining := sampler.remaining - 1 }, emission.messages ++ news) ∧
      (sampler.remaining - 1 = 0 ∧
          news = [⟨.orchestrator, .agentFinished sampler.settings.agent⟩] ∨
        sampler.remaining - 1 ≠ 0 ∧ news = []) := by
  refine ⟨_, by rw [Sampler.settle, if_pos ht], ?_⟩
  split
  next hzero => exact .inl ⟨hzero, rfl⟩
  next hmore => exact .inr ⟨hmore, rfl⟩

namespace Sampler.Shows

variable {sampler : Sampler K G}

theorem settings_eq (h : sampler.Shows setup w agent)
    (hn : setup.problem.owner? name = some agent) : sampler.settings = setup.settings name := by
  simp [h.settings, Setup.settings, hn]

theorem getElem?_eq (h : sampler.Shows setup w agent)
    (hn : setup.problem.owner? name = some agent) (hs : (w name).ascent.stage ≠ .unseen) :
    sampler.states[name]? = some (w name).state := by
  rw [h.states name hn, if_neg hs]

theorem register_eq (h : sampler.Shows setup w agent)
    (hn : setup.problem.owner? name = some agent) (hs : (w name).ascent.stage = .unseen) :
    sampler.register setup.problem name (setup.view name)
      = .ok { sampler with states := sampler.states.insert name (setup.registered name) } := by
  have hunknown : ¬sampler.states.contains name = true := by
    have hnone := h.states name hn
    rw [if_pos hs] at hnone
    simpa using hnone
  rw [Sampler.register, if_neg hunknown, Setup.domain?_eq (Problem.mem_names_of_owner hn)]
  simp [Setup.registered, Setup.settings, h.settings, hn]

theorem congr (h : sampler.Shows setup w agent) (wf : setup.problem.WellFormed)
    (hw : ∀ name, setup.problem.owner? name = some agent → (w' name).state = (w name).state ∧
      ((w' name).ascent.stage = .unseen ↔ (w name).ascent.stage = .unseen) ∧
      (w' name).exchange.stance = (w name).exchange.stance) :
    sampler.Shows setup w' agent := by
  refine ⟨h.settings, fun name hn => ?_, ?_⟩
  · obtain ⟨hstate, hseen, -⟩ := hw name hn
    rw [h.states name hn, hstate]
    by_cases hu : (w name).ascent.stage = .unseen
    · rw [if_pos hu, if_pos (hseen.mpr hu)]
    · rw [if_neg hu, if_neg fun hc => hu (hseen.mp hc)]
  · rw [h.remaining]
    refine List.countP_congr fun name hm => ?_
    rw [(hw name (wf.mem_variablesOf.mp hm)).2.2]

theorem states_insert (h : sampler.Shows setup w agent) (hnear : World.Near name w w')
    (hstage : (w' name).ascent.stage ≠ .unseen) (other : String)
    (ho : setup.problem.owner? other = some agent) :
    (sampler.states.insert name (w' name).state)[other]?
      = if (w' other).ascent.stage = .unseen then none else some (w' other).state := by
  rw [Std.ExtTreeMap.getElem?_insert]
  by_cases he : name = other
  · subst he
    simp [hstage]
  · rw [if_neg (by simpa using he), h.states other ho, (hnear other (Ne.symm he)).stage,
      (hnear other (Ne.symm he)).state]

theorem register (h : sampler.Shows setup w agent) (hnear : World.Near name w w')
    (hstage : (w' name).ascent.stage ≠ .unseen)
    (hstance : (w' name).exchange.stance = (w name).exchange.stance) :
    Sampler.Shows setup w' agent
      { sampler with states := sampler.states.insert name (w' name).state } := by
  refine ⟨h.settings, h.states_insert hnear hstage, ?_⟩
  rw [h.remaining]
  refine List.countP_congr fun other _ => ?_
  by_cases he : other = name
  · rw [he, hstance]
  · rw [(hnear other he).stance]

/-- A reaction is taken over.  The one that ends the last variable is followed by the news. -/
theorem absorb [Generator G] (h : sampler.Shows setup w agent) (wf : setup.problem.WellFormed)
    (hn : setup.problem.owner? name = some agent) (hnear : World.Near name w w')
    (hstage : (w' name).ascent.stage ≠ .unseen) {reaction : Reaction K G} {emission : Emission K}
    (hstate : (w' name).state = reaction.state) (hout : reaction.outcome = .ok emission)
    (hopen : (w name).exchange.stance ≠ .ended)
    (hover : (w' name).exchange.stance = .ended ↔ emission.terminated = true) :
    ∃ next news, sampler.absorb name reaction = (next, .ok (emission.messages ++ news)) ∧
      next.Shows setup w' agent ∧
      (emission.terminated = true ∧ w'.Through setup agent ∧
          news = [⟨.orchestrator, .agentFinished agent⟩] ∨
        ¬(emission.terminated = true ∧ w'.Through setup agent) ∧ news = []) := by
  have hstates := hstate ▸ h.states_insert hnear hstage
  have hmem := wf.mem_variablesOf.mpr hn
  have hnodup : (setup.problem.variablesOf agent).Nodup := by
    rw [wf.variablesOf]
    exact setup.problem.nodup_names.filter _
  have hother : ∀ other, other ≠ name → decide ((w other).exchange.stance ≠ .ended)
      = decide ((w' other).exchange.stance ≠ .ended) := fun other ho => by
    rw [(hnear other ho).stance]
  have hzero : (setup.problem.variablesOf agent).countP
      (fun name => decide ((w' name).exchange.stance ≠ .ended)) = 0 ↔ w'.Through setup agent := by
    rw [List.countP_eq_zero, World.Through]
    simp
  simp only [Sampler.absorb, hout]
  cases ht : emission.terminated with
  | false =>
    refine ⟨{ sampler with
        generator := reaction.generator
        states := sampler.states.insert name reaction.state }, [], by simp [Sampler.settle, ht],
      ⟨h.settings, hstates, ?_⟩, .inr ⟨by simp, rfl⟩⟩
    rw [h.remaining]
    refine List.countP_congr fun other _ => ?_
    by_cases he : other = name
    · subst he
      simp [hopen, show (w' other).exchange.stance ≠ .ended from fun hc => by simp [hover, ht] at hc]
    · rw [hother other he]
  | true =>
    -- of the agent's open variables exactly this one has ended
    have hcount := countP_eq_succ (p := fun name => decide ((w' name).exchange.stance ≠ .ended))
      (q := fun name => decide ((w name).exchange.stance ≠ .ended)) hnodup hmem
      (by simp [hover, ht]) (by simpa using hopen) fun other _ he => hother other he
    have hremaining : sampler.remaining - 1 = (setup.problem.variablesOf agent).countP
        fun name => decide ((w' name).exchange.stance ≠ .ended) := by
      rw [h.remaining, hcount, Nat.add_sub_cancel]
    obtain ⟨news, hsettle, hnews⟩ := Sampler.exists_settle { sampler with
      generator := reaction.generator
      states := sampler.states.insert name reaction.state } ht
    refine ⟨{ sampler with
        generator := reaction.generator
        states := sampler.states.insert name reaction.state
        remaining := sampler.remaining - 1 },
      news, by rw [hsettle], ⟨h.settings, hstates, hremaining⟩, ?_⟩
    rcases hnews with ⟨hlast, rfl⟩ | ⟨hmore, rfl⟩
    · exact .inl ⟨rfl, hzero.mp (hremaining.symm.trans hlast), by simp only [h.settings]; rfl⟩
    · exact .inr ⟨fun hc => hmore (hremaining.trans (hzero.mpr hc.2)), rfl⟩

end Sampler.Shows

/-- Nothing has to be done when another agent's variable has changed. -/
theorem Agent.Shows.near {a : Agent K G} (h : a.Shows setup w agent)
    (wf : setup.problem.WellFormed) (hnear : World.Near name w w')
    (hn : setup.problem.owner? name ≠ some agent) : a.Shows setup w' agent := by
  have halike : ∀ other, setup.problem.owner? other = some agent →
      Cell.Alike (w other) (w' other) := by
    intro other ho
    exact hnear other fun he => hn (he ▸ ho)
  exact ⟨h.named, h.started, h.normalizer.congr fun other ho => (halike other ho).range,
    h.sampler.congr wf fun other ho => ⟨(halike other ho).state, by rw [(halike other ho).stage],
      (halike other ho).stance⟩⟩

end DcopSearch
