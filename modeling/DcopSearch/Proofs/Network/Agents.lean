import DcopSearch.Proofs.Network.Handling

/-! What an agent does with any message for one of its variables.  It finds the variable, takes the
message in and, as far as the variable knows enough by then, goes on with its normalization and its
sampling. -/

namespace DcopSearch

open World

theorem insert_insert {V : Type} (entries : Std.ExtTreeMap String V) (name : String) (x y : V) :
    (entries.insert name x).insert name y = entries.insert name y := by
  refine Std.ExtTreeMap.ext_getElem? fun key => ?_
  simp only [Std.ExtTreeMap.getElem?_insert]
  split <;> rfl

variable {K G : Type} [CostArithmetic K] [Generator G]

namespace Normalizer

/-- A divisor is applied once the view is there, and once. -/
theorem applyDivisor_eq {problem : Problem K} {normalizer : Normalizer K} {name : String}
    {divisor : K} {range : Range K} {view : View} {substitute : Option K}
    (hsubstitute : normalizer.substitute = substitute) (hview : range.view = some view)
    (hdone : range.done = false) (hchildren : ∀ child ∈ view.children, child ∈ problem.names) :
    normalizer.applyDivisor problem name divisor range
      = (normalizer.setRange name (range.rescale substitute divisor),
        .ok { messages := view.children.map fun child =>
                ⟨problem.address child, .divisor child divisor⟩
              completed := [(range.rescale substitute divisor).normalized name divisor] }) := by
  simp only [applyDivisor, hsubstitute, hview, hdone, divisorMessages,
    Problem.toOwners_eq hchildren]
  rfl

theorem advance_of_incomplete {problem : Problem K} {normalizer : Normalizer K} {name : String}
    {range : Range K} (h : ∀ view, range.view = some view → range.isComplete view = false) :
    normalizer.advance problem name range = (normalizer.setRange name range, .ok {}) := by
  unfold advance
  split
  · rfl
  next view hv => rw [h view hv, if_neg Bool.false_ne_true]

omit [CostArithmetic K] in
theorem setRange_setRange (normalizer : Normalizer K) (name : String) (range range' : Range K) :
    (normalizer.setRange name range).setRange name range' = normalizer.setRange name range' :=
  congrArg (Normalizer.mk _ _) (insert_insert _ _ _ _)

end Normalizer

namespace Agent

variable {setup : Setup K} {w₀ w : World K} {agent name : String} {a : Agent K G}

theorem takeStep_nil (problem : Problem K) (normalizer : Normalizer K)
    (messages : List (Outgoing K)) :
    a.takeStep problem (normalizer, .ok { messages }) = ({ a with normalizer }, .ok messages) := by
  simp [takeStep, Sampler.onAllNormalized, Except.map]

theorem takeStep_singleton {problem : Problem K} {normalizer : Normalizer K}
    {messages sent : List (Outgoing K)} {normalized : Normalized K} {next : Sampler K G}
    (h : a.sampler.onNormalized problem normalized = (next, .ok sent)) :
    a.takeStep problem (normalizer, .ok { messages, completed := [normalized] })
      = ({ a with normalizer, sampler := next }, .ok (messages ++ sent)) := by
  simp [takeStep, Sampler.onAllNormalized, Except.map, h]

section Advance

variable (hnamed : a.name = agent) (hstarted : a.started = true)
  (hnormalizer : a.normalizer.Shows setup w₀ agent) (hsampler : a.sampler.Shows setup w agent)
  (valid : setup.Valid) (hinv : w.Inv setup) (hn : setup.problem.owner? name = some agent)
  (hnear : Near name w₀ w)

include hnamed hstarted hnormalizer hsampler hinv hn hnear

theorem advance_waiting (ha : (w name).ascent = .unseen ∨ (w name).ascent = .gathering)
    (hwait : (w name).ascent = .gathering →
      (w name).range.isComplete (setup.view name) = false) :
    ∃ next sent w', a.takeStep setup.problem
        (a.normalizer.advance setup.problem name (w name).range) = (next, .ok sent) ∧
      next.Shows setup w' agent ∧ Handled setup G w agent name 0 sent w' := by
  have hsound := hinv.sound name (Problem.mem_names_of_owner hn)
  have hearly : (w name).ascent.stage ≠ .normalized := by
    rcases ha with ha | ha <;> simp [ha, Ascent.stage]
  have hopen := hsound.not_ended_of_early hearly
  rw [Normalizer.advance_of_incomplete (hsound.incomplete_of_waiting ha hwait), takeStep_nil]
  exact ⟨_, _, w, rfl, ⟨hnamed, hstarted, hnormalizer.setRange hnear, hsampler⟩,
    .of_quiet .refl (.refl _ _) hopen
      (hsound.settled_of_early hearly (hsound.calm_of_waiting ha hwait)) (by simp) (by simp) hopen
      (by simp)⟩

include valid

/-- A variable with a parent that has every report sends its own. -/
theorem advance_reporting {parent : String} (hp : setup.parent name = some parent)
    (hg : (w name).ascent = .gathering)
    (hcomplete : (w name).range.isComplete (setup.view name) = true) :
    ∃ next sent w', a.takeStep setup.problem
        (a.normalizer.advance setup.problem name (w name).range) = (next, .ok sent) ∧
      next.Shows setup w' agent ∧ Handled setup G w agent name 0 sent w' := by
  have hnames := Problem.mem_names_of_owner hn
  have hsound := hinv.sound name hnames
  have hview : (w name).range.view = some (setup.view name) := by rw [hsound.view, hg]; rfl
  have hparent : (setup.view name).parent = some parent := hp
  have hopen := hsound.not_ended_of_early (by simp [hg, Ascent.stage])
  have hstep : Step setup G w (w.update name ((w name).closed setup name)) :=
    .close hnames hg hcomplete
  have hself : w.update name ((w name).closed setup name) name = (w name).closed setup name :=
    update_self
  have hnear' : Near name w (w.update name ((w name).closed setup name)) := near_update _ _ _
  have hascent : (w.update name ((w name).closed setup name) name).ascent = .reporting := by
    rw [hself]; simp [Cell.closed, hp]
  have hexchange : (w.update name ((w name).closed setup name) name).exchange
      = (w name).exchange := by rw [hself]; rfl
  have hflight := flight_close valid hnames hg
  have hbooked := booked_close valid hnames hg
  simp only [Normalizer.advance, hview, hcomplete, if_true, hparent,
    Problem.toOwner_eq (valid.mem_names hp).1, Except.map, takeStep_nil]
  refine ⟨_, _, _, rfl, ⟨hnamed, hstarted, ?_, ?_⟩, .of_quiet (.single hstep) hnear' hopen ?_ ?_
    (by simpa using hbooked) (by rw [hexchange]; exact hopen) (by simp)⟩
  · have hrange : (w.update name ((w name).closed setup name) name).range
        = (w name).range.close name (setup.view name) := by rw [hself]; rfl
    exact hrange ▸ hnormalizer.setRange (hnear.trans hnear')
  · refine hsampler.congr valid.wellFormed fun other ho => ?_
    by_cases he : other = name
    · subst he
      exact ⟨by rw [hself]; rfl, by rw [hascent, hg]; simp [Ascent.stage], by rw [hexchange]⟩
    · have := hnear' other he
      exact ⟨this.state, by rw [this.stage], this.stance⟩
  · have hearly : (w.update name ((w name).closed setup name) name).ascent.stage ≠ .normalized := by
      rw [hascent]; simp [Ascent.stage]
    have hpast : (w.update name ((w name).closed setup name) name).ascent ≠ .gathering := by
      rw [hascent]; simp
    exact ((hinv.step valid hstep).sound name hnames).settled_of_early hearly
      ⟨fun hg => absurd hg hpast, by simp [hp]⟩
  · simpa [hp, hself, Cell.closed] using hflight

/-- The root that has every report fixes the divisor, takes it and starts to sample. -/
theorem advance_dividing (hp : setup.parent name = none) (hg : (w name).ascent = .gathering)
    (hcomplete : (w name).range.isComplete (setup.view name) = true) :
    ∃ next sent w', a.takeStep setup.problem
        (a.normalizer.advance setup.problem name (w name).range) = (next, .ok sent) ∧
      next.Shows setup w' agent ∧ Handled setup G w agent name 0 sent w' := by
  have hnames := Problem.mem_names_of_owner hn
  have hsound := hinv.sound name hnames
  have hview : (w name).range.view = some (setup.view name) := by rw [hsound.view, hg]; rfl
  have hparent : (setup.view name).parent = none := hp
  have hopen := hsound.not_ended_of_early (by simp [hg, Ascent.stage])
  have hstep : Step setup G w (w.update name ((w name).closed setup name)) :=
    .close hnames hg hcomplete
  have hself : w.update name ((w name).closed setup name) name = (w name).closed setup name :=
    update_self
  have hnear' : Near name w (w.update name ((w name).closed setup name)) := near_update _ _ _
  have hascent : (w.update name ((w name).closed setup name) name).ascent
      = .dividing ((w name).range.close name (setup.view name)).divisor := by
    rw [hself]; simp [Cell.closed, hp]
  obtain ⟨next, sent, w', hnormalized, hshows, hfinal, hhandled⟩ := hsampler.onNormalized valid
    (hinv.step valid hstep) hn hnear' (by rw [hself]; rfl) (by simp [hg, Ascent.stage]) hopen
    hascent
  have hrange : (w.update name ((w name).closed setup name) name).range
      = (w name).range.close name (setup.view name) := by rw [hself]; rfl
  rw [hrange] at hnormalized hfinal
  have hclosed : ((w name).range.close name (setup.view name)).view = some (setup.view name) :=
    hview
  have hdone : ((w name).range.close name (setup.view name)).done = false := by
    simp [Range.close, hsound.done, hg, Ascent.stage]
  have hsubstitute : (a.normalizer.setRange name
      ((w name).range.close name (setup.view name))).substitute = setup.substitute :=
    hnormalizer.substitute
  simp only [Normalizer.advance, hview, hcomplete, if_true, hparent]
  rw [Normalizer.applyDivisor_eq hsubstitute hclosed hdone
    fun child hc => valid.mem_names_of_child hc, takeStep_singleton hnormalized]
  refine ⟨_, _, w', rfl, ⟨hnamed, hstarted, ?_, hshows⟩, ?_⟩
  · rw [← hfinal, Normalizer.setRange_setRange]
    exact hnormalizer.setRange (hnear.trans (hnear'.trans hhandled.near))
  · rw [hp] at hhandled
    have hflight := flight_close valid hnames hg
    rw [hp] at hflight
    exact hhandled.after [] (.single hstep) hnear' hopen (by simpa using hflight)
      (by simpa using booked_close valid hnames hg) (by simp)

/-- A variable that has taken in a view or a report goes on as far as it can. -/
theorem advances (ha : (w name).ascent = .unseen ∨ (w name).ascent = .gathering) :
    ∃ next sent w', a.takeStep setup.problem
        (a.normalizer.advance setup.problem name (w name).range) = (next, .ok sent) ∧
      next.Shows setup w' agent ∧ Handled setup G w agent name 0 sent w' := by
  by_cases hc : (w name).ascent = .gathering ∧
      (w name).range.isComplete (setup.view name) = true
  · cases hp : setup.parent name with
    | some parent =>
      exact advance_reporting hnamed hstarted hnormalizer hsampler valid hinv hn hnear hp hc.1 hc.2
    | none =>
      exact advance_dividing hnamed hstarted hnormalizer hsampler valid hinv hn hnear hp hc.1 hc.2
  · refine advance_waiting hnamed hstarted hnormalizer hsampler hinv hn hnear ha fun hg => ?_
    simpa using fun hcomplete => hc ⟨hg, hcomplete⟩

end Advance

end Agent

namespace Agent.Shows

variable {setup : Setup K} {w : World K} {agent name : String} {a : Agent K G}

theorem onView (h : a.Shows setup w agent) (valid : setup.Valid) (hinv : w.Inv setup)
    (hn : setup.problem.owner? name = some agent) (ha : (w name).ascent = .unseen) :
    ∃ next sent w', a.onView setup.problem name (setup.view name) = (next, .ok sent) ∧
      next.Shows setup w' agent ∧ Handled setup G w agent name
        {⟨setup.problem.address name, .view name (setup.view name)⟩} sent w' := by
  have hnames := Problem.mem_names_of_owner hn
  have hsound := hinv.sound name hnames
  have hs : (w name).ascent.stage = .unseen := by rw [ha]; rfl
  have hidle := hinv.idle_of_unseen valid hnames ha
  have hstep : Step setup G w (w.update name ((w name).seen setup name)) := .see hnames ha
  have hself : w.update name ((w name).seen setup name) name = (w name).seen setup name :=
    update_self
  have hnear : Near name w (w.update name ((w name).seen setup name)) := near_update _ _ _
  have hstate : (w name).state = setup.registered name := by
    rw [hsound.registered (by simp [hs]), hidle]
    rfl
  have hregister := h.sampler.register_eq hn hs
  rw [← hstate] at hregister
  have hsampler : Sampler.Shows setup (w.update name ((w name).seen setup name)) agent
      { a.sampler with states := a.sampler.states.insert name (w name).state } := by
    have hregistered := h.sampler.register hnear (by rw [hself]; simp [Cell.seen, Ascent.stage])
      (by rw [hself]; rfl)
    rw [hself] at hregistered
    exact hregistered
  have hview : (w name).range.view = none := by rw [hsound.view, if_pos hs]
  have hnormalizer : a.normalizer.handle setup.problem (.view name (setup.view name))
      = a.normalizer.advance setup.problem name
          (w.update name ((w name).seen setup name) name).range := by
    simp only [Normalizer.handle, Normalizer.onView, h.normalizer.ownershipError?_eq_none hn,
      h.normalizer.ranges name hn, hview, Setup.domain?_eq hnames, h.normalizer.substitute, hself]
    rfl
  simp only [Agent.onView, hregister, hnormalizer]
  obtain ⟨next, sent, w', hstep', hshows, hhandled⟩ := Agent.advances
    (a := { a with sampler := { a.sampler with
      states := a.sampler.states.insert name (w name).state } })
    h.named h.started h.normalizer hsampler valid (hinv.step valid hstep) hn hnear (by
      rw [hself]; exact .inr rfl)
  refine ⟨next, sent, w', hstep', hshows, ?_⟩
  exact hhandled.after [] (.single hstep) hnear (by simp [hidle, Exchange.stance])
    (by simpa using flight_see valid hnames ha)
    (by simpa [Message.credit, Message.debit] using booked_see valid hnames ha) (by simp)

theorem onRange (h : a.Shows setup w agent) (valid : setup.Valid) (hinv : w.Inv setup)
    {child : String} (hn : setup.problem.owner? name = some agent)
    (hp : setup.parent child = some name) (ha : (w child).ascent = .reporting) :
    ∃ next sent w', a.takeStep setup.problem (a.normalizer.handle setup.problem
        (.range (Normalizer.reportTo name (w child).range))) = (next, .ok sent) ∧
      next.Shows setup w' agent ∧ Handled setup G w agent name
        {⟨setup.problem.address name, .range (Normalizer.reportTo name (w child).range)⟩} sent
        w' := by
  have hstep : Step setup G w (w.tell name child) := .tell hp ha
  have hself : w.tell name child name
      = (w name).told (Normalizer.reportTo name (w child).range) := tell_self
  have hnear : Near name w (w.tell name child) := near_tell ha
  have hgathering := hinv.gathering_of_reporting hp ha
  have hopen := (hinv.sound name (Problem.mem_names_of_owner hn)).not_ended_of_early
    (hinv.early_of_reporting hp ha)
  have hsampler : a.sampler.Shows setup (w.tell name child) agent := by
    refine h.sampler.congr valid.wellFormed fun other _ => ?_
    by_cases he : other = name
    · rw [he, hself]
      exact ⟨rfl, .rfl, rfl⟩
    · exact ⟨(hnear other he).state, by rw [(hnear other he).stage], (hnear other he).stance⟩
  have hnormalizer : a.normalizer.handle setup.problem
      (.range (Normalizer.reportTo name (w child).range))
        = a.normalizer.advance setup.problem name (w.tell name child name).range := by
    have hreceiver : (Normalizer.reportTo name (w child).range).receiver = name := rfl
    simp only [Normalizer.handle, Normalizer.onRange, hreceiver,
      h.normalizer.ownershipError?_eq_none hn, h.normalizer.ranges name hn, hself, Cell.told]
  obtain ⟨next, sent, w', hstep', hshows, hhandled⟩ := Agent.advances h.named h.started
    h.normalizer hsampler valid (hinv.step valid hstep) hn hnear (by rw [hself]; exact hgathering)
  refine ⟨next, sent, w', by rw [hnormalizer, hstep'], hshows, ?_⟩
  exact hhandled.after [] (.single hstep) hnear hopen
    (by simpa using flight_tell valid hinv hp ha)
    (by simpa [Message.credit, Message.debit, Normalizer.reportTo] using booked_tell valid hp ha)
    (by simp)

theorem onDivisor (h : a.Shows setup w agent) (valid : setup.Valid) (hinv : w.Inv setup)
    (hn : setup.problem.owner? name = some agent) (hp : setup.parent name ≠ none) {divisor : K}
    (ha : (w name).ascent = .dividing divisor) :
    ∃ next sent w', a.takeStep setup.problem (a.normalizer.handle setup.problem
        (.divisor name divisor)) = (next, .ok sent) ∧
      next.Shows setup w' agent ∧ Handled setup G w agent name
        {⟨setup.problem.address name, .divisor name divisor⟩} sent w' := by
  have hsound := hinv.sound name (Problem.mem_names_of_owner hn)
  have hview : (w name).range.view = some (setup.view name) := by
    rw [hsound.view, ha]
    rfl
  have hranges := h.normalizer.getElem?_eq hn hview
  have hdone : (w name).range.done = false := by simp [hsound.done, ha, Ascent.stage]
  have hopen := hsound.not_ended_of_early (by simp [ha, Ascent.stage])
  obtain ⟨next, sent, w', hnormalized, hshows, hrange, hhandled⟩ := h.sampler.onNormalized valid
    hinv hn (.refl _ _) rfl (by simp [ha, Ascent.stage]) hopen ha
  rw [if_pos (Option.isSome_iff_ne_none.mpr hp)] at hhandled
  simp only [Normalizer.handle, Normalizer.onDivisor, h.normalizer.ownershipError?_eq_none hn,
    hranges]
  rw [Normalizer.applyDivisor_eq h.normalizer.substitute hview hdone
    fun child hc => valid.mem_names_of_child hc, Agent.takeStep_singleton hnormalized]
  refine ⟨_, _, w', rfl, ⟨h.named, h.started, ?_, hshows⟩, hhandled⟩
  rw [← hrange]
  exact h.normalizer.setRange hhandled.near

omit [Generator G] in
theorem of_sampler (h : a.Shows setup w agent) {w' : World K} {next : Sampler K G}
    (hnear : Near name w w') (hrange : (w' name).range = (w name).range)
    (hnext : next.Shows setup w' agent) :
    Agent.Shows setup w' agent { a with sampler := next } := by
  refine ⟨h.named, h.started, h.normalizer.congr fun other _ => ?_, hnext⟩
  by_cases he : other = name
  · rw [he, hrange]
  · exact (hnear other he).range

theorem handle (h : a.Shows setup w agent) (valid : setup.Valid) (hinv : w.Inv setup)
    (hsettled : (w name).Settled setup name) (hn : setup.problem.owner? name = some agent)
    {outgoing : Outgoing K} (hsends : w.Sends setup name outgoing) :
    ∃ next sent w', a.handle setup.problem outgoing.message = (next, .ok sent) ∧
      next.Shows setup w' agent ∧ Handled setup G w agent name {outgoing} sent w' := by
  cases hsends with
  | view ha =>
    simp only [Agent.handle, h.started, if_true, Agent.receive]
    exact h.onView valid hinv hn ha
  | range hp ha =>
    simp only [Agent.handle, h.started, if_true, Agent.receive]
    exact h.onRange valid hinv hn hp ha
  | divisor hp ha =>
    simp only [Agent.handle, h.started, if_true, Agent.receive]
    exact h.onDivisor valid hinv hn hp ha
  | context hx =>
    obtain ⟨next, sent, w', hhandle, hshows, hrange, hhandled⟩ :=
      h.sampler.onContext valid hinv hsettled hn hx
    simp only [Agent.handle, h.started, if_true, Agent.receive, hhandle]
    exact ⟨_, sent, w', rfl, h.started ▸ h.of_sampler hhandled.near hrange hshows, hhandled⟩
  | cost hp hx =>
    obtain ⟨next, sent, w', hhandle, hshows, hrange, hhandled⟩ :=
      h.sampler.onCost valid hinv hn hp hx
    simp only [Agent.handle, h.started, if_true, Agent.receive, hhandle]
    exact ⟨_, sent, w', rfl, h.started ▸ h.of_sampler hhandled.near hrange hshows, hhandled⟩

end Agent.Shows

end DcopSearch
