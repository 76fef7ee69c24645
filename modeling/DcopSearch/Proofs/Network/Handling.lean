import DcopSearch.Proofs.Network.Shows
import DcopSearch.Proofs.Protocol.Books

/-! An agent that handles a message takes steps of the world.  The message is taken in, which changes
one variable and enters it in the books; what this variable sends in answer is what comes under way,
and results besides when it terminates. -/

namespace DcopSearch

open CostArithmetic Outgoing

variable {K G : Type} [CostArithmetic K] [Generator G]

namespace World

/-- What is reported when a variable has terminated, together with the news that its agent has
finished if this was the last one. -/
def Announces (setup : Setup K) (w : World K) (agent name : String)
    (results : List (Outgoing K)) : Prop :=
  (w name).exchange.stance ≠ .ended ∧ results = [] ∨
  (w name).exchange.stance = .ended ∧ ∃ news,
    results = (w name).state.results setup.config.delta ++ news ∧
      (w.Through setup agent ∧ news = [⟨.orchestrator, .agentFinished agent⟩] ∨
        ¬w.Through setup agent ∧ news = [])

/-- The messages `taken` were handled for a variable of an agent, which sent `sent`. -/
structure Handled (setup : Setup K) (G : Type) [Generator G] (w : World K) (agent name : String)
    (taken : Multiset (Outgoing K)) (sent : List (Outgoing K)) (w' : World K) : Prop where
  steps : Steps setup G w w'
  near : Near name w w'
  opened : (w name).exchange.stance ≠ .ended
  settled : (w' name).Settled setup name
  sends : ∃ letters results, sent = letters ++ results ∧
    w'.flight setup + taken = w.flight setup + ↑letters ∧ w'.Announces setup agent name results
  booked : w'.booked setup + debits taken = w.booked setup + credits taken
  /-- A cost that is sent is the answer of the variable to its parent. -/
  costs : ∀ destination receiver cost, ⟨destination, .cost receiver cost⟩ ∈ sent →
    setup.parent name = some receiver ∧ (w' name).exchange = .answered cost

variable {setup : Setup K} {w₀ w w' : World K} {agent name : String}

/-- Steps that lead to a world in which the variable goes on.  What comes under way `between` is taken
in again. -/
theorem Handled.after {taken between : Multiset (Outgoing K)} {sent : List (Outgoing K)}
    (h : Handled setup G w agent name between sent w') (letters : List (Outgoing K))
    (hsteps : Steps setup G w₀ w)
    (hnear : Near name w₀ w) (hopen : (w₀ name).exchange.stance ≠ .ended)
    (hflight : w.flight setup + taken = w₀.flight setup + (↑letters + between))
    (hbooked : w.booked setup + debits taken + credits between
      = w₀.booked setup + credits taken + debits between)
    (hcosts : ∀ destination receiver cost, ⟨destination, .cost receiver cost⟩ ∉ letters) :
    Handled setup G w₀ agent name taken (letters ++ sent) w' := by
  refine ⟨hsteps.trans h.steps, hnear.trans h.near, hopen, h.settled, ?_, ?_,
    fun destination receiver cost hm => ?_⟩
  · obtain ⟨later, results, rfl, hlater, hresults⟩ := h.sends
    refine ⟨letters ++ later, results, by rw [List.append_assoc], ?_, hresults⟩
    refine add_right_cancel (b := between) ?_
    calc w'.flight setup + taken + between = w'.flight setup + between + taken := by ac_rfl
      _ = w.flight setup + taken + ↑later := by rw [hlater]; ac_rfl
      _ = w₀.flight setup + ↑(letters ++ later) + between := by
          rw [hflight, ← Multiset.coe_add]; ac_rfl
  · refine add_right_cancel (b := debits between) ?_
    rw [add_right_comm, h.booked, add_right_comm, hbooked]
  · rcases List.mem_append.mp hm with hm | hm
    · exact absurd hm (hcosts destination receiver cost)
    · exact h.costs destination receiver cost hm

theorem Handled.of_quiet {taken : Multiset (Outgoing K)} {letters : List (Outgoing K)}
    (hsteps : Steps setup G w w') (hnear : Near name w w')
    (hopen : (w name).exchange.stance ≠ .ended) (hsettled : (w' name).Settled setup name)
    (hflight : w'.flight setup + taken = w.flight setup + ↑letters)
    (hbooked : w'.booked setup + debits taken = w.booked setup + credits taken)
    (hwaits : (w' name).exchange.stance ≠ .ended)
    (hcosts : ∀ destination receiver cost, ⟨destination, .cost receiver cost⟩ ∉ letters) :
    Handled setup G w agent name taken letters w' :=
  ⟨hsteps, hnear, hopen, hsettled, ⟨letters, [], by simp, hflight, .inl ⟨hwaits, rfl⟩⟩, hbooked,
    fun destination receiver cost hm => absurd hm (hcosts destination receiver cost)⟩

end World

theorem SamplingState.cost_not_mem_results (s : SamplingState K) (delta : K)
    (destination : Destination) (receiver : String) (cost : Option K) :
    ⟨destination, .cost receiver cost⟩ ∉ s.results delta := by
  intro hm
  rcases List.mem_cons.mp hm with hm | hm
  · simp at hm
  · split at hm
    · obtain ⟨bound, _, hb⟩ := List.mem_map.mp hm
      simp at hb
    · simp at hm

omit [CostArithmetic K] in
theorem SamplingState.cost_not_mem_asks (s : SamplingState K) (problem : Problem K) (final : Bool)
    (destination : Destination) (receiver : String) (cost : Option K) :
    ⟨destination, .cost receiver cost⟩ ∉ s.asks problem final := by
  intro hm
  obtain ⟨child, _, hc⟩ := List.mem_map.mp hm
  simp at hc

omit [CostArithmetic K] in
theorem Setup.cost_not_mem_divisors (setup : Setup K) (name : String) (divisor : K)
    (destination : Destination) (receiver : String) (cost : Option K) :
    (⟨destination, .cost receiver cost⟩ : Outgoing K) ∉ (setup.children name).map fun child =>
      ⟨setup.problem.address child, .divisor child divisor⟩ := by
  intro hm
  obtain ⟨child, _, hc⟩ := List.mem_map.mp hm
  simp at hc

/-- After its act a variable can do nothing before a message comes. -/
theorem Cell.Sound.settled_of_act {setup : Setup K} {name : String} {c : Cell K} {act : Act K}
    {final : Bool} {t : SamplingState K} (h : (c.acting act final t).Sound setup name)
    (hstage : c.ascent.stage = .normalized) (hround : t.round = .empty) :
    (c.acting act final t).Settled setup name := by
  refine ⟨fun hg => ?_, fun _ => by simp [Cell.acting, hstage], ?_, fun f hb => ?_⟩
  · have hg : c.ascent = .gathering := hg
    simp [hg, Ascent.stage] at hstage
  · cases act <;> simp [Cell.acting, Act.exchange]
  · have hbusy := h.of_busy hb
    rw [show (c.acting act final t).state.round = .empty from hround]
    exact List.length_pos_iff.mpr hbusy.nonleaf

/-- A variable announces its results just when it has finished. -/
theorem World.Announces.of_act {setup : Setup K} {w : World K} {agent name : String} {act : Act K}
    {t : SamplingState K} {news : List (Outgoing K)} (hstate : (w name).state = t)
    (hover : (w name).exchange.stance = .ended ↔ act.isFinish = true)
    (hnews : act.isFinish = true ∧ w.Through setup agent ∧
        news = [⟨.orchestrator, .agentFinished agent⟩] ∨
      ¬(act.isFinish = true ∧ w.Through setup agent) ∧ news = []) :
    w.Announces setup agent name (act.results setup.config.delta t ++ news) := by
  cases act with
  | finish =>
    refine .inr ⟨hover.mpr rfl, news, by rw [hstate]; rfl, ?_⟩
    rcases hnews with ⟨-, hthrough, hfinished⟩ | ⟨hopen, hempty⟩
    · exact .inl ⟨hthrough, hfinished⟩
    · exact .inr ⟨fun hthrough => hopen ⟨rfl, hthrough⟩, hempty⟩
  | report | sample =>
    rcases hnews with ⟨hfinish, -⟩ | ⟨-, rfl⟩
    · cases hfinish
    · exact .inl ⟨fun hended => Bool.false_ne_true (hover.mp hended), rfl⟩

/-- A cost is sent in a report to the parent only. -/
theorem Act.report_of_cost_mem {problem : Problem K} {delta : K} {t : SamplingState K} {act : Act K}
    {destination : Destination} {receiver : String} {cost : Option K}
    (hm : ⟨destination, .cost receiver cost⟩ ∈ act.messages problem delta t) :
    act = .report cost ∧ t.parent = some receiver := by
  cases act with
  | report c =>
    obtain ⟨parent, hparent, he⟩ := List.mem_map.mp hm
    obtain ⟨rfl, rfl⟩ : parent = receiver ∧ c = cost := by
      simpa using (Outgoing.mk.inj he).2
    exact ⟨rfl, Option.mem_toList.mp hparent⟩
  | sample => exact absurd hm (SamplingState.cost_not_mem_asks _ _ _ _ _ _)
  | finish =>
    rcases List.mem_append.mp hm with hm | hm
    · exact absurd hm (SamplingState.cost_not_mem_asks _ _ _ _ _ _)
    · exact absurd hm (SamplingState.cost_not_mem_results _ _ _ _ _)

namespace Sampler.Shows

open World

variable {setup : Setup K} {w₀ w : World K} {agent name : String} {sampler : Sampler K G}

theorem act (h : sampler.Shows setup w₀ agent) (valid : setup.Valid) (hinv : w.Inv setup)
    (hn : setup.problem.owner? name = some agent) (hnear : Near name w₀ w)
    (hopen : (w₀ name).exchange.stance ≠ .ended) {final : Bool} {act : Act K}
    {reaction : Reaction K G}
    (hx : (w name).exchange = .poised final ∨ (w name).exchange = .busy final)
    (hidle : ∀ child ∈ setup.children name, (w child).exchange = .idle)
    (hstage : (w name).ascent.stage = .normalized)
    (hacts : reaction.Acts setup.problem setup.config.delta (w name).state.settled final act)
    (hstep : Step setup G w (w.act setup name act final reaction.state)) :
    ∃ next sent, sampler.absorb name reaction = (next, .ok sent) ∧
      next.Shows setup (w.act setup name act final reaction.state) agent ∧
      Handled setup G w agent name 0 sent (w.act setup name act final reaction.state) := by
  have hnames := Problem.mem_names_of_owner hn
  have hsound := hinv.sound name hnames
  have hnear' : Near name w (w.act setup name act final reaction.state) := near_act hidle
  have hself : w.act setup name act final reaction.state name
      = (w name).acting act final reaction.state := act_self
  have hopen' : (w name).exchange.stance ≠ .ended := by
    rcases hx with hx | hx <;> simp [hx, Exchange.stance]
  have hinv' := hinv.step valid hstep
  have hflight : (w.act setup name act final reaction.state).flight setup
      = w.flight setup + ↑(act.letters setup.problem reaction.state) :=
    flight_act valid hnames hx hidle (hacts.keeps.parent.trans hsound.parent)
      (hacts.keeps.children.trans hsound.children)
  have hover : (w.act setup name act final reaction.state name).exchange.stance = .ended
      ↔ act.isFinish = true := by
    rw [hself]
    cases act <;> simp [Cell.acting, Act.exchange, Exchange.stance, Act.isFinish]
  obtain ⟨next, news, habsorb, hshows, hnews⟩ := h.absorb valid.wellFormed hn
    (hnear.trans hnear') (by rw [hself]; simp [Cell.acting, hstage]) (by rw [hself]; rfl)
    hacts.outcome hopen hover
  have hbooked := booked_act valid hnames hx hidle hacts.leaves
  refine ⟨next, _, habsorb, hshows, .single hstep, hnear', hopen', ?_, ?_, by simp [hbooked], ?_⟩
  · have hsound' := hinv'.sound name hnames
    rw [hself] at hsound' ⊢
    exact hsound'.settled_of_act hstage hacts.keeps.round
  · refine ⟨act.letters setup.problem reaction.state,
      act.results setup.config.delta reaction.state ++ news, ?_, by rw [hflight]; simp, ?_⟩
    · rw [Act.messages_eq, List.append_assoc]
    · exact .of_act (by rw [hself]; rfl) hover hnews
  · intro destination receiver cost hm
    rw [hself]
    rcases List.mem_append.mp hm with hm | hm
    · obtain ⟨rfl, hparent⟩ := Act.report_of_cost_mem hm
      exact ⟨(hacts.keeps.parent.trans hsound.parent).symm.trans hparent, rfl⟩
    · rcases hnews with ⟨_, _, rfl⟩ | ⟨_, rfl⟩ <;> simp at hm

theorem answers (h : sampler.Shows setup w₀ agent) (valid : setup.Valid) (hinv : w.Inv setup)
    (hn : setup.problem.owner? name = some agent) (hnear : Near name w₀ w)
    (hopen : (w₀ name).exchange.stance ≠ .ended) {final : Bool}
    (hx : (w name).exchange = .poised final) (generator : G) :
    ∃ next sent w', sampler.absorb name
        ((w name).state.answers sampler.settings setup.problem generator final)
          = (next, .ok sent) ∧
      next.Shows setup w' agent ∧ Handled setup G w agent name 0 sent w' := by
  have hnames := Problem.mem_names_of_owner hn
  have hsound := hinv.sound name hnames
  obtain ⟨hworking, hquiet⟩ := hsound.of_poised hx
  have hsettings := h.settings_eq hn
  obtain ⟨act, hacts⟩ := (hsound.sampling hworking.stage).answers valid.wellFormed
    hworking.informed final (fun hp => hworking.root (hsound.parent ▸ hp)) (setup.settings name)
    generator
  have hsettled : (w name).state.settled = (w name).state := by
    rw [SamplingState.settled, ← hquiet.round]
  obtain ⟨next, sent, habsorb, hshows, hhandled⟩ := h.act valid hinv hn hnear hopen (.inl hx)
    (fun child hc => hinv.child_idle valid (by simp [hx, Exchange.stance]) hc) hworking.stage
    (hsettled.symm ▸ hacts) (.answer generator hnames hx hacts)
  exact ⟨next, sent, _, hsettings ▸ habsorb, hshows, hhandled⟩

theorem joins (h : sampler.Shows setup w₀ agent) (valid : setup.Valid) (hinv : w.Inv setup)
    (hn : setup.problem.owner? name = some agent) (hnear : Near name w₀ w)
    (hopen : (w₀ name).exchange.stance ≠ .ended) {final : Bool}
    (hx : (w name).exchange = .busy final)
    (hround : (w name).state.round.received = (setup.children name).length) (generator : G) :
    ∃ next sent w', sampler.absorb name ((w name).state.settled.joins sampler.settings
        setup.problem generator (w name).state.round) = (next, .ok sent) ∧
      next.Shows setup w' agent ∧ Handled setup G w agent name 0 sent w' := by
  have hnames := Problem.mem_names_of_owner hn
  have hsound := hinv.sound name hnames
  have hbusy := hsound.of_busy hx
  have hsettings := h.settings_eq hn
  have hleaf : (w name).state.settled.isLeaf = false := by
    have : (w name).state.children ≠ [] := hsound.children ▸ hbusy.nonleaf
    simpa [SamplingState.isLeaf, SamplingState.settled] using this
  have hstate : (w name).state.settled.Sound setup.problem :=
    (hsound.sampling hbusy.stage).setPhase _ _ _
  obtain ⟨act, hacts⟩ := hstate.joins hbusy.informed hleaf
    (fun hp => hbusy.parentFinished.trans (hbusy.root (hsound.parent ▸ hp))) hbusy.current
    hbusy.active (setup.settings name) generator (w name).state.round
  have hacts : ((w name).state.settled.joins (setup.settings name) setup.problem generator
      (w name).state.round).Acts setup.problem setup.config.delta (w name).state.settled final
        act := hbusy.parentFinished ▸ hacts
  obtain ⟨next, sent, habsorb, hshows, hhandled⟩ := h.act valid hinv hn hnear hopen (.inr hx)
    (hinv.idle_of_received hnames hx hround) hbusy.stage hacts
    (.join generator hnames hx hround hacts)
  exact ⟨next, sent, _, hsettings ▸ habsorb, hshows, hhandled⟩

theorem waits (h : sampler.Shows setup w agent) (valid : setup.Valid)
    (hn : setup.problem.owner? name = some agent) {w' : World K} (hnear : Near name w w')
    (hstage : (w' name).ascent.stage ≠ .unseen) (hopen : (w name).exchange.stance ≠ .ended)
    (hwaits : (w' name).exchange.stance ≠ .ended) (generator : G) :
    ∃ next, sampler.absorb name ((w' name).state.sends generator (.ok [])) = (next, .ok []) ∧
      next.Shows setup w' agent := by
  have hstate : (w' name).state = ((w' name).state.sends generator (.ok [])).state := rfl
  have hout : ((w' name).state.sends generator (.ok [])).outcome
      = .ok { messages := [], terminated := false } := rfl
  obtain ⟨next, news, habsorb, hshows, hnews⟩ := h.absorb valid.wellFormed hn hnear hstage hstate
    hout hopen (by simp [hwaits])
  obtain rfl : news = [] := by
    rcases hnews with ⟨ht, _⟩ | ⟨_, hempty⟩
    · cases ht
    · exact hempty
  exact ⟨next, habsorb, hshows⟩

theorem onCost (h : sampler.Shows setup w agent) (valid : setup.Valid) (hinv : w.Inv setup)
    {child : String} (hn : setup.problem.owner? name = some agent)
    (hp : setup.parent child = some name) {cost : Option K}
    (hx : (w child).exchange = .answered cost) :
    ∃ next sent w', sampler.handle setup.problem (.cost name cost) = (next, .ok sent) ∧
      next.Shows setup w' agent ∧ (w' name).range = (w name).range ∧
      Handled setup G w agent name {⟨setup.problem.address name, .cost name cost⟩} sent w' := by
  have hnames := Problem.mem_names_of_owner hn
  obtain ⟨final, hb, hbusy⟩ := hinv.busy_of_answered valid hp hx
  have hsound := hinv.sound name hnames
  have hopen : (w name).exchange.stance ≠ .ended := by simp [hb, Exchange.stance]
  have hstep : Step setup G w (w.count name child cost) := .count hp hx
  have hinv' := hinv.step valid hstep
  have hnear : Near name w (w.count name child cost) := near_count hx
  have hflight := flight_count valid hp hx
  have hbooked := booked_count valid hp hx
  have hself : w.count name child cost name = (w name).counting cost := count_self
  have hb' : (w.count name child cost name).exchange = .busy final := by rw [hself]; exact hb
  have hlookup := h.getElem?_eq hn (by simp [hbusy.stage])
  have hguard : ¬((w name).state.phase ≠ .sampling ∨ (w name).state.isLeaf = true) := by
    rw [not_or, not_not]
    refine ⟨hbusy.phase, ?_⟩
    have : (w name).state.children ≠ [] := hsound.children ▸ hbusy.nonleaf
    simpa [SamplingState.isLeaf] using this
  simp only [Sampler.handle, Sampler.react, hlookup, SamplingState.onCost, if_neg hguard]
  have hlength : (w name).state.children = setup.children name := hsound.children
  split
  next hlt =>
    obtain ⟨next, habsorb, hshows⟩ := h.waits valid hn hnear
      (by rw [hself]; simp [Cell.counting, hbusy.stage]) hopen
      (by simp [hb', Exchange.stance]) sampler.generator
    refine ⟨next, [], _, by rw [← habsorb, hself]; rfl, hshows, by rw [hself]; rfl,
      .of_quiet (.single hstep) hnear hopen ?_ (by simpa using hflight)
      (by simpa [Message.credit, Message.debit] using hbooked) (by simp [hb', Exchange.stance])
      (by simp)⟩
    refine ⟨fun hg => ?_, fun _ => ?_, by simp [hb'], fun f _ => ?_⟩
    · rw [hself] at hg
      have hg : (w name).ascent = .gathering := hg
      exact absurd hbusy.stage (by simp [hg, Ascent.stage])
    · rw [hself]; simp [Cell.counting, hbusy.stage]
    · rw [hself, ← hlength]; exact hlt
  next hle =>
    -- no child has reported twice, so that the round is complete and no more than that
    have hround : (w.count name child cost name).state.round.received
        = (setup.children name).length := by
      refine Nat.le_antisymm ?_ ?_
      · rw [(hinv'.counts name hnames).busy (by simp [hb', Exchange.stance])]
        exact List.countP_le_length
      · rw [hself, ← hlength]
        exact Nat.not_lt.mp hle
    obtain ⟨next, sent, w', habsorb, hshows, hhandled⟩ := h.joins valid hinv' hn hnear hopen hb'
      hround sampler.generator
    refine ⟨next, sent, w', by rw [← habsorb, hself]; rfl, hshows, ?_, ?_⟩
    · exact (hinv.range_of_steps valid (.head hstep hhandled.steps) hbusy.stage).1
    · simpa using hhandled.after [] (.single hstep) hnear hopen (by simpa using hflight)
        (by simpa [Message.credit, Message.debit] using hbooked) (by simp)

/-- A context that a variable has been asked with is taken over and answered. -/
theorem takes (h : sampler.Shows setup w₀ agent) (valid : setup.Valid) (hinv : w.Inv setup)
    (hn : setup.problem.owner? name = some agent) (hnear : Near name w₀ w)
    (hopen : (w₀ name).exchange.stance ≠ .ended) {context : Context}
    (hx : (w name).exchange = .asked context) (hs : (w name).ascent.stage = .normalized)
    (generator : G) :
    ∃ next sent w', sampler.absorb name
        ((w name).state.takes sampler.settings setup.problem generator context)
          = (next, .ok sent) ∧
      next.Shows setup w' agent ∧ Handled setup G w agent name
        {⟨setup.problem.address name, .context context⟩} sent w' := by
  have hnames := Problem.mem_names_of_owner hn
  have hsound := hinv.sound name hnames
  obtain ⟨parent, hp, hsender, hreceiver, -, -, -, -, -⟩ := hinv.context_of_asked valid hnames hx
  have hstep : Step setup G w (w.update name ((w name).taking context)) := .take hnames hx hs
  have hinv' := hinv.step valid hstep
  have hself : w.update name ((w name).taking context) name = (w name).taking context :=
    update_self
  have hopen' : (w name).exchange.stance ≠ .ended := by simp [hx, Exchange.stance]
  have hbooked := booked_asked ((w name).taking context) valid hnames hp hx rfl (.inr rfl)
  have hpoised : (w.update name ((w name).taking context) name).exchange
      = .poised context.final := by
    rw [hself]; rfl
  obtain ⟨next, sent, w', habsorb, hshows, hhandled⟩ := h.answers valid hinv' hn
    (hnear.trans (near_update _ _ _)) hopen hpoised generator
  refine ⟨next, sent, w', ?_, hshows, ?_⟩
  · rw [← habsorb, hself, SamplingState.takes, if_pos]
    · rfl
    · rw [hsender, hsound.parent, hp]
  · simpa using hhandled.after [] (.single hstep) (near_update _ _ _) hopen'
      (by simpa using flight_take valid hnames hx)
      (by simpa [Message.credit, Message.debit, hsender, hreceiver] using hbooked) (by simp)

theorem onContext (h : sampler.Shows setup w agent) (valid : setup.Valid) (hinv : w.Inv setup)
    (hsettled : (w name).Settled setup name) (hn : setup.problem.owner? name = some agent)
    {context : Context} (hx : (w name).exchange = .asked context) :
    ∃ next sent w', sampler.handle setup.problem (.context context) = (next, .ok sent) ∧
      next.Shows setup w' agent ∧ (w' name).range = (w name).range ∧
      Handled setup G w agent name {⟨setup.problem.address name, .context context⟩} sent w' := by
  have hnames := Problem.mem_names_of_owner hn
  have hsound := hinv.sound name hnames
  obtain ⟨parent, hp, hsender, hreceiver, -⟩ := hinv.context_of_asked valid hnames hx
  have hwaiting := (hsound.of_asked hx).1
  have hopen : (w name).exchange.stance ≠ .ended := by simp [hx, Exchange.stance]
  have hseen : (w name).ascent.stage ≠ .unseen := by
    rcases hinv.ascent_of_asked valid hnames hx with ⟨divisor, ha⟩ | ha <;> simp [ha, Ascent.stage]
  have hlookup := h.getElem?_eq hn hseen
  simp only [Sampler.handle, Sampler.react, hreceiver, hlookup]
  by_cases hs : (w name).ascent.stage = .normalized
  · obtain ⟨next, sent, w', habsorb, hshows, hhandled⟩ := h.takes valid hinv hn (.refl _ _) hopen hx
      hs sampler.generator
    refine ⟨next, sent, w', ?_, hshows, (hinv.range_of_steps valid hhandled.steps hs).1, hhandled⟩
    rw [← habsorb]
    rcases hwaiting.phase hs with hphase | hphase <;> simp [SamplingState.onContext, hphase]
  · have hstep : Step setup G w (w.update name ((w name).keeping context)) := .keep hnames hx hs
    have hself : w.update name ((w name).keeping context) name = (w name).keeping context :=
      update_self
    have hbooked := booked_asked ((w name).keeping context) valid hnames hp hx rfl (.inl rfl)
    have hphase : (w name).state.phase = .awaitingNormalization none := by
      rw [hsound.registered hs, hx]
      rfl
    obtain ⟨next, habsorb, hshows⟩ := h.waits valid hn (near_update w name ((w name).keeping context))
      (by rw [hself]; exact hseen) hopen (by rw [hself]; simp [Cell.keeping, Exchange.stance])
      sampler.generator
    refine ⟨next, [], _, ?_, hshows, by rw [hself]; rfl, .of_quiet (.single hstep)
      (near_update _ _ _) hopen ?_ (by simpa using flight_keep valid hnames hx)
      (by simpa [Message.credit, Message.debit, hsender, hreceiver] using hbooked)
      (by rw [hself]; simp [Cell.keeping, Exchange.stance]) (by simp)⟩
    · rw [← habsorb, hself]
      simp only [SamplingState.onContext, hphase]
      rfl
    · rw [hself]
      exact ⟨hsettled.gathering, hsettled.root, by simp [Cell.keeping], by simp [Cell.keeping]⟩

end Sampler.Shows

section

open World

variable {setup : Setup K} {w : World K} {name parent : String} {c : Cell K} {divisor : K}

theorem Cell.Sound.onNormalized_root (h : c.Sound setup name) (hs : c.ascent.stage ≠ .normalized)
    (hp : setup.parent name = none) (generator : G) :
    c.state.onNormalized (setup.settings name) setup.problem generator
        ((c.range.rescale setup.substitute divisor).normalized name divisor)
      = (c.normalized setup name divisor).state.answers (setup.settings name) setup.problem generator
          true := by
  have hroot : c.state.parent = none := h.parent.trans hp
  have hphase : c.state.phase = .awaitingNormalization c.exchange.buffered := by rw [h.registered hs]
  simp only [SamplingState.onNormalized, hphase, Cell.normalized, hp, SamplingState.isRoot,
    SamplingState.prepare, hroot]
  rfl

theorem Cell.Sound.onNormalized_child (h : c.Sound setup name) (hs : c.ascent.stage ≠ .normalized)
    (hp : setup.parent name = some parent) (generator : G) :
    c.state.onNormalized (setup.settings name) setup.problem generator
        ((c.range.rescale setup.substitute divisor).normalized name divisor)
      = c.exchange.buffered.elim ((c.normalized setup name divisor).state.sends generator (.ok []))
          ((c.normalized setup name divisor).state.takes (setup.settings name) setup.problem
            generator) := by
  have hchild : c.state.parent = some parent := h.parent.trans hp
  have hphase : c.state.phase = .awaitingNormalization c.exchange.buffered := by rw [h.registered hs]
  simp only [SamplingState.onNormalized, hphase, Cell.normalized, hp, SamplingState.isRoot,
    SamplingState.prepare, hchild]
  cases c.exchange.buffered <;> rfl

/-- A variable that has kept no context waits for one. -/
theorem Cell.Sound.settled_normalized (h : c.Sound setup name)
    (hs : c.ascent.stage ≠ .normalized) (hp : setup.parent name = some parent)
    (hb : c.exchange.buffered = none) : (c.normalized setup name divisor).Settled setup name := by
  have hx : (c.normalized setup name divisor).exchange = c.exchange := by
    rw [Cell.normalized_child hp, hb]
    rfl
  refine ⟨by simp [Cell.normalized_ascent], by simp [Cell.normalized_ascent, Ascent.stage],
    fun final => ?_, fun final hbusy => ?_⟩
  · rw [hx]
    rcases h.exchange_early hs with he | ⟨context, he | he⟩ <;> simp [he]
  · have hwaiting := (h.waiting_of_early hs).1
    rw [← hx, hbusy] at hwaiting
    cases hwaiting

end

namespace Sampler.Shows

open World

variable {setup : Setup K} {w₀ w : World K} {agent name : String} {sampler : Sampler K G}

section Normalize

variable {divisor : K} (h : sampler.Shows setup w₀ agent) (valid : setup.Valid)
  (hinv : w.Inv setup) (hn : setup.problem.owner? name = some agent) (hnear : Near name w₀ w)
  (hopen : (w₀ name).exchange.stance ≠ .ended) (ha : (w name).ascent = .dividing divisor)

include h valid hinv hn hnear hopen ha

theorem normalizes_root (hp : setup.parent name = none) :
    ∃ next sent w', sampler.absorb name (((w name).normalized setup name divisor).state.answers
        (setup.settings name) setup.problem sampler.generator true) = (next, .ok sent) ∧
      next.Shows setup w' agent ∧ Steps setup G (w.normalize setup name divisor) w' ∧
      Handled setup G w agent name 0
        (((setup.children name).map fun child =>
          ⟨setup.problem.address child, .divisor child divisor⟩) ++ sent) w' := by
  have hnames := Problem.mem_names_of_owner hn
  have hsound := hinv.sound name hnames
  have hclosed : (w name).ascent.stage ≠ .normalized := by simp [ha, Ascent.stage]
  have hstep : Step setup G w (w.normalize setup name divisor) := .normalize hnames ha
  have hnear' := hinv.near_normalize valid ha
  have hflight := flight_normalize valid hinv hnames ha
  have hbooked := booked_normalize valid hinv hnames ha
  have hself : w.normalize setup name divisor name = (w name).normalized setup name divisor :=
    normalize_self
  have hx : (w.normalize setup name divisor name).exchange = .poised true := by
    rw [hself, Cell.normalized_root hp]
  obtain ⟨next, sent, w', habsorb, hshows, hhandled⟩ := h.answers valid (hinv.step valid hstep) hn
    (hnear.trans hnear') hopen hx sampler.generator
  rw [h.settings_eq hn, hself] at habsorb
  refine ⟨next, sent, w', habsorb, hshows, hhandled.steps, hhandled.after _ (.single hstep) hnear'
    (hsound.not_ended_of_early hclosed) ?_ ?_ (setup.cost_not_mem_divisors name divisor)⟩
  · simpa [hp, hsound.idle_of_root hclosed hp, Exchange.buffered] using hflight
  · simpa [hp, hsound.idle_of_root hclosed hp, Exchange.buffered] using hbooked

theorem normalizes_waiting {parent : String} (hp : setup.parent name = some parent)
    (hb : (w name).exchange.buffered = none) :
    ∃ next, sampler.absorb name (((w name).normalized setup name divisor).state.sends
        sampler.generator (.ok [])) = (next, .ok []) ∧
      next.Shows setup (w.normalize setup name divisor) agent ∧
      Handled setup G w agent name {⟨setup.problem.address name, .divisor name divisor⟩}
        ((setup.children name).map fun child =>
          ⟨setup.problem.address child, .divisor child divisor⟩)
        (w.normalize setup name divisor) := by
  have hnames := Problem.mem_names_of_owner hn
  have hsound := hinv.sound name hnames
  have hclosed : (w name).ascent.stage ≠ .normalized := by simp [ha, Ascent.stage]
  have hopen' := hsound.not_ended_of_early hclosed
  have hnear' := hinv.near_normalize valid ha
  have hflight := flight_normalize valid hinv hnames ha
  have hbooked := booked_normalize valid hinv hnames ha
  have hself : w.normalize setup name divisor name = (w name).normalized setup name divisor :=
    normalize_self
  have hx : (w.normalize setup name divisor name).exchange = (w name).exchange := by
    rw [hself, Cell.normalized_child hp, hb]
    rfl
  obtain ⟨next, habsorb, hshows⟩ := h.waits valid hn (hnear.trans hnear')
    (by rw [hself]; simp [Cell.normalized_ascent, Ascent.stage]) hopen (hx ▸ hopen')
    sampler.generator
  rw [hself] at habsorb
  refine ⟨next, habsorb, hshows, .of_quiet (.single (.normalize hnames ha)) hnear' hopen' ?_
    (by simpa [hp, hb] using hflight)
    (by simpa [hp, hb, Message.credit, Message.debit] using hbooked) (hx ▸ hopen')
    (setup.cost_not_mem_divisors name divisor)⟩
  rw [hself]
  exact hsound.settled_normalized hclosed hp hb

theorem normalizes_kept {parent : String} {context : Context}
    (hp : setup.parent name = some parent) (hb : (w name).exchange.buffered = some context) :
    ∃ next sent w', sampler.absorb name (((w name).normalized setup name divisor).state.takes
        (setup.settings name) setup.problem sampler.generator context) = (next, .ok sent) ∧
      next.Shows setup w' agent ∧ Steps setup G (w.normalize setup name divisor) w' ∧
      Handled setup G w agent name {⟨setup.problem.address name, .divisor name divisor⟩}
        (((setup.children name).map fun child =>
          ⟨setup.problem.address child, .divisor child divisor⟩) ++ sent) w' := by
  have hnames := Problem.mem_names_of_owner hn
  have hclosed : (w name).ascent.stage ≠ .normalized := by simp [ha, Ascent.stage]
  have hstep : Step setup G w (w.normalize setup name divisor) := .normalize hnames ha
  have hinv' := hinv.step valid hstep
  have hnear' := hinv.near_normalize valid ha
  have hflight := flight_normalize valid hinv hnames ha
  have hbooked := booked_normalize valid hinv hnames ha
  have hself : w.normalize setup name divisor name = (w name).normalized setup name divisor :=
    normalize_self
  have hx : (w.normalize setup name divisor name).exchange = .asked context := by
    rw [hself, Cell.normalized_child hp, hb]
    rfl
  obtain ⟨next, sent, w', habsorb, hshows, hhandled⟩ := h.takes valid hinv' hn
    (hnear.trans hnear') hopen hx (by rw [hself]; simp [Cell.normalized_ascent, Ascent.stage])
    sampler.generator
  rw [h.settings_eq hn, hself] at habsorb
  refine ⟨next, sent, w', habsorb, hshows, hhandled.steps, hhandled.after _ (.single hstep) hnear'
    ((hinv.sound name hnames).not_ended_of_early hclosed) (by simpa [hp, hb] using hflight) ?_
    (setup.cost_not_mem_divisors name divisor)⟩
  obtain ⟨_, hp', hsender, hreceiver, -⟩ := hinv'.context_of_asked valid hnames hx
  obtain rfl := Option.some.inj (hp.symm.trans hp')
  simpa [hp, hb, Message.credit, Message.debit, hsender, hreceiver] using hbooked

end Normalize

/-- A variable whose divisor is known starts to sample, if it is a root or has kept a context. -/
theorem onNormalized (h : sampler.Shows setup w₀ agent) (valid : setup.Valid) (hinv : w.Inv setup)
    (hn : setup.problem.owner? name = some agent) (hnear : Near name w₀ w)
    (hstate : (w name).state = (w₀ name).state) (hseen : (w₀ name).ascent.stage ≠ .unseen)
    (hopen : (w₀ name).exchange.stance ≠ .ended) {divisor : K}
    (ha : (w name).ascent = .dividing divisor) :
    ∃ next sent w', sampler.onNormalized setup.problem
        (((w name).range.rescale setup.substitute divisor).normalized name divisor)
          = (next, .ok sent) ∧
      next.Shows setup w' agent ∧
      (w' name).range = (w name).range.rescale setup.substitute divisor ∧
      Handled setup G w agent name
        (if (setup.parent name).isSome then {⟨setup.problem.address name, .divisor name divisor⟩}
          else 0)
        (((setup.children name).map fun child =>
          ⟨setup.problem.address child, .divisor child divisor⟩) ++ sent) w' := by
  have hnames := Problem.mem_names_of_owner hn
  have hsound := hinv.sound name hnames
  have hclosed : (w name).ascent.stage ≠ .normalized := by simp [ha, Ascent.stage]
  have hrange : ∀ w', Steps setup G (w.normalize setup name divisor) w' →
      (w' name).range = (w name).range.rescale setup.substitute divisor := by
    intro w' hsteps
    have hstage : (w.normalize setup name divisor name).ascent.stage = .normalized := by
      rw [normalize_self, Cell.normalized_ascent]
      rfl
    have hstep : Step setup G w (w.normalize setup name divisor) := .normalize hnames ha
    rw [((hinv.step valid hstep).range_of_steps valid hsteps hstage).1, normalize_self,
      Cell.normalized_range]
  have hreact : sampler.onNormalized setup.problem
        (((w name).range.rescale setup.substitute divisor).normalized name divisor)
      = sampler.absorb name ((w name).state.onNormalized (setup.settings name) setup.problem
          sampler.generator
          (((w name).range.rescale setup.substitute divisor).normalized name divisor)) := by
    rw [Sampler.onNormalized, Sampler.react, show (((w name).range.rescale setup.substitute
      divisor).normalized name divisor).name = name from rfl, h.getElem?_eq hn hseen, hstate,
      h.settings_eq hn]
  rw [hreact]
  cases hp : setup.parent name with
  | none =>
    rw [hsound.onNormalized_root hclosed hp]
    obtain ⟨next, sent, w', habsorb, hshows, hsteps, hhandled⟩ :=
      h.normalizes_root valid hinv hn hnear hopen ha hp
    exact ⟨next, sent, w', habsorb, hshows, hrange w' hsteps, hhandled⟩
  | some parent =>
    rw [hsound.onNormalized_child hclosed hp]
    cases hb : (w name).exchange.buffered with
    | none =>
      obtain ⟨next, habsorb, hshows, hhandled⟩ :=
        h.normalizes_waiting valid hinv hn hnear hopen ha hp hb
      exact ⟨next, [], _, habsorb, hshows, hrange _ .refl, by rw [List.append_nil]; exact hhandled⟩
    | some context =>
      obtain ⟨next, sent, w', habsorb, hshows, hsteps, hhandled⟩ :=
        h.normalizes_kept valid hinv hn hnear hopen ha hp hb
      exact ⟨next, sent, w', habsorb, hshows, hrange w' hsteps, hhandled⟩

end Sampler.Shows

end DcopSearch
