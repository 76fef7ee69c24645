import DcopSearch.Proofs.Network.Confluence
import DcopSearch.Proofs.Run.Ordered

/-! Both kinds of runs are orders of delivery.  A run that no limit has stopped delivers the starts
first and then everything else; so where every agent owns one variable, all such runs have the same
result. -/

namespace DcopSearch

open World

variable {K G : Type}

namespace Statistics

variable {statistics : Statistics} {messages messages' : List (Outgoing K)}

def recordAll (statistics : Statistics) (messages : List (Outgoing K)) : Statistics :=
  messages.foldl (fun statistics outgoing => statistics.record outgoing.message.kind) statistics

theorem record_comm (statistics : Statistics) (kind other : String) :
    (statistics.record kind).record other = (statistics.record other).record kind := by
  by_cases he : kind = other
  · rw [he]
  · simp only [record, add, count, Std.ExtTreeMap.getElem?_insert, Std.LawfulEqCmp.compare_eq_iff_eq,
      he, Ne.symm he, if_false, insert_comm he]

theorem recordAll_perm (h : messages.Perm messages') :
    statistics.recordAll messages = statistics.recordAll messages' :=
  h.foldl_eq' (fun _ _ _ _ statistics => record_comm statistics _ _) statistics

end Statistics

variable [CostArithmetic K] [Generator G] {setup : Setup K} {w : World K}

/-- The agents after messages that are not answered. -/
def Team.deliverAll (team : Team K G) (messages : List (Outgoing K)) : Team K G :=
  messages.foldl (fun team outgoing => (team.deliver outgoing).1) team

namespace Situation

variable {s next last : Situation K G} {statistics final : Statistics}

/-- Deliveries lead from a situation to another one, and are counted. -/
def Leads (s : Situation K G) (statistics : Statistics) (last : Situation K G) (final : Statistics) :
    Prop :=
  ∃ messages, s.Delivered messages last ∧ final = statistics.recordAll messages

theorem Leads.refl : s.Leads statistics s statistics := ⟨[], .nil, rfl⟩

theorem Leads.head {outgoing : Outgoing K} (hd : s.Delivers outgoing next)
    (h : next.Leads (statistics.record outgoing.message.kind) last final) :
    s.Leads statistics last final := by
  obtain ⟨messages, hdelivered, rfl⟩ := h
  exact ⟨outgoing :: messages, .cons hd hdelivered, rfl⟩

theorem Leads.trans {mid : Situation K G} {counted : Statistics}
    (h : s.Leads statistics mid counted) (h' : mid.Leads counted last final) :
    s.Leads statistics last final := by
  obtain ⟨messages, hdelivered, rfl⟩ := h
  induction hdelivered generalizing statistics with
  | nil => exact h'
  | cons hd _ ih => exact .head hd (ih h')

theorem Leads.shown (h : s.Leads statistics last final) (valid : setup.Valid)
    (hs : s.Shown setup) : last.Shown setup := by
  obtain ⟨messages, hdelivered, -⟩ := h
  induction hdelivered with
  | nil => exact hs
  | cons hd _ ih => exact ih (hs.follows valid hd)

end Situation

namespace Simulation

variable {simulation next final : Simulation K G} {event : Event K} {queue : Timeline K}
  {outOfTime : Nat → Bool} {limit : Nat}

omit [CostArithmetic K] [Generator G] in
theorem situation_of_nil (hq : simulation.queue = []) :
    simulation.network.situation = (simulation.team, 0) := by
  simp [network, Network.situation, hq]

theorem Ordered.follows (h : simulation.Ordered setup w) (valid : setup.Valid)
    (hq : simulation.queue = event :: queue)
    (hnext : Simulation.deliver { simulation with queue } event = .ok next) :
    (∃ w', next.Ordered setup w') ∧
      simulation.network.situation.Delivers event.outgoing next.network.situation ∧
      next.statistics = simulation.statistics.record event.outgoing.message.kind := by
  obtain ⟨team, sent, w', hteam, hordered⟩ := h.deliver valid hq
  rw [deliver_eq hteam] at hnext
  obtain rfl := Except.ok.inj hnext
  refine ⟨⟨w', hordered⟩, ⟨↑(queue.map Event.outgoing), sent, ?_, hteam, ?_⟩, rfl⟩
  · simp [network, Network.situation, hq]
  · exact Multiset.coe_eq_coe.mpr (Timeline.pushAll_perm _ _ _)

theorem Ordered.leads (h : simulation.Ordered setup w) (valid : setup.Valid)
    (hrun : simulation.run outOfTime limit = .ok final) (hfinal : final.statistics.timedOut = false) :
    simulation.network.situation.Leads simulation.statistics (final.team, 0) final.statistics := by
  fun_induction run outOfTime simulation limit generalizing w with
  | case1 _ simulation hq =>
    obtain rfl := Except.ok.inj hrun
    rw [situation_of_nil hq]
    exact .refl
  | case3 | case4 =>
    obtain rfl := Except.ok.inj hrun
    cases hfinal
  | case6 simulation event queue hq limit delivered _ next hnext =>
    rename_i hover
    obtain rfl := Except.ok.inj hrun
    obtain ⟨⟨w', hordered⟩, hdelivers, hstatistics⟩ := h.follows valid hq hnext
    have hall : next.team.allFinished = true := by
      unfold isOver at hover
      split at hover
      · cases hover
      all_goals exact hover
    rw [situation_of_nil (hordered.queue_eq_nil valid hall)] at hdelivers
    exact .head hdelivers (hstatistics ▸ .refl)
  | case7 simulation event queue hq limit delivered _ next hnext _ =>
    rename_i ih
    obtain ⟨⟨w', hordered⟩, hdelivers, hstatistics⟩ := h.follows valid hq hnext
    exact .head hdelivers (hstatistics ▸ ih hordered hrun)
  | case2 | case5 => cases hrun

/-- A run that no limit stops delivers the starts and then everything else. -/
theorem leads_of_starts (valid : setup.Valid) {seed : UInt64} {starts views : List (Outgoing K)}
    (hstarting : simulation.team.Starting setup seed starts)
    (hqueue : simulation.queue = (starts ++ views).map fun outgoing => ⟨0, outgoing⟩)
    (hviews : (↑views : Multiset (Outgoing K)) = (World.initial setup).flight setup)
    (hrun : simulation.run outOfTime limit = .ok final) (hfinal : final.statistics.timedOut = false) :
    Situation.Leads (simulation.team.deliverAll starts, ↑views)
      (simulation.statistics.recordAll starts) (final.team, 0) final.statistics := by
  induction starts generalizing simulation limit with
  | nil =>
    have hpool : simulation.network.pool = views := by
      rw [network, hqueue, List.nil_append, List.map_map]
      exact List.map_id views
    have hordered : simulation.Ordered setup (.initial setup) := by
      refine ⟨hstarting.shows valid ((congrArg _ hpool).trans hviews), ?_, ?_⟩
      · rw [hqueue, List.pairwise_map]
        exact List.pairwise_of_forall fun _ _ => le_rfl
      · refine Timeline.closing_of_letters fun event hm => ?_
        have hm : event.outgoing ∈ views := hpool ▸ List.mem_map_of_mem hm
        obtain ⟨name, -, hsends⟩ := exists_sends valid (hviews ▸ Multiset.mem_coe.mpr hm)
        exact hsends.isResult
    have hleads := hordered.leads valid hrun hfinal
    rwa [Network.situation, hpool] at hleads
  | cons start rest ih =>
    obtain ⟨next, hnext, hdeliver, hover, hstarting, hrest, hstatistics⟩ :=
      deliver_start hstarting ((rest ++ views).map fun outgoing => ⟨0, outgoing⟩)
    unfold run at hrun
    rw [hqueue] at hrun
    simp only [List.map_cons, List.cons_append] at hrun
    cases limit with
    | zero =>
      obtain rfl := Except.ok.inj hrun
      cases hfinal
    | succ limit =>
      simp only [hnext, hover] at hrun
      split at hrun
      · obtain rfl := Except.ok.inj hrun
        cases hfinal
      · have hleads := ih hstarting hrest hrun
        rwa [Team.deliverAll, List.foldl_cons, hdeliver, Statistics.recordAll, List.foldl_cons,
          ← hstatistics]

end Simulation

namespace Concurrency

variable {state next final : Concurrency K G} {outgoing : Outgoing K} {config : Config K}
  {clock : Nat → Nat} {limit : Nat}

def situation (state : Concurrency K G) : Situation K G := (state.team, ↑state.pool)

/-- Only messages for agents are under way. -/
def Addressed (state : Concurrency K G) : Prop :=
  ∀ outgoing ∈ state.pool, ∃ agent, outgoing.destination = .agent agent

/-- A message that is sent is for an agent, or is a result that is collected. -/
theorem send_cases (h : state.send outgoing = .ok next) :
    (∃ agent, outgoing.destination = .agent agent) ∧
        next = { state with pool := state.pool ++ [outgoing] } ∨
      ∃ team, state.team.deliver outgoing = (team, .ok []) ∧
        next = { state with
                 team
                 statistics := state.statistics.record outgoing.message.kind } := by
  unfold send at h
  split at h
  next agent hd => exact .inl ⟨⟨agent, hd⟩, (Except.ok.inj h).symm⟩
  -- the collector and the orchestrator take results in alike
  all_goals
    next hd =>
      rw [Team.deliver_of_result (by simp [hd]), Team.deliverToCollector] at h ⊢
      rcases hc : state.team.collector.handle outgoing.message with error | collector
      · simp only [hc] at h
        cases h
      · simp only [hc] at h ⊢
        exact .inr ⟨_, rfl, (Except.ok.inj h).symm⟩

/-- The results that were sent are delivered. -/
theorem leads_of_sends {messages : List (Outgoing K)} (h : messages.foldlM send state = .ok next) :
    Situation.Leads (state.team, ↑state.pool + ↑messages) state.statistics next.situation
      next.statistics ∧ (state.Addressed → next.Addressed) := by
  induction messages generalizing state with
  | nil =>
    obtain rfl := Except.ok.inj h
    rw [Multiset.coe_nil, add_zero]
    exact ⟨.refl, id⟩
  | cons outgoing rest ih =>
    rw [List.foldlM_cons] at h
    rcases hmid : state.send outgoing with error | mid
    · rw [hmid] at h
      cases h
    rw [hmid] at h
    obtain ⟨hleads, haddressed⟩ := ih h
    obtain ⟨⟨agent, hd⟩, rfl⟩ | ⟨team, hdeliver, rfl⟩ := send_cases hmid
    · refine ⟨?_, fun hs => haddressed fun other ho => ?_⟩
      · have hpool : (↑(state.pool ++ [outgoing]) + ↑rest : Multiset (Outgoing K))
            = ↑state.pool + ↑(outgoing :: rest) := by simp
        exact hpool ▸ hleads
      · rcases List.mem_append.mp ho with ho | ho
        · exact hs other ho
        · exact ⟨agent, by rw [List.mem_singleton.mp ho, hd]⟩
    · refine ⟨.head ⟨↑state.pool + ↑rest, [], ?_, hdeliver, ?_⟩ hleads, haddressed⟩
      · simp
      · simp

/-- An agent handles a message, and then the results it has sent are delivered. -/
theorem leads_of_deliver {pool : List (Outgoing K)} (hp : state.pool = outgoing :: pool)
    (h : Concurrency.deliver { state with pool } outgoing = .ok next) :
    state.situation.Leads state.statistics next.situation next.statistics ∧
      (state.Addressed → next.Addressed) := by
  unfold deliver at h
  rcases hd : state.team.deliver outgoing with ⟨team, error | sent⟩
  · simp only [hd] at h
    cases h
  · simp only [hd] at h
    obtain ⟨hleads, haddressed⟩ := leads_of_sends h
    have hdelivers : state.situation.Delivers outgoing (team, ↑pool + ↑sent) :=
      ⟨↑pool, sent, by simp [situation, hp], hd, rfl⟩
    exact ⟨.head hdelivers hleads, fun hs => haddressed fun other ho => hs other (by simp [hp, ho])⟩

theorem leads_of_run (hrun : state.run config clock limit = .ok final)
    (hfinal : final.statistics.timedOut = false) :
    state.situation.Leads state.statistics final.situation final.statistics ∧
      (state.Addressed → final.Addressed) ∧ final.team.allFinished = true := by
  fun_induction run config clock state limit with
  | case1 _ state hall =>
    obtain rfl := Except.ok.inj hrun
    exact ⟨.refl, id, hall⟩
  | case7 state _ outgoing pool hp limit _ next hnext ih =>
    obtain ⟨hleads, haddressed⟩ := leads_of_deliver hp hnext
    obtain ⟨hrest, haddressed', hall⟩ := ih hrun
    exact ⟨hleads.trans hrest, haddressed' ∘ haddressed, hall⟩
  | case2 | case4 | case5 =>
    obtain rfl := Except.ok.inj hrun
    cases hfinal
  | case3 | case6 => cases hrun

theorem leads (hs : state.situation.Shown setup) (valid : setup.Valid) (haddressed : state.Addressed)
    (hrun : state.run config clock limit = .ok final) (hfinal : final.statistics.timedOut = false) :
    state.situation.Leads state.statistics (final.team, 0) final.statistics := by
  obtain ⟨hleads, haddressed', hall⟩ := leads_of_run hrun hfinal
  obtain ⟨network, w, hsituation, hshows⟩ := hleads.shown valid hs
  obtain ⟨hteam, hpool⟩ := Prod.mk.inj hsituation
  have hend : final.situation = (final.team, 0) := by
    refine Prod.ext rfl (Multiset.eq_zero_of_forall_notMem fun outgoing hm => ?_)
    obtain ⟨agent, hd⟩ := haddressed' haddressed outgoing hm
    obtain ⟨-, hresults⟩ := hshows.of_allFinished valid (hteam ▸ hall)
    exact (hresults outgoing (Multiset.mem_coe.mp (hpool ▸ hm))).2.2 agent hd
  exact hend ▸ hleads

/-- A run that no limit stops delivers the starts and then everything else. -/
theorem leads_of_starts (valid : setup.Valid) {seed : UInt64} {starts views : List (Outgoing K)}
    (hstarting : state.team.Starting setup seed starts) (hp : state.pool = starts ++ views)
    (hviews : (↑views : Multiset (Outgoing K)) = (World.initial setup).flight setup)
    (hrun : state.run config clock limit = .ok final) (hfinal : final.statistics.timedOut = false) :
    Situation.Leads (state.team.deliverAll starts, ↑views) (state.statistics.recordAll starts)
      (final.team, 0) final.statistics := by
  induction starts generalizing state limit with
  | nil =>
    have hp : state.pool = views := hp
    have hshown : state.situation.Shown setup :=
      ⟨⟨state.team, views⟩, _, by rw [situation, hp]; rfl, hstarting.shows valid hviews⟩
    have haddressed : state.Addressed := by
      intro outgoing hm
      obtain ⟨name, hn, hsends⟩ := exists_sends valid (hviews ▸ Multiset.mem_coe.mpr (hp ▸ hm))
      obtain ⟨agent, ho⟩ := Problem.exists_owner hn
      exact ⟨agent, by simp [hsends.destination, Problem.address, ho]⟩
    have hleads := leads hshown valid haddressed hrun hfinal
    rwa [situation, hp] at hleads
  | cons start rest ih =>
    have hopen := hstarting.not_allFinished
    obtain ⟨name, next, rfl, hdeliver, hnext⟩ := hstarting.deliver
    unfold run at hrun
    rw [if_neg hopen, hp] at hrun
    simp only [List.cons_append] at hrun
    cases limit with
    | zero =>
      obtain rfl := Except.ok.inj hrun
      cases hfinal
    | succ limit =>
      simp only [deliver, hdeliver, List.foldlM_nil] at hrun
      split at hrun
      · obtain rfl := Except.ok.inj hrun
        cases hfinal
      · have hrest := ih hnext rfl hrun
        rwa [Team.deliverAll, List.foldl_cons, hdeliver]

end Concurrency

omit [Generator G] in
theorem Solution.timedOut_of_completed {team : Team K G} {statistics : Statistics}
    (h : (ofTeam team statistics).outcome = .completed) : statistics.timedOut = false := by
  by_contra ht
  simp [ofTeam, ht] at h

/-- A run that no limit stops leads from the first network to its result. -/
theorem Problem.Built.leads_of_solve {problem : Problem K} (built : problem.Built)
    (config : Config K) (seed : UInt64) (clock : Nat → Nat) {solution : Solution K}
    (h : problem.solve G config seed clock = .ok solution)
    (hcompleted : solution.outcome = .completed) :
    ∃ (first : Network K G) (team : Team K G) (final : Statistics),
      Network.start (.generated problem config) seed = .ok first ∧
      first.situation.Leads (Statistics.empty.recordAll (Team.startMessages (K := K) problem))
        (team, 0) final ∧ solution = .ofTeam team final := by
  have valid := Setup.valid_generated built config
  have hne : problem.names ≠ [] := by
    intro he
    simp [Problem.solve, Problem.solveWith, firstMessages, he] at h
  obtain ⟨views, hviews, hfirst, hpool⟩ := built.exists_firstMessages hne config
  have hstarting := Team.starting_new (G := G) (.generated problem config) seed
  have hstart : Network.start (.generated problem config) seed = .ok
      ⟨(Team.new (G := G) problem config seed).deliverAll (Team.startMessages problem), views⟩ := by
    rw [Network.start, show Team.viewMessages (Setup.generated problem config).problem
      (Setup.generated problem config).tree.views.toList = .ok views from hviews]
    rfl
  simp only [Problem.solve, Problem.solveWith, hfirst] at h
  split at h
  · obtain ⟨final, hrun, rfl⟩ := exists_of_map_eq_ok h
    exact ⟨_, _, _, hstart, Simulation.leads_of_starts valid hstarting (Simulation.queue_new _ _) hpool
      hrun (Solution.timedOut_of_completed hcompleted), rfl⟩
  · obtain ⟨final, hrun, rfl⟩ := exists_of_map_eq_ok h
    exact ⟨_, _, _, hstart, Concurrency.leads_of_starts valid hstarting rfl hpool hrun
      (Solution.timedOut_of_completed hcompleted), rfl⟩

section

variable {F : Type} [Field F] [LinearOrder F] [LnSqrt F]

/-- Where every agent owns one variable, all orders of delivery end alike if one of them ends: after
the same number of deliveries, of the same messages, with all agents and the collector in the same
state.  So runs that no limit stops have one result, whatever runs the agents. -/
theorem Network.confluent {problem : Problem (Exact F)} (built : problem.Built)
    (single : problem.Single) (config : Config (Exact F)) (seed : UInt64) :
    (∃ first : Network (Exact F) G, start (.generated problem config) seed = .ok first ∧
      ∀ log last, first.Runs log last → last.pool = [] →
        ∀ log' network, first.Runs log' network →
          log'.length ≤ log.length ∧ (network.pool = [] ↔ log'.length = log.length) ∧
          (network.pool = [] → network.team = last.team ∧
            (log'.map Delivery.outgoing).Perm (log.map Delivery.outgoing))) ∧
    ∀ backend backend' clock clock' solution solution',
      problem.solve G { config with backend } seed clock = .ok solution →
      solution.outcome = .completed →
      problem.solve G { config with backend := backend' } seed clock' = .ok solution' →
      solution'.outcome = .completed → solution = solution' := by
  have valid := Setup.valid_generated built config
  obtain ⟨first, hfirst, hshows⟩ := exists_start (G := G) valid seed
  constructor
  · exact ⟨first, hfirst, fun log last hruns hlast log' network hruns' =>
      hshows.ends_alike valid single hruns hlast hruns'⟩
  · intro backend backend' clock clock' solution solution' h hcompleted h' hcompleted'
    obtain ⟨_, team, final, hf, ⟨messages, hdelivered, rfl⟩, rfl⟩ :=
      built.leads_of_solve _ seed clock h hcompleted
    obtain ⟨_, team', final', hf', ⟨messages', hdelivered', rfl⟩, rfl⟩ :=
      built.leads_of_solve _ seed clock' h' hcompleted'
    obtain rfl := Except.ok.inj (hfirst.symm.trans hf)
    obtain rfl := Except.ok.inj (hfirst.symm.trans hf')
    obtain ⟨hend, hperm⟩ := hdelivered.unique hdelivered' valid single ⟨first, _, rfl, hshows⟩ rfl rfl
    rw [(Prod.mk.inj hend).1, Statistics.recordAll_perm hperm]

end

/-- However the messages of the chain are delivered, it takes 25 of them, and the end is the same. -/
theorem Network.confluent_chain :
    Problem.Single (.chain : Problem (Exact ℚ)) ∧
    (∃ (first last : Network (Exact ℚ) ChaCha.Stream) (log : List (Delivery (Exact ℚ))),
      start (.generated .chain .content) 1 = .ok first ∧ first.Runs log last ∧ last.pool = [] ∧
      log.length = 25 ∧
      ∀ log' network, first.Runs log' network →
        log'.length ≤ log.length ∧ (network.pool = [] ↔ log'.length = log.length) ∧
        (network.pool = [] → network.team = last.team ∧
          (log'.map Delivery.outgoing).Perm (log.map Delivery.outgoing))) ∧
    ∃ solution : Solution (Exact ℚ), solution.outcome = .completed ∧ ∀ backend,
      Problem.chain.solve ChaCha.Stream { Config.content with backend } 1 (fun _ => 0)
        = .ok solution := by
  have hsingle : Problem.Single (.chain : Problem (Exact ℚ)) := by
    unfold Problem.Single
    decide +kernel
  obtain ⟨⟨first, hfirst, h⟩, hagree⟩ :=
    confluent (G := ChaCha.Stream) Problem.built_chain hsingle .content 1
  have hrun : (start (G := ChaCha.Stream) (.generated .chain .content) 1).toOption.any fun first =>
      (first.follow [] 0 30).2.pool.isEmpty && (first.follow [] 0 30).1.length == 25 := by
    decide +kernel
  rw [hfirst] at hrun
  obtain ⟨hempty, hlength⟩ := (Bool.and_eq_true _ _).mp hrun
  have hpool : (first.follow [] 0 30).2.pool = [] := List.isEmpty_iff.mp hempty
  have hruns := runs_follow first [] 0 30
  have hsolved : ∀ backend, ∃ solution : Solution (Exact ℚ), Problem.chain.solve ChaCha.Stream
      { Config.content with backend } 1 (fun _ => 0) = .ok solution ∧
        solution.outcome = .completed := by
    intro backend
    have hany : (Problem.chain.solve (K := Exact ℚ) ChaCha.Stream { Config.content with backend } 1
        fun _ => 0).toOption.any fun solution => solution.outcome = .completed := by
      cases backend <;> decide +kernel
    generalize Problem.chain.solve ChaCha.Stream _ 1 _ = outcome at hany ⊢
    rcases outcome with error | solution
    · cases hany
    · exact ⟨solution, rfl, of_decide_eq_true hany⟩
  obtain ⟨solution, hsolution, hcompleted⟩ := hsolved .simulated
  refine ⟨hsingle, ⟨first, _, _, hfirst, hruns, hpool, beq_iff_eq.mp hlength, h _ _ hruns hpool⟩,
    solution, hcompleted, fun backend => ?_⟩
  obtain ⟨other, hother, ho⟩ := hsolved backend
  rw [hother, hagree _ _ _ _ other solution hother ho hsolution hcompleted]

end DcopSearch
