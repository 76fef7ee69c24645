import DcopSearch.Proofs.Network.Completion
import DcopSearch.Run.Solution

/-! A run along simulated clocks is one of the orders of delivery.  The starts come first, and after
them the queue has the messages of a network in the order of their times; so no delivery fails, and
when the queue is empty every agent has finished. -/

namespace DcopSearch

open World

variable {K G : Type}

theorem Timeline.pushAll_perm (time : Nat) (messages : List (Outgoing K)) (timeline : Timeline K) :
    ((pushAll time messages timeline).map Event.outgoing).Perm
      (timeline.map Event.outgoing ++ messages) := by
  induction messages generalizing timeline with
  | nil => simp [pushAll]
  | cons outgoing rest ih =>
    have hpush := (push_perm Event.time ⟨time, outgoing⟩ timeline).map Event.outgoing
    exact (ih _).trans ((hpush.append_right rest).trans List.perm_middle.symm)

theorem Timeline.push_eq {event : Event K} {timeline : Timeline K}
    (h : ∀ other ∈ timeline, other.time ≤ event.time) :
    push Event.time event timeline = timeline ++ [event] := by
  induction timeline with
  | nil => rfl
  | cons first rest ih =>
    rw [push, if_pos (h first (by simp)), ih fun other ho => h other (by simp [ho])]
    rfl

theorem Timeline.pushAll_eq {time : Nat} {messages : List (Outgoing K)} {timeline : Timeline K}
    (h : ∀ event ∈ timeline, event.time ≤ time) :
    pushAll time messages timeline = timeline ++ messages.map fun outgoing => ⟨time, outgoing⟩ := by
  induction messages generalizing timeline with
  | nil => simp [pushAll]
  | cons outgoing rest ih =>
    have hpush : push Event.time ⟨time, outgoing⟩ timeline = timeline ++ [⟨time, outgoing⟩] :=
      push_eq h
    have hlast : ∀ event ∈ timeline ++ [⟨time, outgoing⟩], event.time ≤ time := by
      intro event he
      rcases List.mem_append.mp he with he | he
      · exact h event he
      · rw [List.mem_singleton.mp he]
    rw [pushAll, List.foldl_cons, hpush]
    exact (ih hlast).trans (by simp)

variable [CostArithmetic K] {setup : Setup K} {w : World K}

theorem Network.Shows.perm {team : Team K G} {pool pool' : List (Outgoing K)}
    (h : Network.Shows setup w { team, pool }) (hp : pool'.Perm pool) :
    Network.Shows setup w { team, pool := pool' } := by
  obtain ⟨results, hsum, haccounts⟩ := h.pool
  exact ⟨h.team, h.inv, h.settled, results, (Multiset.coe_eq_coe.mpr hp).trans hsum, haccounts⟩

/-- When nothing is under way, every agent has finished. -/
theorem Network.Shows.allFinished {network : Network K G} (h : network.Shows setup w)
    (valid : setup.Valid) (hpool : network.pool = []) : network.team.allFinished = true := by
  have hfinished := (h.complete valid hpool).finished
  rw [Team.allFinished, Collector.allFinished, List.all_eq_true]
  intro agent ha
  rw [Std.ExtTreeSet.contains_iff_mem, hfinished, ← h.team.members]
  simpa using ha

section

variable [Generator G]

/-- The agents before their starts, or some of them, have been delivered. -/
structure Team.Starting (setup : Setup K) (seed : UInt64) (starts : List (Outgoing K))
    (team : Team K G) : Prop where
  addressed : ∀ start ∈ starts, ∃ name ∈ setup.problem.agents, start = ⟨.agent name, .start⟩
  fresh : ∃ started, team.Fresh setup seed started ∧ ∀ name ∈ setup.problem.agents,
    started name = true ∨ ⟨.agent name, .start⟩ ∈ starts

namespace Team

variable {team : Team K G} {seed : UInt64} {start : Outgoing K} {starts : List (Outgoing K)}

theorem starting_new (setup : Setup K) (seed : UInt64) :
    Starting setup seed (startMessages setup.problem)
      (.new setup.problem setup.config seed : Team K G) := by
  refine ⟨fun start hm => ?_, fun _ => false, fresh_new setup seed, fun name hn => .inr ?_⟩
  · obtain ⟨name, hn, rfl⟩ := List.mem_map.mp hm
    exact ⟨name, hn, rfl⟩
  · exact List.mem_map.mpr ⟨name, hn, rfl⟩

theorem Starting.deliver (h : team.Starting setup seed (start :: starts)) :
    ∃ name next, start = ⟨.agent name, .start⟩ ∧ team.deliver start = (next, .ok []) ∧
      next.Starting setup seed starts := by
  obtain ⟨name, hn, rfl⟩ := h.addressed start (by simp)
  obtain ⟨started, hfresh, hall⟩ := h.fresh
  obtain ⟨next, hdeliver, hnext⟩ := hfresh.start hn
  refine ⟨name, next, rfl, hdeliver, fun other ho => h.addressed other (by simp [ho]), _, hnext,
    fun other ho => ?_⟩
  rcases hall other ho with hs | hm
  · exact .inl (by simp [hs])
  · rcases List.mem_cons.mp hm with he | hm
    · obtain rfl : other = name := by simpa using he
      exact .inl (by simp)
    · exact .inr hm

theorem Starting.not_allFinished (h : team.Starting setup seed (start :: starts)) :
    ¬team.allFinished = true := by
  obtain ⟨name, hn, -⟩ := h.addressed start (by simp)
  obtain ⟨started, hfresh, -⟩ := h.fresh
  intro hall
  have hmem : name ∈ team.agents := by
    rw [Std.ExtTreeMap.mem_iff_isSome_getElem?, hfresh.agents, if_pos hn]
    rfl
  have hfinished := List.all_eq_true.mp hall name (Std.ExtTreeMap.mem_keys.mpr hmem)
  rw [hfresh.collector] at hfinished
  simp [Collector.empty] at hfinished

/-- When all agents have started, the search can begin. -/
theorem Starting.shows (h : team.Starting setup seed []) (valid : setup.Valid)
    {pool : List (Outgoing K)}
    (hpool : (↑pool : Multiset (Outgoing K)) = (World.initial setup).flight setup) :
    Network.Shows setup (.initial setup) { team, pool } := by
  obtain ⟨started, hfresh, hall⟩ := h.fresh
  exact Network.shows_initial valid hfresh (fun name hn => by simpa using hall name hn) hpool

end Team

end

namespace Simulation

variable [Generator G]

/-- The network of a run: its queue without the times. -/
def network (simulation : Simulation K G) : Network K G :=
  { team := simulation.team, pool := simulation.queue.map Event.outgoing }

/-- The next event is delivered; it is a result that is taken in, or a message for a variable. -/
theorem exists_deliver {simulation : Simulation K G} {event : Event K} {queue : Timeline K}
    (h : simulation.network.Shows setup w) (valid : setup.Valid)
    (hq : simulation.queue = event :: queue) :
    ∃ team sent w', simulation.team.deliver event.outgoing = (team, .ok sent) ∧
      Network.Shows setup w' { team, pool := queue.map Event.outgoing ++ sent } ∧
      (event.outgoing.message.isResult = true ∧ w' = w ∧ sent = [] ∨
        ∃ name agent, setup.problem.owner? name = some agent ∧ w.Sends setup name event.outgoing ∧
          Handled setup G w agent name {event.outgoing} sent w') := by
  have hpool : simulation.network.pool[0]? = some event.outgoing := by
    rw [network, hq]
    rfl
  obtain ⟨⟨delivery, next⟩, hd⟩ : ∃ result, simulation.network.deliverAt 0 = some result := by
    rw [Network.deliverAt, hpool]
    exact ⟨_, rfl⟩
  obtain ⟨sent, w', houtcome, hshows, hcase⟩ := h.deliverAt valid hd
  rcases hteam : simulation.team.deliver event.outgoing with ⟨team, outcome⟩
  rw [Network.deliverAt, hpool, network] at hd
  simp only [hteam, hq, Option.map_some, Option.some.injEq, Prod.mk.injEq] at hd
  obtain ⟨rfl, rfl⟩ := hd
  obtain rfl : outcome = .ok sent := houtcome
  exact ⟨team, sent, w', rfl, hshows, hcase⟩

theorem deliver_eq {simulation : Simulation K G} {event : Event K} {queue : Timeline K}
    {team : Team K G} {sent : List (Outgoing K)}
    (h : simulation.team.deliver event.outgoing = (team, .ok sent)) :
    Simulation.deliver { simulation with queue } event
      = .ok (simulation.after event queue team sent) := by
  simp only [deliver, h]
  rfl

omit [Generator G] in
theorem shows_after {simulation : Simulation K G} {event : Event K} {queue : Timeline K}
    {team : Team K G} {sent : List (Outgoing K)}
    (h : Network.Shows setup w { team, pool := queue.map Event.outgoing ++ sent }) :
    (simulation.after event queue team sent).network.Shows setup w :=
  h.perm (Timeline.pushAll_perm _ _ _)

/-- A run whose starts have been delivered ends with a result. -/
theorem run_ok (outOfTime : Nat → Bool) {simulation : Simulation K G}
    (h : simulation.network.Shows setup w) (valid : setup.Valid) (limit : Nat) :
    ∃ final, simulation.run outOfTime limit = .ok final := by
  induction limit generalizing simulation w with
  | zero =>
    unfold run
    split
    next hq =>
      have hall := h.allFinished valid (by rw [network, hq]; rfl)
      exact ⟨simulation, if_pos hall⟩
    next => exact ⟨_, rfl⟩
  | succ limit ih =>
    unfold run
    split
    next hq =>
      have hall := h.allFinished valid (by rw [network, hq]; rfl)
      exact ⟨simulation, if_pos hall⟩
    next event queue hq =>
      obtain ⟨team, sent, w', hteam, hshows, -⟩ := exists_deliver h valid hq
      simp only [deliver_eq hteam]
      split
      · exact ⟨_, rfl⟩
      · split
        · exact ⟨_, rfl⟩
        · exact ih (shows_after hshows)

/-- A start is delivered without an answer. -/
theorem deliver_start {simulation : Simulation K G} {seed : UInt64} {start : Outgoing K}
    {starts : List (Outgoing K)} (h : simulation.team.Starting setup seed (start :: starts))
    (queue : Timeline K) :
    ∃ next, Simulation.deliver { simulation with queue } ⟨0, start⟩ = .ok next ∧
      simulation.team.deliver start = (next.team, .ok []) ∧ next.isOver ⟨0, start⟩ = false ∧
      next.team.Starting setup seed starts ∧ next.queue = queue ∧
      next.statistics = simulation.statistics.record start.message.kind := by
  obtain ⟨name, team, rfl, hdeliver, hteam⟩ := h.deliver
  exact ⟨_, deliver_eq hdeliver, hdeliver, rfl, hteam, rfl, rfl⟩

/-- A run that begins with starts ends with a result. -/
theorem run_starts_ok (outOfTime : Nat → Bool) (valid : setup.Valid) {seed : UInt64}
    {starts views : List (Outgoing K)} {simulation : Simulation K G}
    (hstarting : simulation.team.Starting setup seed starts)
    (hqueue : simulation.queue = (starts ++ views).map fun outgoing => ⟨0, outgoing⟩)
    (hviews : (↑views : Multiset (Outgoing K)) = (World.initial setup).flight setup) (limit : Nat) :
    ∃ final, simulation.run outOfTime limit = .ok final := by
  induction starts generalizing simulation limit with
  | nil =>
    refine run_ok outOfTime (w := .initial setup) (hstarting.shows valid ?_) valid limit
    rw [← hviews, hqueue, List.nil_append, List.map_map]
    exact congrArg _ (List.map_id views)
  | cons start rest ih =>
    obtain ⟨next, hdeliver, -, hover, hnext, hrest, -⟩ :=
      deliver_start hstarting ((rest ++ views).map fun outgoing => ⟨0, outgoing⟩)
    unfold run
    rw [hqueue]
    simp only [List.map_cons, List.cons_append]
    cases limit with
    | zero => exact ⟨_, rfl⟩
    | succ limit =>
      simp only [hdeliver, hover]
      split
      · exact ⟨_, rfl⟩
      · exact ih hnext hrest limit

end Simulation

/-- What a run begins with: the starts of the agents, and after them the views. -/
theorem Problem.Built.exists_firstMessages {problem : Problem K} (built : problem.Built)
    (hne : problem.names ≠ []) (config : Config K) :
    ∃ views, Team.viewMessages problem (PseudoTree.generate problem).views.toList = .ok views ∧
      firstMessages problem (.generate problem) = .ok (Team.startMessages problem ++ views) ∧
      (↑views : Multiset (Outgoing K))
        = (World.initial (.generated problem config)).flight (.generated problem config) := by
  have valid := Setup.valid_generated built config
  obtain ⟨views, hviews, hpool⟩ := Network.exists_views valid
  have hnone : problem.names.find? (fun name => ((PseudoTree.generate problem).view? name).isNone)
      = none := by
    rw [List.find?_eq_none]
    intro name hn
    have hsome : ((PseudoTree.generate problem).view? name).isSome :=
      (valid.spans.views name).mp hn
    simpa [Option.isSome_iff_ne_none] using hsome
  refine ⟨views, hviews, ?_, hpool⟩
  have hempty : problem.names.isEmpty = false := by simpa using hne
  simp only [firstMessages, hempty, hnone]
  rw [show Team.viewMessages problem (PseudoTree.generate problem).views.toList = .ok views
    from hviews]
  rfl

omit [CostArithmetic K] in
theorem Simulation.queue_new (team : Team K G) (messages : List (Outgoing K)) :
    (Simulation.new team messages).queue = messages.map fun outgoing => ⟨0, outgoing⟩ := by
  rw [Simulation.new, Timeline.pushAll_eq (by simp), List.nil_append]

/-- Over its depth-first tree a problem with variables is solved, or a limit stops the run. -/
theorem Problem.Built.exists_solution {problem : Problem K} (built : problem.Built)
    (hne : problem.names ≠ []) (config : Config K) (hbackend : config.backend = .simulated)
    (seed : UInt64) (clock : Nat → Nat) (G : Type) [Generator G] :
    ∃ solution, problem.solve G config seed clock = .ok solution := by
  have valid := Setup.valid_generated built config
  obtain ⟨views, -, hfirst, hpool⟩ := built.exists_firstMessages hne config
  obtain ⟨final, hrun⟩ := Simulation.run_starts_ok (config.isOutOfTime clock) valid
    (Team.starting_new (G := G) (.generated problem config) seed)
    (Simulation.queue_new _ _) hpool config.messageLimit
  refine ⟨.ofTeam final.team final.statistics, ?_⟩
  simp only [Problem.solve, Problem.solveWith, hfirst, hbackend]
  exact congrArg _ hrun

/-- In whatever order the messages are delivered, when none is left every variable has converged and
every result was reported once; so a run along simulated clocks is never stuck. -/
theorem Network.completes {problem : Problem K} (built : problem.Built)
    (hne : problem.names ≠ []) (config : Config K) (seed : UInt64) (G : Type) [Generator G] :
    (∃ first : Network K G, start (.generated problem config) seed = .ok first ∧
      ∀ network, first.Reaches network → network.pool = [] → network.team.Complete problem) ∧
    ∀ clock, config.backend = .simulated →
      ∃ solution, problem.solve G config seed clock = .ok solution := by
  constructor
  · have valid := Setup.valid_generated built config
    obtain ⟨first, hfirst, hshows⟩ := exists_start (G := G) valid seed
    refine ⟨first, hfirst, fun network hreaches hpool => ?_⟩
    obtain ⟨w, hshows, -⟩ := hreaches.shows valid hshows
    exact hshows.complete valid hpool
  · intro clock hbackend
    exact built.exists_solution hne config hbackend seed clock G

theorem Network.completes_chain :
    Problem.chain.names ≠ [] ∧
    (∃ first : Network (Exact ℚ) ChaCha.Stream,
      start (.generated .chain .severe) 1 = .ok first ∧
      ∀ network, first.Reaches network → network.pool = [] →
        network.team.Complete Problem.chain) ∧
    ∀ clock, ∃ solution, Problem.chain.solve ChaCha.Stream .severe 1 clock = .ok solution := by
  have hnames : Problem.chain.names ≠ [] := by decide +kernel
  obtain ⟨hcomplete, hsolved⟩ :=
    Network.completes Problem.built_chain hnames .severe 1 ChaCha.Stream
  exact ⟨hnames, hcomplete, fun clock => hsolved clock rfl⟩

end DcopSearch
