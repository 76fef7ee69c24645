import DcopSearch.Proofs.Run.Simulated

/-! The end of a run along simulated clocks.  An agent reports that it has finished after all its other
results, and the queue keeps this order; so when the last agent has reported, nothing is left in the
queue, and the run is a complete order of delivery. -/

namespace DcopSearch

open World

variable {K G : Type}

/-- An agent reports that it has finished. -/
def Event.IsNews (event : Event K) : Prop := event.outgoing.message.finishes? ≠ none

namespace Timeline

/-- Every result is such news, or comes before some, or was sent at a time that is `late`. -/
def Closing (late : Nat → Prop) : Timeline K → Prop
  | [] => True
  | event :: rest => (event.outgoing.message.isResult = true →
      (∃ other ∈ event :: rest, other.IsNews) ∨ late event.time) ∧ Closing late rest

variable {late late' : Nat → Prop} {event : Event K} {timeline : Timeline K}

theorem Closing.mono (h : Closing late timeline)
    (hl : ∀ event ∈ timeline, late event.time → late' event.time) : Closing late' timeline := by
  induction timeline with
  | nil => trivial
  | cons first rest ih =>
    exact ⟨fun hr => (h.1 hr).imp_right (hl first (by simp)),
      ih h.2 fun other ho => hl other (by simp [ho])⟩

theorem Closing.push (h : Closing late timeline) (hl : late event.time) :
    Closing late (push Event.time event timeline) := by
  induction timeline with
  | nil => exact ⟨fun _ => .inr hl, trivial⟩
  | cons first rest ih =>
    unfold Timeline.push
    split
    · refine ⟨fun hr => (h.1 hr).imp_left ?_, ih h.2⟩
      rintro ⟨other, ho, hn⟩
      refine ⟨other, ?_, hn⟩
      rcases List.mem_cons.mp ho with rfl | ho
      · exact List.mem_cons_self
      · exact List.mem_cons_of_mem _ (mem_push.mpr (.inr ho))
    · exact ⟨fun _ => .inr hl, h⟩

theorem Closing.pushAll {time : Nat} (h : Closing late timeline) (hl : late time)
    (messages : List (Outgoing K)) : Closing late (pushAll time messages timeline) := by
  induction messages generalizing timeline with
  | nil => exact h
  | cons outgoing rest ih => exact ih (h.push hl)

/-- News come after all that was not sent later. -/
theorem Closing.push_news (h : Closing late timeline)
    (hsorted : timeline.Pairwise (·.time ≤ ·.time)) (hnews : event.IsNews)
    (hl : ∀ time, late time → late' time ∨ time ≤ event.time) :
    Closing late' (Timeline.push Event.time event timeline) := by
  induction timeline with
  | nil => exact ⟨fun _ => .inl ⟨event, by simp, hnews⟩, trivial⟩
  | cons first rest ih =>
    obtain ⟨hfirst, hrest⟩ := List.pairwise_cons.mp hsorted
    unfold Timeline.push
    split
    · exact ⟨fun _ => .inl ⟨event, by simp [mem_push], hnews⟩, ih h.2 hrest⟩
    next hlt =>
      refine ⟨fun _ => .inl ⟨event, by simp, hnews⟩, h.mono fun other ho hlate => ?_⟩
      refine (hl _ hlate).resolve_right ?_
      rcases List.mem_cons.mp ho with rfl | ho
      · exact hlt
      · have := hfirst other ho
        omega

/-- If nothing is late, then results come with news. -/
theorem Closing.exists_news (h : Closing (fun _ => False) timeline) (hm : event ∈ timeline)
    (hr : event.outgoing.message.isResult = true) : ∃ other ∈ timeline, other.IsNews := by
  induction timeline with
  | nil => cases hm
  | cons first rest ih =>
    rcases List.mem_cons.mp hm with rfl | hm
    · exact (h.1 hr).resolve_right id
    · obtain ⟨other, ho, hn⟩ := ih h.2 hm
      exact ⟨other, List.mem_cons_of_mem _ ho, hn⟩

theorem closing_of_letters (h : ∀ event ∈ timeline, event.outgoing.message.isResult = false) :
    Closing late timeline := by
  induction timeline with
  | nil => trivial
  | cons first rest ih =>
    exact ⟨by simp [h first (by simp)], ih fun other ho => h other (by simp [ho])⟩

theorem pushAll_concat (time : Nat) (messages : List (Outgoing K)) (outgoing : Outgoing K)
    (timeline : Timeline K) : pushAll time (messages ++ [outgoing]) timeline
      = push Event.time ⟨time, outgoing⟩ (pushAll time messages timeline) := by
  rw [pushAll, List.foldl_append]
  rfl

theorem pairwise_pushAll {time : Nat} (messages : List (Outgoing K))
    (h : timeline.Pairwise (·.time ≤ ·.time)) :
    (Timeline.pushAll time messages timeline).Pairwise (·.time ≤ ·.time) := by
  induction messages generalizing timeline with
  | nil => exact h
  | cons outgoing rest ih =>
    exact ih (pairwise_push h h (fun _ _ => id) fun _ _ => Nat.le_of_lt)

end Timeline

variable [CostArithmetic K] {setup : Setup K} {w w' : World K}

/-- An agent that goes on has not finished, or has just sent the news at the end of its messages. -/
theorem World.Handled.exists_news [Generator G] {agent name : String}
    {taken : Multiset (Outgoing K)} {sent : List (Outgoing K)} (valid : setup.Valid)
    (h : Handled setup G w agent name taken sent w') (hn : setup.problem.owner? name = some agent) :
    ¬w'.Through setup agent ∨
      ∃ messages, sent = messages ++ [⟨.orchestrator, .agentFinished agent⟩] := by
  have hmem := valid.wellFormed.mem_variablesOf.mpr hn
  obtain ⟨letters, results, rfl, -, ⟨hopen, -⟩ | ⟨-, news, rfl, ⟨-, rfl⟩ | ⟨hopen, -⟩⟩⟩ := h.sends
  · exact .inl fun hthrough => hopen (hthrough name hmem)
  · exact .inr ⟨letters ++ _, (List.append_assoc _ _ _).symm⟩
  · exact .inl hopen

namespace Simulation

variable {simulation : Simulation K G} {event : Event K} {queue : Timeline K}

/-- An agent that has not finished may still send news at the time or after it. -/
def Late (setup : Setup K) (w : World K) (simulation : Simulation K G) (time : Nat) : Prop :=
  ∃ agent ∈ setup.problem.agents, ¬w.Through setup agent ∧ time ≤ simulation.clock agent

/-- A run whose queue is in order, and in which no result comes after all news. -/
structure Ordered (setup : Setup K) (w : World K) (simulation : Simulation K G) : Prop where
  shows : simulation.network.Shows setup w
  sorted : simulation.queue.Pairwise (·.time ≤ ·.time)
  closing : simulation.queue.Closing (simulation.Late setup w)

section

omit [CostArithmetic K]

variable {team : Team K G} {sent : List (Outgoing K)} {agent : String}

theorem queue_after (hd : event.outgoing.destination = .agent agent) :
    (simulation.after event queue team sent).queue
      = Timeline.pushAll ((simulation.after event queue team sent).clock agent) sent queue := by
  simp only [after, sendTime, hd, clock]

/-- No clock goes back, and that of the receiver goes on. -/
theorem clock_le_after (other : String) :
    simulation.clock other ≤ (simulation.after event queue team sent).clock other := by
  simp only [clock, after, tick]
  split
  · simp only [Std.ExtTreeMap.getElem?_insert, Std.LawfulEqCmp.compare_eq_iff_eq]
    split
    next he =>
      rw [he, Option.getD_some]
      omega
    · exact le_rfl
  all_goals exact le_rfl

end

variable [Generator G]

/-- The next event is delivered, and the run stays in order. -/
theorem Ordered.deliver (h : simulation.Ordered setup w) (valid : setup.Valid)
    (hq : simulation.queue = event :: queue) :
    ∃ team sent w', simulation.team.deliver event.outgoing = (team, .ok sent) ∧
      (simulation.after event queue team sent).Ordered setup w' := by
  obtain ⟨team, sent, w', hdeliver, hshows, hcase⟩ := exists_deliver h.shows valid hq
  obtain ⟨-, hsorted⟩ := List.pairwise_cons.mp (hq ▸ h.sorted)
  obtain ⟨-, hclosing⟩ : Timeline.Closing _ (event :: queue) := hq ▸ h.closing
  refine ⟨team, sent, w', hdeliver, shows_after hshows, Timeline.pairwise_pushAll _ hsorted, ?_⟩
  obtain ⟨-, rfl, rfl⟩ | ⟨name, agent, ho, hsends, hhandled⟩ := hcase
  · exact hclosing.mono fun _ _ ⟨agent, ha, hopen, hle⟩ =>
      ⟨agent, ha, hopen, hle.trans (clock_le_after agent)⟩
  · have hagent := Problem.mem_agents_of_owner ho
    have hd : event.outgoing.destination = .agent agent := by
      simp [hsends.destination, Problem.address, ho]
    let next := simulation.after event queue team sent
    have hlate : ∀ time, simulation.Late setup w time →
        next.Late setup w' time ∨ time ≤ next.clock agent := by
      rintro time ⟨other, hother, hopen, hle⟩
      by_cases he : other = agent
      · exact .inr (he ▸ hle.trans (clock_le_after other))
      · have hopen' := mt (hhandled.near.through_iff valid.wellFormed ho he).mp hopen
        exact .inl ⟨other, hother, hopen', hle.trans (clock_le_after other)⟩
    rw [queue_after hd]
    rcases hhandled.exists_news valid ho with hopen | ⟨messages, hsent⟩
    · have hnow : ∀ time ≤ next.clock agent, next.Late setup w' time :=
        fun time hle => ⟨agent, hagent, hopen, hle⟩
      exact Timeline.Closing.pushAll (hclosing.mono fun other _ hl =>
        (hlate other.time hl).elim id (hnow other.time)) (hnow _ le_rfl) sent
    · -- what is sent before the news is late only until they are sent
      have hbefore : Timeline.Closing (fun time => next.Late setup w' time ∨
          time ≤ next.clock agent) (Timeline.pushAll (next.clock agent) messages queue) :=
        Timeline.Closing.pushAll (hclosing.mono fun other _ => hlate other.time) (.inr le_rfl) messages
      have hnews : (⟨next.clock agent, ⟨.orchestrator, .agentFinished agent⟩⟩ : Event K).IsNews := by
        simp [Event.IsNews, Message.finishes?]
      have hafter := hbefore.push_news (Timeline.pairwise_pushAll messages hsorted) hnews
        fun _ => id
      rwa [← Timeline.pushAll_concat, ← hsent] at hafter

omit [Generator G] in
/-- When every agent has finished, nothing is left in the queue. -/
theorem Ordered.queue_eq_nil (h : simulation.Ordered setup w) (valid : setup.Valid)
    (hall : simulation.team.allFinished = true) : simulation.queue = [] := by
  obtain ⟨hthrough, hpool⟩ := h.shows.of_allFinished valid hall
  have hclosing : simulation.queue.Closing fun _ => False :=
    h.closing.mono fun _ _ ⟨agent, ha, hopen, _⟩ => hopen (hthrough agent ha)
  refine List.eq_nil_iff_forall_not_mem.mpr fun event hm => ?_
  have hother : ∀ other ∈ simulation.queue, other.outgoing ∈ simulation.network.pool :=
    fun other => List.mem_map_of_mem
  obtain ⟨other, ho, hnews⟩ := hclosing.exists_news hm (hpool _ (hother event hm)).1
  exact hnews (hpool _ (hother other ho)).2.1

end Simulation

end DcopSearch
