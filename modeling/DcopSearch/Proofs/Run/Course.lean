import DcopSearch.Proofs.Network.Agreement
import DcopSearch.Proofs.Run.Journal
import DcopSearch.Random.ChaCha

/-! The courses that a run along simulated clocks can take, when nothing is known about its agents.
However they answer, time does not go back, the messages of an agent are delivered in the order in which
it sent them, and none is lost or delivered twice.  The run itself is the course on which every delivery
is answered by the agent that it is for. -/

namespace DcopSearch

variable {K G : Type}

/-- The agent that an event is for; a result is for none. -/
def Event.receiver? (event : Event K) : Option String :=
  match event.outgoing.destination with
  | .agent name => some name
  | .collector | .orchestrator => none

theorem Event.receiver?_eq_some {event : Event K} {name : String} :
    event.receiver? = some name ↔ event.outgoing.destination = .agent name := by
  unfold receiver?
  cases event.outgoing.destination <;> simp

/-- What a message makes of the agents and what they send in return, by their own handling of it. -/
def Team.Replies [CostArithmetic K] [Generator G] (team : Team K G) (outgoing : Outgoing K)
    (next : Team K G) (sent : List (Outgoing K)) : Prop :=
  team.deliver outgoing = (next, .ok sent)

namespace Simulation

/-- The time on the receiver's clock at which an event is handled; a result is handled at its own
time. -/
def handledAt (simulation : Simulation K G) (event : Event K) : Nat :=
  sendTime { simulation with clocks := simulation.tick event } event

/-- A run from its first messages on, with its journal.  What a message makes of the agents, and what
they send in return, is as `answers` allows; whoever takes in results sends nothing. -/
inductive Course (answers : Team K G → Outgoing K → Team K G → List (Outgoing K) → Prop)
    (team : Team K G) (messages : List (Outgoing K)) : Simulation K G → Journal K → Prop
  | start : Course answers team messages (.new team messages) (Journal.empty.post none 0 messages)
  | deliver {simulation : Simulation K G} {journal : Journal K} {event : Event K}
      {queue : Timeline K} {posting : Posting K} {rest : List (Posting K)} {next : Team K G}
      {sent : List (Outgoing K)} (h : Course answers team messages simulation journal)
      (hq : simulation.queue = event :: queue) (hj : journal.queued = posting :: rest)
      (ha : answers simulation.team event.outgoing next sent)
      (hsent : event.receiver? = none → sent = []) :
      Course answers team messages (simulation.after event queue next sent)
        ((journal.receive posting rest (simulation.handledAt event)).post event.receiver?
          (simulation.handledAt event) sent)

variable {answers : Team K G → Outgoing K → Team K G → List (Outgoing K) → Prop} {team : Team K G}
  {messages : List (Outgoing K)} {simulation : Simulation K G} {journal : Journal K} {event : Event K}
  {queue : Timeline K}

theorem handledAt_of_receiver {agent : String} (ha : event.receiver? = some agent) :
    simulation.handledAt event = max (simulation.clock agent) event.time + 1 := by
  have hd := Event.receiver?_eq_some.mp ha
  simp [handledAt, sendTime, hd, clock, tick]

theorem handledAt_of_result (hr : event.receiver? = none) :
    simulation.handledAt event = event.time := by
  unfold Event.receiver? at hr
  cases hd : event.outgoing.destination <;> simp_all [handledAt, sendTime]

theorem time_le_handledAt (simulation : Simulation K G) (event : Event K) :
    event.time ≤ simulation.handledAt event := by
  cases ha : event.receiver? with
  | some agent =>
    rw [handledAt_of_receiver ha]
    omega
  | none => rw [handledAt_of_result ha]

theorem clock_after {next : Team K G} {sent : List (Outgoing K)} {agent : String}
    (ha : event.receiver? = some agent) :
    (simulation.after event queue next sent).clock agent = simulation.handledAt event := by
  have hd := Event.receiver?_eq_some.mp ha
  simp only [handledAt, sendTime, hd, clock, after]

namespace Course

theorem kept (h : Course answers team messages simulation journal) :
    journal.Kept simulation.clock ∧ journal.queued.map Posting.event = simulation.queue := by
  induction h with
  | start =>
    refine ⟨(Journal.kept_empty _).post ?_ ?_ ?_ messages, Journal.map_event_post none 0 messages _⟩
    · simp
    · simp [Journal.empty]
    · simp [Journal.empty]
  | @deliver simulation journal event queue posting rest next sent _ hq hj _ hsent ih =>
    obtain ⟨hkept, hqueue⟩ := ih
    rw [hj, hq, List.map_cons] at hqueue
    obtain ⟨rfl, rfl⟩ := List.cons.inj hqueue
    let now := simulation.handledAt posting.event
    have hnow : posting.event.time ≤ now := time_le_handledAt simulation posting.event
    have hclock : ∀ agent, simulation.clock agent
        ≤ (simulation.after posting.event (rest.map Posting.event) next sent).clock agent :=
      fun agent => clock_le_after agent
    have hreceived : (journal.receive posting rest now).Kept
        (simulation.after posting.event (rest.map Posting.event) next sent).clock := by
      refine hkept.receive hj hclock fun agent ha => ?_
      have ha := Event.receiver?_eq_some.mpr ha
      have hreceiver : now = max (simulation.clock agent) posting.event.time + 1 :=
        handledAt_of_receiver ha
      rw [clock_after ha]
      exact ⟨by omega, le_rfl⟩
    have hpast : ∀ receipt ∈ (journal.receive posting rest now).received,
        receipt.posting.event.time ≤ now := by
      intro receipt hr
      rcases List.mem_append.mp hr with hr | hr
      · have hcross := (List.pairwise_append.mp hkept.times).2.2 receipt.posting
          (List.mem_map_of_mem hr) posting (by simp [hj])
        omega
      · obtain rfl := List.mem_singleton.mp hr
        exact hnow
    refine ⟨?_, Journal.map_event_post _ now sent _⟩
    cases ha : posting.event.receiver? with
    | none =>
      obtain rfl := hsent ha
      exact hreceived
    | some agent =>
      refine hreceived.post (fun other ho => ?_) (fun other ho hs => ?_) hpast sent
      · obtain rfl := Option.some.inj ho
        rw [clock_after ha]
      · have hother := hkept.sent other (by rw [hj]; exact List.mem_cons_of_mem _ ho) agent hs
        have hreceiver : now = max (simulation.clock agent) posting.event.time + 1 :=
          handledAt_of_receiver ha
        omega

theorem exists_posting (h : Course answers team messages simulation journal)
    (hq : simulation.queue = event :: queue) :
    ∃ posting rest, journal.queued = posting :: rest ∧ posting.event = event ∧
      rest.map Posting.event = queue := by
  have hqueue := h.kept.2
  rw [hq, List.map_eq_cons_iff] at hqueue
  exact hqueue

end Course

variable [CostArithmetic K] [Generator G]

/-- A delivery that does not fail is answered by the agents. -/
theorem exists_of_deliver {next : Simulation K G}
    (h : deliver { simulation with queue } event = .ok next) :
    ∃ team sent, simulation.team.Replies event.outgoing team sent ∧
      next = simulation.after event queue team sent := by
  rcases ht : simulation.team.deliver event.outgoing with ⟨team, error | sent⟩
  · simp [deliver, ht] at h
  · rw [deliver_eq ht] at h
    exact ⟨team, sent, ht, (Except.ok.inj h).symm⟩

/-- Whoever takes in results sends nothing. -/
theorem sent_of_result {team next : Team K G} {sent : List (Outgoing K)}
    (h : team.Replies event.outgoing next sent) (hr : event.receiver? = none) : sent = [] := by
  have hcollector : team.deliverToCollector event.outgoing.message = (next, .ok sent) → sent = [] := by
    intro hc
    unfold Team.deliverToCollector at hc
    split at hc
    · cases hc
    · cases hc
      rfl
  unfold Event.receiver? at hr
  unfold Team.Replies Team.deliver at h
  cases hd : event.outgoing.destination with
  | agent name =>
    rw [hd] at hr
    cases hr
  | collector =>
    rw [hd] at h
    exact hcollector h
  | orchestrator =>
    rw [hd] at h
    exact hcollector h

/-- Events are delivered in turn, each as the first one of the queue. -/
inductive Delivers : Simulation K G → List (Event K) → Simulation K G → Prop
  | nil (simulation : Simulation K G) : Delivers simulation [] simulation
  | cons {simulation next last : Simulation K G} {event : Event K} {queue : Timeline K}
      {events : List (Event K)} (hq : simulation.queue = event :: queue)
      (hd : deliver { simulation with queue } event = .ok next) (h : Delivers next events last) :
      Delivers simulation (event :: events) last

/-- Deliveries continue a course with the agents' own answers. -/
theorem Delivers.exists_course {last : Simulation K G} {events : List (Event K)}
    (h : simulation.Delivers events last)
    (hcourse : Course Team.Replies team messages simulation journal) :
    ∃ later, Course Team.Replies team messages last later ∧
      later.events = journal.events ++ events := by
  induction h generalizing journal with
  | nil => exact ⟨journal, hcourse, by simp⟩
  | @cons simulation next last event queue events hq hd _ ih =>
    obtain ⟨posting, rest, hj, rfl, -⟩ := hcourse.exists_posting hq
    obtain ⟨team, sent, hreplies, rfl⟩ := exists_of_deliver hd
    obtain ⟨later, hlater, hevents⟩ := ih
      (hcourse.deliver hq hj hreplies (sent_of_result hreplies))
    exact ⟨later, hlater, by simp [hevents]⟩

/-- The events that a run delivers, in turn. -/
def delivered (outOfTime : Nat → Bool) (simulation : Simulation K G) (limit : Nat) :
    List (Event K) :=
  match simulation.queue with
  | [] => []
  | event :: queue =>
    match limit with
    | 0 => []
    | limit + 1 =>
      let count := simulation.statistics.messages
      if count % 256 = 0 && outOfTime count then []
      else
        match { simulation with queue }.deliver event with
        | .error _ => []
        | .ok next => event :: if next.isOver event then [] else next.delivered outOfTime limit

theorem delivered_of_nil (hq : simulation.queue = []) {outOfTime : Nat → Bool} {limit : Nat} :
    simulation.delivered outOfTime limit = [] := by
  cases limit <;> rw [delivered, hq]

/-- How a run comes to an end: with a result, or with an error when nothing is left to deliver or the
next delivery fails. -/
def Ends (last : Simulation K G) (result : Except RunError (Simulation K G)) : Prop :=
  result = .ok last ∨ result = .ok last.stop ∨ last.queue = [] ∧ result = .error .stalled ∨
  ∃ event queue error, last.queue = event :: queue ∧
    deliver { last with queue } event = .error error ∧ result = .error error

theorem exists_end (simulation : Simulation K G) (outOfTime : Nat → Bool) (limit : Nat) :
    ∃ last, simulation.Delivers (simulation.delivered outOfTime limit) last ∧
      last.Ends (simulation.run outOfTime limit) := by
  fun_induction run outOfTime simulation limit with
  | case1 limit simulation hq hall =>
    rw [delivered_of_nil hq]
    exact ⟨simulation, .nil _, .inl rfl⟩
  | case2 limit simulation hq =>
    rw [delivered_of_nil hq]
    exact ⟨simulation, .nil _, .inr (.inr (.inl ⟨hq, rfl⟩))⟩
  | case3 simulation event queue hq =>
    rw [delivered, hq]
    exact ⟨simulation, .nil _, .inr (.inl rfl)⟩
  | case4 simulation event queue hq limit count htime =>
    rw [delivered, hq]
    simp only [count, htime]
    exact ⟨simulation, .nil _, .inr (.inl rfl)⟩
  | case5 simulation event queue hq limit count htime error herror =>
    rw [delivered, hq]
    simp only [herror, ite_self]
    exact ⟨simulation, .nil _, .inr (.inr (.inr ⟨event, queue, error, hq, herror, rfl⟩))⟩
  | case6 simulation event queue hq limit count htime next hnext hover =>
    rw [delivered, hq]
    simp only [count, htime, hnext, hover]
    exact ⟨next, .cons hq hnext (.nil _), .inl rfl⟩
  | case7 simulation event queue hq limit count htime next hnext hover ih =>
    obtain ⟨last, hdelivers, hends⟩ := ih
    rw [delivered, hq]
    simp only [count, htime, hnext, hover]
    exact ⟨last, .cons hq hnext hdelivers, hends⟩

/-- The time is up before the next delivery. -/
def isUp (outOfTime : Nat → Bool) (simulation : Simulation K G) : Bool :=
  simulation.statistics.messages % 256 = 0 && outOfTime simulation.statistics.messages

/-- A run that ends by itself, when nothing is left or the last agent has finished. -/
inductive Finishes (outOfTime : Nat → Bool) :
    Simulation K G → List (Event K) → Simulation K G → Prop
  | emptied {simulation : Simulation K G} (hq : simulation.queue = [])
      (hall : simulation.team.allFinished = true) : Finishes outOfTime simulation [] simulation
  | ends {simulation last : Simulation K G} {event : Event K} {queue : Timeline K}
      (hq : simulation.queue = event :: queue) (htime : simulation.isUp outOfTime = false)
      (hd : deliver { simulation with queue } event = .ok last) (hover : last.isOver event = true) :
      Finishes outOfTime simulation [event] last
  | continues {simulation next last : Simulation K G} {event : Event K} {queue : Timeline K}
      {events : List (Event K)} (hq : simulation.queue = event :: queue)
      (htime : simulation.isUp outOfTime = false)
      (hd : deliver { simulation with queue } event = .ok next) (hover : next.isOver event = false)
      (h : Finishes outOfTime next events last) : Finishes outOfTime simulation (event :: events) last

/-- A run that is not stopped ends by itself. -/
theorem exists_finishes {outOfTime : Nat → Bool} {limit : Nat} {last : Simulation K G}
    (h : simulation.run outOfTime limit = .ok last)
    (hlast : last.statistics.timedOut = false) : ∃ events, simulation.Finishes outOfTime events last := by
  induction limit generalizing simulation with
  | zero =>
    unfold run at h
    split at h
    next hq =>
      split at h
      next hall => exact ⟨[], Except.ok.inj h ▸ .emptied hq hall⟩
      · cases h
    next =>
      obtain rfl := Except.ok.inj h
      cases hlast
  | succ limit ih =>
    unfold run at h
    split at h
    next hq =>
      split at h
      next hall => exact ⟨[], Except.ok.inj h ▸ .emptied hq hall⟩
      · cases h
    next event queue hq =>
      simp only at h
      split at h
      · obtain rfl := Except.ok.inj h
        cases hlast
      next htime =>
        have htime : simulation.isUp outOfTime = false := by simpa [isUp] using htime
        split at h
        · cases h
        next next hnext =>
          split at h
          next hover =>
            obtain rfl := Except.ok.inj h
            exact ⟨[event], .ends hq htime hnext hover⟩
          next hover =>
            obtain ⟨events, hevents⟩ := ih h
            exact ⟨event :: events, .continues hq htime hnext (by simpa using hover) hevents⟩

namespace Finishes

variable {outOfTime : Nat → Bool} {last : Simulation K G} {events : List (Event K)}

theorem toDelivers (h : simulation.Finishes outOfTime events last) :
    simulation.Delivers events last := by
  induction h with
  | emptied => exact .nil _
  | ends hq _ hd => exact .cons hq hd (.nil _)
  | continues hq _ hd _ _ ih => exact .cons hq hd ih

theorem allFinished (h : simulation.Finishes outOfTime events last) :
    last.team.allFinished = true := by
  induction h with
  | emptied _ hall => exact hall
  | ends _ _ _ hover =>
    unfold isOver at hover
    split at hover
    · cases hover
    · exact hover
    · exact hover
  | continues _ _ _ _ _ ih => exact ih

end Finishes

end Simulation

/-- What a journal says about order and loss in a run. -/
structure Journal.InOrder (journal : Journal K) (simulation : Simulation K G) : Prop where
  /-- The messages are numbered as they are sent. -/
  numbered : journal.posted.map Posting.number = List.range journal.posted.length
  /-- The queue has the messages that are under way.  The first of them, which is delivered next, has
  the earliest time and among those of that time the lowest number. -/
  queue : journal.queued.map Posting.event = simulation.queue
  earliest : journal.queued.Pairwise Posting.Before
  /-- The times of the messages that are delivered do not decrease. -/
  times : journal.received.Pairwise (·.posting.event.time ≤ ·.posting.event.time)
  /-- The clock of an agent moves on from one of its messages to the next. -/
  clocks : journal.received.Pairwise fun first second => ∀ agent,
    first.posting.event.receiver? = some agent → second.posting.event.receiver? = some agent →
      first.time < second.time
  /-- Two messages of a sender are delivered in the order in which they were sent; one that is still
  under way was sent after all of its sender that have been delivered. -/
  inTurn : journal.course.Pairwise fun first second =>
    first.sender = second.sender → first.number < second.number
  /-- What has been delivered and what is under way is what has been sent, each once. -/
  whole : journal.course.Perm journal.posted

theorem Journal.Kept.inTurn {clock : String → Nat} {journal : Journal K} (h : journal.Kept clock) :
    journal.course.Pairwise fun first second =>
      first.sender = second.sender → first.number < second.number := by
  have hposted : journal.posted.Pairwise fun first second => first.number < second.number := by
    rw [← List.pairwise_map, h.numbered]
    exact List.pairwise_lt_range
  have hsender : ∀ sender, (journal.course.filter (·.sender = sender)).Pairwise
      fun first second => first.number < second.number := by
    intro sender
    rw [h.senders]
    exact hposted.filter _
  refine List.pairwise_iff_forall_sublist.mpr fun {first second} hsub hs => ?_
  have hfilter := hsub.filter (·.sender = second.sender)
  simp only [List.filter_cons, hs, decide_true, if_true, List.filter_nil] at hfilter
  exact List.pairwise_iff_forall_sublist.mp (hsender second.sender) hfilter

variable [CostArithmetic K] [Generator G]

/-- Along every course of a run, however its agents answer, the messages keep their order and none is
lost; and the deliveries of the run itself, up to its end or to where a limit stops it, are such a
course with the answers of its agents. -/
theorem Simulation.keeps_order (team : Team K G) (messages : List (Outgoing K)) :
    (∀ answers simulation journal, Course answers team messages simulation journal →
      journal.InOrder simulation) ∧
    ∀ outOfTime limit, ∃ last journal, Course Team.Replies team messages last journal ∧
      journal.events = (Simulation.new team messages).delivered outOfTime limit ∧
      last.Ends ((Simulation.new team messages).run outOfTime limit) := by
  constructor
  · intro answers simulation journal h
    obtain ⟨hkept, hqueue⟩ := h.kept
    have htimes := (List.pairwise_append.mp hkept.times).1
    rw [List.pairwise_map] at htimes
    refine ⟨hkept.numbered, hqueue, hkept.sorted, htimes, ?_, hkept.inTurn, hkept.whole⟩
    refine hkept.handled.imp fun hless agent hfirst hsecond => ?_
    exact hless agent (Event.receiver?_eq_some.mp hfirst) (Event.receiver?_eq_some.mp hsecond)
  · intro outOfTime limit
    obtain ⟨last, hdelivers, hends⟩ := (Simulation.new team messages).exists_end outOfTime limit
    obtain ⟨journal, hcourse, hevents⟩ := hdelivers.exists_course .start
    exact ⟨last, journal, hcourse, hevents.trans (by simp [Journal.events, Journal.empty]), hends⟩

/-- The course of the chain, with its twenty-eight deliveries to three agents and their collector. -/
theorem Simulation.order_chain : ∃ messages last journal,
    firstMessages Problem.chain (.generate .chain) = .ok messages ∧
    Course Team.Replies (Team.new Problem.chain .content 1 : Team (Exact ℚ) ChaCha.Stream) messages
      last journal ∧
    journal.events.length = 28 ∧ journal.InOrder last := by
  have hany : (firstMessages (K := Exact ℚ) Problem.chain (.generate .chain)).toOption.any
      fun messages => ((Simulation.new (.new Problem.chain .content 1 : Team _ ChaCha.Stream)
        messages).delivered (fun _ => false) 30).length == 28 := by
    decide +kernel
  obtain ⟨messages, hmessages, hlength⟩ := exists_of_any hany
  obtain ⟨hin, hrun⟩ := Simulation.keeps_order
    (Team.new Problem.chain .content 1 : Team (Exact ℚ) ChaCha.Stream) messages
  obtain ⟨last, journal, hcourse, hevents, -⟩ := hrun (fun _ => false) 30
  exact ⟨messages, last, journal, hmessages, hcourse, hevents ▸ beq_iff_eq.mp hlength,
    hin _ last journal hcourse⟩

end DcopSearch
