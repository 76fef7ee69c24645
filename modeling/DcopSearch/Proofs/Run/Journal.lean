import DcopSearch.Proofs.Run.Ordered

/-! What becomes of the messages of a run along simulated clocks, whatever its agents do.  A journal
numbers the messages as they are sent and follows them from the queue to their delivery.  The queue is
in the order of times and, among equal times, of numbers; and since no message of an agent is under
way with a time that its clock has not reached, an agent's next message comes after all of these. -/

namespace DcopSearch

variable {K G : Type}

/-- A message that was sent, with its number among all and the agent that sent it.  The messages that
a run begins with have no sender. -/
structure Posting (K : Type) where
  number : Nat
  sender : Option String
  event : Event K

/-- A delivery, with the time at which the receiver handles it. -/
structure Receipt (K : Type) where
  posting : Posting K
  time : Nat

/-- The messages sent, in the order of their sending; those delivered, in the order of their delivery;
and those under way. -/
structure Journal (K : Type) where
  posted : List (Posting K)
  received : List (Receipt K)
  queued : List (Posting K)

namespace Posting

/-- One message comes before another in the queue. -/
def Before (first second : Posting K) : Prop :=
  first.event.time < second.event.time ∨
    first.event.time = second.event.time ∧ first.number < second.number

theorem Before.time_le {first second : Posting K} (h : first.Before second) :
    first.event.time ≤ second.event.time := by
  unfold Before at h
  omega

variable {posting : Posting K} {queue : List (Posting K)}

/-- The newest message takes its place among the others. -/
theorem pairwise_push (h : queue.Pairwise Before)
    (hnew : ∀ other ∈ queue, other.number < posting.number) :
    (Timeline.push (·.event.time) posting queue).Pairwise Before := by
  refine Timeline.pairwise_push (h.imp Before.time_le) h (fun other ho hle => ?_)
    fun other _ hlt => .inl hlt
  have := hnew other ho
  unfold Before
  omega

/-- A message comes after all earlier ones of its sender. -/
theorem filter_push (h : queue.Pairwise Before)
    (hlate : ∀ other ∈ queue, other.sender = posting.sender → other.event.time ≤ posting.event.time)
    (sender : Option String) :
    (Timeline.push (·.event.time) posting queue).filter (·.sender = sender)
      = queue.filter (·.sender = sender) ++ [posting].filter (·.sender = sender) := by
  induction queue with
  | nil => rfl
  | cons first rest ih =>
    obtain ⟨hfirst, hrest⟩ := List.pairwise_cons.mp h
    rw [Timeline.push]
    split
    next hle =>
      rw [List.filter_cons, List.filter_cons, ih hrest fun other ho => hlate other (by simp [ho])]
      split <;> rfl
    next hlt =>
      -- whatever is later than the message has another sender
      by_cases hs : posting.sender = sender
      · have hnone : (first :: rest).filter (·.sender = sender) = [] := by
          rw [List.filter_eq_nil_iff]
          intro other ho
          have hother : ¬other.event.time ≤ posting.event.time := by
            rcases List.mem_cons.mp ho with rfl | ho
            · exact hlt
            · have := (hfirst other ho).time_le
              omega
          simpa using fun he => hother (hlate other ho (he.trans hs.symm))
        rw [List.filter_cons, if_pos (by simpa using hs), hnone]
        simp [hs]
      · rw [List.filter_cons, if_neg (by simpa using hs)]
        simp [hs]

end Posting

namespace Journal

def empty : Journal K := { posted := [], received := [], queued := [] }

/-- All messages that are not lost: those delivered, then those under way. -/
def course (journal : Journal K) : List (Posting K) :=
  journal.received.map Receipt.posting ++ journal.queued

def events (journal : Journal K) : List (Event K) := journal.received.map (·.posting.event)

/-- Takes down messages that are sent at one time. -/
def post (sender : Option String) (time : Nat) : List (Outgoing K) → Journal K → Journal K
  | [], journal => journal
  | outgoing :: rest, journal =>
    let posting : Posting K := { number := journal.posted.length, sender, event := { time, outgoing } }
    post sender time rest { journal with
      posted := journal.posted ++ [posting]
      queued := Timeline.push (·.event.time) posting journal.queued }

/-- Takes down that the first message of the queue is handled. -/
def receive (posting : Posting K) (rest : List (Posting K)) (time : Nat) (journal : Journal K) :
    Journal K :=
  { journal with received := journal.received ++ [{ posting, time }], queued := rest }

@[simp] theorem received_post (sender : Option String) (time : Nat) (messages : List (Outgoing K))
    (journal : Journal K) : (journal.post sender time messages).received = journal.received := by
  induction messages generalizing journal with
  | nil => rfl
  | cons outgoing rest ih => exact ih _

@[simp] theorem events_post (sender : Option String) (time : Nat) (messages : List (Outgoing K))
    (journal : Journal K) : (journal.post sender time messages).events = journal.events := by
  rw [events, received_post, events]

@[simp] theorem events_receive (posting : Posting K) (rest : List (Posting K)) (time : Nat)
    (journal : Journal K) :
    (journal.receive posting rest time).events = journal.events ++ [posting.event] := by
  simp [events, receive]

theorem map_event_post (sender : Option String) (time : Nat) (messages : List (Outgoing K))
    (journal : Journal K) : (journal.post sender time messages).queued.map Posting.event
      = Timeline.pushAll time messages (journal.queued.map Posting.event) := by
  induction messages generalizing journal with
  | nil => rfl
  | cons outgoing rest ih =>
    rw [post, ih, Timeline.map_push Posting.event]
    rfl

theorem posted_post (sender : Option String) (time : Nat) (messages : List (Outgoing K))
    (journal : Journal K) : ∃ postings,
      (journal.post sender time messages).posted = journal.posted ++ postings ∧
      (∀ posting ∈ postings, posting.sender = sender) ∧
      postings.map (·.event.outgoing) = messages := by
  induction messages generalizing journal with
  | nil => exact ⟨[], by simp [post]⟩
  | cons outgoing rest ih =>
    obtain ⟨postings, hposted, hsender, hmessages⟩ := ih _
    refine ⟨_ :: postings, by rw [post, hposted, List.append_assoc]; rfl, ?_, ?_⟩
    · simpa using hsender
    · rw [List.map_cons, hmessages]

/-- What holds of a journal when the agents' clocks have come to the given times. -/
structure Kept (clock : String → Nat) (journal : Journal K) : Prop where
  numbered : journal.posted.map Posting.number = List.range journal.posted.length
  whole : journal.course.Perm journal.posted
  senders : ∀ sender,
    journal.course.filter (·.sender = sender) = journal.posted.filter (·.sender = sender)
  sorted : journal.queued.Pairwise Posting.Before
  times : journal.course.Pairwise (·.event.time ≤ ·.event.time)
  handled : journal.received.Pairwise fun first second => ∀ agent,
    first.posting.event.outgoing.destination = .agent agent →
    second.posting.event.outgoing.destination = .agent agent → first.time < second.time
  sent : ∀ posting ∈ journal.queued, ∀ agent, posting.sender = some agent →
    posting.event.time ≤ clock agent
  reached : ∀ receipt ∈ journal.received, ∀ agent,
    receipt.posting.event.outgoing.destination = .agent agent → receipt.time ≤ clock agent

theorem kept_empty (clock : String → Nat) : (empty : Journal K).Kept clock := by
  constructor <;> simp [empty, course]

namespace Kept

variable {clock clock' : String → Nat} {journal : Journal K}

theorem number_lt (h : journal.Kept clock) {posting : Posting K} (hp : posting ∈ journal.posted) :
    posting.number < journal.posted.length := by
  rw [← List.mem_range, ← h.numbered]
  exact List.mem_map_of_mem hp

/-- Messages are sent at a time that the sender's clock has reached and that is not in the past. -/
theorem post (h : journal.Kept clock) {sender : Option String} {time : Nat}
    (hsender : ∀ agent, sender = some agent → time ≤ clock agent)
    (hlate : ∀ posting ∈ journal.queued, posting.sender = sender → posting.event.time ≤ time)
    (hpast : ∀ receipt ∈ journal.received, receipt.posting.event.time ≤ time)
    (messages : List (Outgoing K)) : (journal.post sender time messages).Kept clock := by
  induction messages generalizing journal with
  | nil => exact h
  | cons outgoing rest ih =>
    let posting : Posting K := { number := journal.posted.length, sender, event := { time, outgoing } }
    let next : Journal K := { journal with
      posted := journal.posted ++ [posting]
      queued := Timeline.push (·.event.time) posting journal.queued }
    have hcourse : next.course.Perm (journal.course ++ [posting]) := by
      have hpush := (Timeline.push_perm (·.event.time) posting journal.queued).append_left
        (journal.received.map Receipt.posting)
      exact hpush.trans (List.perm_middle.trans (List.perm_append_singleton posting _).symm)
    have hnumber : ∀ other ∈ journal.queued, other.number < posting.number := by
      intro other ho
      exact h.number_lt (h.whole.mem_iff.mp (List.mem_append_right _ ho))
    have hnext : next.Kept clock := by
      refine ⟨?_, hcourse.trans (h.whole.append_right _), fun other => ?_,
        Posting.pairwise_push h.sorted hnumber, ?_, h.handled, fun other ho agent ha => ?_, h.reached⟩
      · simp [next, posting, h.numbered, List.range_succ]
      · have hpush : next.queued.filter (·.sender = other) = _ :=
          Posting.filter_push h.sorted hlate other
        have hbefore := h.senders other
        simp only [course, List.filter_append] at hbefore ⊢
        rw [hpush, ← List.append_assoc, hbefore]
        exact (List.filter_append _ _).symm
      · obtain ⟨hreceived, -, hcross⟩ := List.pairwise_append.mp h.times
        refine List.pairwise_append.mpr ⟨hreceived, ?_, fun first hfirst second hsecond => ?_⟩
        · exact (Posting.pairwise_push h.sorted hnumber).imp Posting.Before.time_le
        · rcases Timeline.mem_push.mp hsecond with rfl | hsecond
          · obtain ⟨receipt, hr, rfl⟩ := List.mem_map.mp hfirst
            exact hpast receipt hr
          · exact hcross first hfirst second hsecond
      · rcases Timeline.mem_push.mp ho with rfl | ho
        · exact hsender agent ha
        · exact h.sent other ho agent ha
    refine ih hnext (fun other ho hs => ?_) hpast
    rcases Timeline.mem_push.mp ho with rfl | ho
    · exact le_rfl
    · exact hlate other ho hs

/-- The first message of the queue is handled at a time that was not reached before. -/
theorem receive (h : journal.Kept clock) {posting : Posting K} {rest : List (Posting K)} {time : Nat}
    (hq : journal.queued = posting :: rest) (hclock : ∀ agent, clock agent ≤ clock' agent)
    (hreceiver : ∀ agent, posting.event.outgoing.destination = .agent agent →
      clock agent < time ∧ time ≤ clock' agent) :
    (journal.receive posting rest time).Kept clock' := by
  have hcourse : (journal.receive posting rest time).course = journal.course := by
    simp [course, Journal.receive, hq]
  refine ⟨h.numbered, hcourse ▸ h.whole, hcourse ▸ h.senders, ?_, hcourse ▸ h.times, ?_,
    fun other ho agent ha => ?_, fun receipt hr agent ha => ?_⟩
  · exact (List.pairwise_cons.mp (hq ▸ h.sorted)).2
  · refine List.pairwise_append.mpr ⟨h.handled, List.pairwise_singleton _ _, ?_⟩
    intro first hfirst second hsecond agent ha hb
    obtain rfl := List.mem_singleton.mp hsecond
    have hbefore := h.reached first hfirst agent ha
    have hafter := (hreceiver agent hb).1
    show first.time < time
    omega
  · have hsent := h.sent other (by rw [hq]; exact List.mem_cons_of_mem _ ho) agent ha
    have := hclock agent
    omega
  · rcases List.mem_append.mp hr with hr | hr
    · have hbefore := h.reached receipt hr agent ha
      have := hclock agent
      omega
    · obtain rfl := List.mem_singleton.mp hr
      exact (hreceiver agent ha).2

end Kept

end Journal

end DcopSearch
