import DcopSearch.Proofs.Network.Agreement
import DcopSearch.Proofs.Network.Reported
import DcopSearch.Proofs.Run.Backends
import DcopSearch.Proofs.Run.Course
import DcopSearch.Proofs.Tree.Enforced

/-! What a run that ends by itself has reported, over whatever tree.  It ends when the last agent has
reported that it has finished; an agent says so after the values of its variables, and its messages are
delivered in the order in which it sends them, so the collector has every value by then. -/

namespace DcopSearch

open Outgoing

variable {K G : Type}

namespace Journal

/-- The messages that have been delivered. -/
def deliveries (journal : Journal K) : List (Outgoing K) :=
  journal.received.map (·.posting.event.outgoing)

/-- The messages that an agent has sent. -/
def sentBy (journal : Journal K) (agent : String) : List (Outgoing K) :=
  (journal.posted.filter (·.sender = some agent)).map (·.event.outgoing)

theorem sentBy_post (sender : Option String) (time : Nat) (messages : List (Outgoing K))
    (journal : Journal K) (agent : String) :
    (journal.post sender time messages).sentBy agent
      = journal.sentBy agent ++ if sender = some agent then messages else [] := by
  obtain ⟨postings, hposted, hsender, rfl⟩ := journal.posted_post sender time messages
  rw [sentBy, hposted, List.filter_append, List.map_append]
  refine congrArg _ ?_
  split
  next he =>
    rw [List.filter_eq_self.mpr fun posting hp => ?_]
    simpa [he] using hsender posting hp
  next hne =>
    rw [List.filter_eq_nil_iff.mpr fun posting hp => ?_]
    · rfl
    · simpa [hsender posting hp] using hne

/-- The messages of an agent are delivered in the order in which it sends them. -/
theorem Kept.sentBy_eq {clock : String → Nat} {journal : Journal K} (h : journal.Kept clock)
    (agent : String) : journal.sentBy agent
      = (journal.course.filter (·.sender = some agent)).map (·.event.outgoing) := by
  rw [sentBy, h.senders]

theorem Kept.exists_receipt {clock : String → Nat} {journal : Journal K} (h : journal.Kept clock)
    {outgoing : Outgoing K} (ho : outgoing ∈ journal.deliveries) :
    ∃ receipt ∈ journal.received, receipt.posting ∈ journal.posted ∧
      receipt.posting.event.outgoing = outgoing := by
  obtain ⟨receipt, hreceipt, he⟩ := List.mem_map.mp ho
  have hcourse : receipt.posting ∈ journal.course :=
    List.mem_append_left _ (List.mem_map_of_mem hreceipt)
  exact ⟨receipt, hreceipt, h.whole.mem_iff.mp hcourse, he⟩

theorem deliveries_eq (journal : Journal K) :
    journal.deliveries = journal.events.map Event.outgoing := by
  simp [deliveries, events]

theorem deliveries_post (sender : Option String) (time : Nat) (messages : List (Outgoing K))
    (journal : Journal K) : (journal.post sender time messages).deliveries = journal.deliveries := by
  rw [deliveries_eq, events_post, deliveries_eq]

theorem deliveries_receive (posting : Posting K) (rest : List (Posting K)) (time : Nat)
    (journal : Journal K) : (journal.receive posting rest time).deliveries
      = journal.deliveries ++ [posting.event.outgoing] := by
  rw [deliveries_eq, events_receive, deliveries_eq, List.map_append, List.map_singleton]

end Journal

/-- What the collector has is what was delivered to it. -/
structure Collector.Told (delivered : List (Outgoing K)) (collector : Collector K) : Prop where
  reports : ∀ name : String, collector.reports[name]?.getD 0 = (assigned delivered).count name
  values : ∀ (name : String) (value : Value), collector.assignments[name]? = some value →
    ∃ outgoing ∈ delivered, outgoing.message = .assignment name value
  valued : collector.Valued
  finished : ∀ agent ∈ collector.finished, agent ∈ finishers delivered

namespace Collector

variable {collector next : Collector K} {delivered : List (Outgoing K)} {outgoing : Outgoing K}

theorem told_empty : (empty : Collector K).Told [] := by
  constructor <;> simp [empty, Valued]

/-- What goes to an agent tells the collector nothing. -/
theorem Told.pass (h : collector.Told delivered) (ha : outgoing.message.assigns? = none)
    (hf : outgoing.message.finishes? = none) : collector.Told (delivered ++ [outgoing]) := by
  have hassigned : assigned (delivered ++ [outgoing]) = assigned delivered := by
    simp [assigned, ha]
  have hfinishers : finishers (delivered ++ [outgoing]) = finishers delivered := by
    simp [finishers, hf]
  refine ⟨fun name => hassigned ▸ h.reports name, fun name value hv => ?_, h.valued,
    fun agent hm => hfinishers ▸ h.finished agent hm⟩
  obtain ⟨other, ho, hm⟩ := h.values name value hv
  exact ⟨other, List.mem_append_left _ ho, hm⟩

/-- A report is counted for the variable that it is about. -/
theorem reports_handle [CostArithmetic K] {message : Message K}
    (h : collector.handle message = .ok next) (name : String) :
    next.reports[name]?.getD 0
      = collector.reports[name]?.getD 0 + message.assigns?.toList.count name := by
  cases message with
  | assignment other value =>
    obtain rfl := Except.ok.inj h
    by_cases he : other = name
    · subst he
      simp [Message.assigns?]
    · simp [Message.assigns?, Std.ExtTreeMap.getElem?_insert, he]
  | finalBound bound =>
    obtain rfl := Except.ok.inj h
    rfl
  | agentFinished agent =>
    obtain rfl := Except.ok.inj h
    rfl
  | _ => cases h

theorem finished_handle [CostArithmetic K] {message : Message K}
    (h : collector.handle message = .ok next) (agent : String) :
    agent ∈ next.finished ↔ agent ∈ collector.finished ∨ agent ∈ message.finishes?.toList := by
  cases message with
  | assignment other value =>
    obtain rfl := Except.ok.inj h
    simp [Message.finishes?]
  | finalBound bound =>
    obtain rfl := Except.ok.inj h
    simp [Message.finishes?]
  | agentFinished other =>
    obtain rfl := Except.ok.inj h
    rw [Std.ExtTreeSet.mem_insert, Std.LawfulEqCmp.compare_eq_iff_eq]
    simp [Message.finishes?, or_comm, eq_comm]
  | _ => cases h

theorem Told.handle [CostArithmetic K] (h : collector.Told delivered)
    (hnext : collector.handle outgoing.message = .ok next) :
    next.Told (delivered ++ [outgoing]) := by
  have hassigned : assigned (delivered ++ [outgoing])
      = assigned delivered ++ outgoing.message.assigns?.toList := by
    rw [assigned_append]
    refine congrArg _ ?_
    cases ho : outgoing.message.assigns? <;> simp [assigned, ho]
  have hfinishers : finishers (delivered ++ [outgoing])
      = finishers delivered ++ outgoing.message.finishes?.toList := by
    rw [finishers_append]
    refine congrArg _ ?_
    cases ho : outgoing.message.finishes? <;> simp [finishers, ho]
  refine ⟨fun name => ?_, fun name value hv => ?_, h.valued.handle hnext, fun agent hm => ?_⟩
  · rw [hassigned, List.count_append, ← h.reports, reports_handle hnext]
  · rcases assignments_handle hnext hv with hv | hm
    · obtain ⟨other, ho, hm⟩ := h.values name value hv
      exact ⟨other, List.mem_append_left _ ho, hm⟩
    · exact ⟨outgoing, by simp, hm⟩
  · rw [hfinishers, List.mem_append]
    exact ((finished_handle hnext agent).mp hm).imp_left (h.finished agent)

end Collector

/-- The agents of a run hold the tallies of what they have sent, and its collector what it was told. -/
structure Team.Truthful (problem : Problem K) (journal : Journal K) (team : Team K G) : Prop where
  problem_eq : team.problem = problem
  members : ∀ name, name ∈ team.agents ↔ name ∈ problem.agents
  agents : ∀ (name : String) (agent : Agent K G), team.agents[name]? = some agent →
    agent.Tallies problem name (journal.sentBy name) ∧ Sealed (journal.sentBy name)
  first : ∀ posting ∈ journal.posted, posting.sender = none →
    posting.event.outgoing.message.isResult = false
  senders : ∀ posting ∈ journal.posted, ∀ name, posting.sender = some name → name ∈ team.agents
  collector : team.collector.Told journal.deliveries

variable [CostArithmetic K] [Generator G] {problem : Problem K} {journal : Journal K}

/-- An agent has no use for results. -/
theorem Agent.isResult_of_handle {agent next : Agent K G} {message : Message K}
    {sent : List (Outgoing K)} (h : agent.handle problem message = (next, .ok sent)) :
    message.assigns? = none ∧ message.finishes? = none := by
  cases message with
  | assignment name value =>
    simp only [handle, receive] at h
    split at h <;> cases h
  | agentFinished name =>
    simp only [handle, receive] at h
    split at h <;> cases h
  | _ => exact ⟨rfl, rfl⟩

namespace Team

theorem truthful_new (problem : Problem K) (config : Config K) (seed : UInt64)
    {messages : List (Outgoing K)} (hm : ∀ outgoing ∈ messages, outgoing.message.isResult = false) :
    (new problem config seed : Team K G).Truthful problem (Journal.empty.post none 0 messages) := by
  have hagents : ∀ name, (new problem config seed : Team K G).agents[name]?
      = if name ∈ problem.agents then some (Agent.new name problem config seed) else none :=
    (fresh_new (.generated problem config) seed).agents
  obtain ⟨postings, hposted, hsender, hmessages⟩ := Journal.empty.posted_post none 0 messages
  have hsent : ∀ name, (Journal.empty.post none 0 messages).sentBy name = [] := by
    intro name
    rw [Journal.sentBy_post, if_neg (by simp)]
    rfl
  have hposted : (Journal.empty.post none 0 messages).posted = postings := hposted
  refine ⟨rfl, fun name => ?_, fun name agent ha => ?_, fun posting hp _ => ?_,
    fun posting hp name hs => ?_, ?_⟩
  · rw [Std.ExtTreeMap.mem_iff_isSome_getElem?]
    rw [hagents]
    by_cases hn : name ∈ problem.agents <;> simp [hn]
  · rw [hagents] at ha
    split at ha
    · obtain rfl := Option.some.inj ha
      rw [hsent]
      exact ⟨Agent.tallies_new name problem config seed, List.Pairwise.nil⟩
    · cases ha
  · refine hm _ ?_
    rw [← hmessages]
    exact List.mem_map_of_mem (hposted ▸ hp)
  · rw [hsender posting (hposted ▸ hp)] at hs
    cases hs
  · rw [Journal.deliveries_post]
    exact Collector.told_empty

variable {team next : Team K G} {event : Event K} {posting : Posting K} {rest : List (Posting K)}
  {sent : List (Outgoing K)}

/-- The agent that a message is for handles it. -/
theorem exists_handle {name : String} (hd : posting.event.outgoing.destination = .agent name)
    (h : team.deliver posting.event.outgoing = (next, .ok sent)) :
    ∃ agent later, team.agents[name]? = some agent ∧
      agent.handle team.problem posting.event.outgoing.message = (later, .ok sent) ∧
      next = { team with agents := team.agents.insert name later } := by
  rw [deliver, hd] at h
  simp only [deliverToAgent] at h
  split at h
  · cases h
  next agent ha =>
    rcases hhandle : agent.handle team.problem posting.event.outgoing.message with ⟨later, error | sent'⟩
    · simp [hhandle, Except.mapError] at h
    · simp only [hhandle, Except.mapError, Prod.mk.injEq, Except.ok.injEq] at h
      obtain ⟨rfl, rfl⟩ := h
      exact ⟨agent, later, ha, hhandle, rfl⟩

theorem Truthful.deliver_agent (h : team.Truthful problem journal) (wf : problem.WellFormed)
    {name : String} (hd : posting.event.outgoing.destination = .agent name)
    (hdeliver : team.deliver posting.event.outgoing = (next, .ok sent)) (rest : List (Posting K))
    (time : Nat) : next.Truthful problem
      ((journal.receive posting rest time).post (some name) time sent) := by
  obtain ⟨agent, later, ha, hhandle, rfl⟩ := exists_handle hd hdeliver
  obtain ⟨htallies, hsealed⟩ := h.agents name agent ha
  rw [h.problem_eq] at hhandle
  have hanswers := htallies.handle wf posting.event.outgoing.message
  rw [hhandle] at hanswers
  obtain ⟨hassigns, hfinishes⟩ := Agent.isResult_of_handle hhandle
  have hmember : name ∈ team.agents := by
    rw [Std.ExtTreeMap.mem_iff_isSome_getElem?, ha]
    rfl
  have hkept : ∀ other, other ∈ team.agents.insert name later ↔ other ∈ team.agents := by
    intro other
    rw [Std.ExtTreeMap.mem_insert, Std.LawfulEqCmp.compare_eq_iff_eq]
    constructor
    · rintro (rfl | ho)
      · exact hmember
      · exact ho
    · exact .inr
  obtain ⟨postings, hposted, hsender, -⟩ :=
    (journal.receive posting rest time).posted_post (some name) time sent
  refine ⟨h.problem_eq, fun other => (hkept other).trans (h.members other), fun other b hb => ?_,
    fun posting hp hs => ?_, fun posting hp other hs => (hkept other).mpr ?_, ?_⟩
  · rw [Journal.sentBy_post]
    by_cases he : name = other
    · subst he
      obtain rfl : later = b := by simpa using hb
      rw [if_pos rfl]
      exact ⟨hanswers.tallies, htallies.sampler.isSealed_append hanswers.tallies.sampler
        hanswers.concludes hsealed⟩
    · rw [if_neg (by simpa using he), List.append_nil]
      exact h.agents other b (by simpa [Std.ExtTreeMap.getElem?_insert, he] using hb)
  · rw [hposted] at hp
    rcases List.mem_append.mp hp with hp | hp
    · exact h.first posting hp hs
    · rw [hsender posting hp] at hs
      cases hs
  · rw [hposted] at hp
    rcases List.mem_append.mp hp with hp | hp
    · exact h.senders posting hp other hs
    · rw [hsender posting hp] at hs
      exact Option.some.inj hs ▸ hmember
  · rw [Journal.deliveries_post, Journal.deliveries_receive]
    exact h.collector.pass hassigns hfinishes

theorem Truthful.deliver_result (h : team.Truthful problem journal)
    (hr : posting.event.receiver? = none)
    (hdeliver : team.deliver posting.event.outgoing = (next, .ok sent)) (rest : List (Posting K))
    (time : Nat) : next.Truthful problem
      ((journal.receive posting rest time).post none time sent) := by
  obtain rfl := Simulation.sent_of_result hdeliver hr
  have hcollector : team.deliver posting.event.outgoing
      = team.deliverToCollector posting.event.outgoing.message := by
    unfold Event.receiver? at hr
    unfold deliver
    cases hd : posting.event.outgoing.destination <;> simp_all
  rw [hcollector, deliverToCollector] at hdeliver
  split at hdeliver
  · cases hdeliver
  next collector hc =>
    obtain ⟨rfl, -⟩ := Prod.mk.inj hdeliver
    refine ⟨h.problem_eq, h.members, h.agents, h.first, h.senders, ?_⟩
    rw [Journal.deliveries_post, Journal.deliveries_receive]
    exact h.collector.handle hc

/-- A delivery leaves agents and collector truthful. -/
theorem Truthful.deliver (h : team.Truthful problem journal) (wf : problem.WellFormed)
    (hdeliver : team.deliver posting.event.outgoing = (next, .ok sent)) (rest : List (Posting K))
    (time : Nat) : next.Truthful problem
      ((journal.receive posting rest time).post posting.event.receiver? time sent) := by
  cases hr : posting.event.receiver? with
  | some name => exact h.deliver_agent wf (Event.receiver?_eq_some.mp hr) hdeliver rest time
  | none => exact h.deliver_result hr hdeliver rest time

end Team

namespace Simulation

variable {messages : List (Outgoing K)} {simulation final : Simulation K G}

/-- The agents of a run are truthful in every course that they take by their own answers. -/
theorem Course.truthful (wf : problem.WellFormed) {config : Config K} {seed : UInt64}
    (hm : ∀ outgoing ∈ messages, outgoing.message.isResult = false)
    (h : Course Team.Replies (.new problem config seed) messages simulation journal) :
    simulation.team.Truthful problem journal := by
  induction h with
  | start => exact Team.truthful_new problem config seed hm
  | deliver h hq hj hreplies _ ih =>
    obtain ⟨posting, rest, hqueued, rfl, -⟩ := h.exists_posting hq
    obtain ⟨rfl, rfl⟩ := List.cons.inj (hj.symm.trans hqueued)
    exact ih.deliver wf hreplies _ _

/-- A run that no limit stops ends when every agent has finished. -/
theorem exists_solved {team : Team K G} {outOfTime : Nat → Bool} {limit : Nat}
    (hrun : (new team messages).run outOfTime limit = .ok final)
    (hfinal : final.statistics.timedOut = false) :
    final.team.allFinished = true ∧ ∃ journal, Course Team.Replies team messages final journal := by
  obtain ⟨events, hfinishes⟩ := exists_finishes hrun hfinal
  obtain ⟨journal, hcourse, -⟩ := hfinishes.toDelivers.exists_course .start
  exact ⟨hfinishes.allFinished, journal, hcourse⟩

end Simulation

namespace Team.Truthful

variable {team : Team K G} {clock : String → Nat} {name agent : String}

omit [CostArithmetic K] [Generator G] in
/-- Every result was sent by an agent, which has it in its tally. -/
theorem exists_sender (h : team.Truthful problem journal) {posting : Posting K}
    (hp : posting ∈ journal.posted) (hr : posting.event.outgoing.message.isResult = true) :
    ∃ agent, posting.sender = some agent ∧
      posting.event.outgoing ∈ journal.sentBy agent ∧
      ∃ a, team.agents[agent]? = some a ∧ a.Tallies problem agent (journal.sentBy agent) ∧
        Sealed (journal.sentBy agent) := by
  cases hs : posting.sender with
  | none =>
    rw [h.first posting hp hs] at hr
    cases hr
  | some agent =>
    obtain ⟨a, ha⟩ := Option.isSome_iff_exists.mp
      (Std.ExtTreeMap.mem_iff_isSome_getElem?.mp (h.senders posting hp agent hs))
    refine ⟨agent, rfl, ?_, a, ha, h.agents agent a ha⟩
    exact List.mem_map_of_mem (List.mem_filter.mpr ⟨hp, by simpa using hs⟩)

omit [CostArithmetic K] [Generator G] in
theorem sender_of_assigns (h : team.Truthful problem journal) {posting : Posting K}
    (hp : posting ∈ journal.posted) (ha : posting.event.outgoing.message.assigns? = some name) :
    ∃ agent, posting.sender = some agent ∧ problem.owner? name = some agent ∧
      (assigned (journal.sentBy agent)).Nodup := by
  obtain ⟨value, hm⟩ := Message.assigns?_eq_some.mp ha
  obtain ⟨agent, hs, hmem, a, -, htallies, -⟩ := h.exists_sender hp (by rw [hm]; rfl)
  exact ⟨agent, hs, htallies.sampler.owner_of_assigned (List.mem_filterMap.mpr ⟨_, hmem, ha⟩),
    htallies.sampler.once⟩

omit [CostArithmetic K] [Generator G] in
/-- When an agent has reported that it has finished, the collector has the values of its variables. -/
theorem mem_assigned (h : team.Truthful problem journal) (hkept : journal.Kept clock)
    (wf : problem.WellFormed) (hfinished : agent ∈ team.collector.finished)
    (hown : problem.owner? name = some agent) : name ∈ assigned journal.deliveries := by
  obtain ⟨news, hnews, hf⟩ := List.mem_filterMap.mp (h.collector.finished agent hfinished)
  obtain ⟨receipt, hreceipt, hposted, rfl⟩ := hkept.exists_receipt hnews
  have hresult : receipt.posting.event.outgoing.message.isResult = true := by
    cases hm : receipt.posting.event.outgoing.message <;> simp [hm, Message.finishes?] at hf ⊢
    rfl
  obtain ⟨sender, hsender, hmem, a, -, htallies, hsealed⟩ :=
    h.exists_sender hposted hresult
  -- the news are those of the sender, which has reported all its variables
  obtain ⟨rfl, hall⟩ := htallies.sampler.reported_all wf (List.mem_filterMap.mpr ⟨_, hmem, hf⟩)
  obtain ⟨report, hreport, ha⟩ := List.mem_filterMap.mp (hall name (wf.mem_variablesOf.mpr hown))
  rw [hkept.sentBy_eq] at hsealed hreport
  obtain ⟨posting, hposting, rfl⟩ := List.mem_map.mp hreport
  obtain ⟨hposting, hs⟩ := List.mem_filter.mp hposting
  rcases List.mem_append.mp hposting with hdelivered | hqueued
  · obtain ⟨other, hother, rfl⟩ := List.mem_map.mp hdelivered
    exact List.mem_filterMap.mpr ⟨_, List.mem_map_of_mem hother, ha⟩
  · -- no value is under way behind the news
    rw [Sealed, List.pairwise_map, Journal.course, List.filter_append] at hsealed
    have hnone := (List.pairwise_append.mp hsealed).2.2 receipt.posting
      (List.mem_filter.mpr ⟨List.mem_map_of_mem hreceipt, by simpa using hsender⟩) posting
      (List.mem_filter.mpr ⟨hqueued, hs⟩) (by rw [hf]; simp)
    rw [hnone] at ha
    cases ha

omit [CostArithmetic K] [Generator G] in
theorem count_le_one (h : team.Truthful problem journal) (hkept : journal.Kept clock)
    (name : String) : (assigned journal.deliveries).count name ≤ 1 := by
  by_cases hn : name ∈ assigned journal.deliveries
  · obtain ⟨outgoing, ho, ha⟩ := List.mem_filterMap.mp hn
    obtain ⟨receipt, -, hposted, rfl⟩ := hkept.exists_receipt ho
    obtain ⟨agent, -, hown, honce⟩ := h.sender_of_assigns hposted ha
    let reports (posting : Posting K) : Bool :=
      posting.event.outgoing.message.assigns? == some name
    have hsender : ∀ posting ∈ journal.posted, reports posting = true → posting.sender = some agent := by
      intro posting hp hr
      obtain ⟨other, hs, hother, -⟩ := h.sender_of_assigns hp (beq_iff_eq.mp hr)
      rw [hs, ← hother, hown]
    calc (assigned journal.deliveries).count name
        = (journal.received.map Receipt.posting).countP reports := by
          rw [assigned, List.count_filterMap, Journal.deliveries, List.countP_map, List.countP_map]
          rfl
      _ ≤ journal.course.countP reports := by
          rw [Journal.course, List.countP_append]
          omega
      _ = journal.posted.countP reports := hkept.whole.countP_eq _
      _ = (journal.posted.filter (·.sender = some agent)).countP reports := by
          rw [List.countP_filter]
          refine List.countP_congr fun posting hp => ?_
          simpa using hsender posting hp
      _ = (assigned (journal.sentBy agent)).count name := by
          rw [assigned, List.count_filterMap, Journal.sentBy, List.countP_map]
          rfl
      _ ≤ 1 := List.nodup_iff_count_le_one.mp honce name
  · rw [List.count_eq_zero.mpr hn]
    exact Nat.zero_le 1

omit [CostArithmetic K] [Generator G] in
/-- The collector has values of the variables' domains only. -/
theorem allows (h : team.Truthful problem journal) (hkept : journal.Kept clock) {value : Value}
    (hv : team.collector.assignments[name]? = some value) : problem.Allows name value := by
  obtain ⟨outgoing, ho, hm⟩ := h.collector.values name value hv
  obtain ⟨receipt, -, hposted, rfl⟩ := hkept.exists_receipt ho
  obtain ⟨agent, -, hmem, a, -, htallies, -⟩ :=
    h.exists_sender hposted (by rw [hm]; rfl)
  have hpair : receipt.posting.event.outgoing
      = ⟨receipt.posting.event.outgoing.destination, .assignment name value⟩ := by
    rw [← hm]
  exact (htallies.sampler.values _ name value (hpair ▸ hmem)).2

omit [CostArithmetic K] [Generator G] in
/-- When all agents have finished, each variable has been reported once. -/
theorem reports_eq (h : team.Truthful problem journal) (hkept : journal.Kept clock)
    (wf : problem.WellFormed) (hall : team.allFinished = true) (name : String) :
    team.collector.reports[name]?.getD 0 = if name ∈ problem.names then 1 else 0 := by
  rw [h.collector.reports]
  split
  next hn =>
    obtain ⟨agent, ho⟩ := Problem.exists_owner hn
    have hmember : agent ∈ team.agents := (h.members agent).mpr (Problem.mem_agents_of_owner ho)
    have hfinished : agent ∈ team.collector.finished := by
      rw [← Std.ExtTreeSet.contains_iff_mem]
      exact List.all_eq_true.mp hall agent (Std.ExtTreeMap.mem_keys.mpr hmember)
    have hpos := List.count_pos_iff.mpr (h.mem_assigned hkept wf hfinished ho)
    have hle := h.count_le_one hkept name
    omega
  next hn =>
    refine List.count_eq_zero.mpr fun hm => hn ?_
    obtain ⟨outgoing, ho, ha⟩ := List.mem_filterMap.mp hm
    obtain ⟨receipt, -, hposted, rfl⟩ := hkept.exists_receipt ho
    obtain ⟨agent, -, hown, -⟩ := h.sender_of_assigns hposted ha
    exact Problem.mem_names_of_owner hown

end Team.Truthful

/-- A solution that lacks nothing. -/
structure Solution.IsComplete (problem : Problem K) (solution : Solution K) : Prop where
  /-- Just the variables of the problem have values, and these are values of their domains. -/
  assigned : ∀ name, name ∈ solution.assignments ↔ name ∈ problem.names
  allowed : ∀ (name : String) (value : Value), solution.assignments[name]? = some value →
    problem.Allows name value
  /-- Every variable was reported once, and nothing else. -/
  reports : ∀ name, solution.reports[name]?.getD 0 = if name ∈ problem.names then 1 else 0
  /-- The utility is that of the assignment. -/
  utility : ∃ total, solution.utility = some total ∧
    problem.evaluate? solution.assignments = some total

omit [Generator G] in
theorem Problem.exists_evaluate (wf : problem.WellFormed) {assignment : Assignment}
    (h : problem.Assigns {name | name ∈ problem.names} (assignment[·]?)) :
    ∃ total, problem.evaluate? assignment = some total := by
  have hall : problem.spaces.all fun space => (space.utilityOf? assignment).isSome :=
    List.all_eq_true.mpr fun space hs => PseudoTree.isSome_utilityOf? wf h hs
  exact ⟨_, if_pos hall⟩

omit [CostArithmetic K] [Generator G] in
/-- A run begins with letters. -/
theorem isResult_of_firstMessages {tree : PseudoTree} {messages : List (Outgoing K)}
    (h : firstMessages problem tree = .ok messages) :
    ∀ outgoing ∈ messages, outgoing.message.isResult = false := by
  have hviews : ∀ (entries : List (String × View)) (views : List (Outgoing K)),
      Team.viewMessages problem entries = .ok views →
      ∀ outgoing ∈ views, outgoing.message.isResult = false := by
    intro entries
    induction entries with
    | nil =>
      rintro views ⟨⟩
      simp
    | cons entry rest ih =>
      intro views hv
      unfold Team.viewMessages at hv
      split at hv
      · cases hv
      next first hfirst =>
        obtain ⟨others, hothers, rfl⟩ := exists_of_map_eq_ok hv
        intro outgoing ho
        rcases List.mem_cons.mp ho with rfl | ho
        · exact (Problem.isLetter_of_toOwner rfl hfirst).kind
        · exact ih others hothers outgoing ho
  unfold firstMessages at h
  split at h
  · cases h
  split at h
  · cases h
  split at h
  · cases h
  next views hv =>
    cases h
    intro outgoing ho
    rcases List.mem_append.mp ho with ho | ho
    · obtain ⟨name, -, rfl⟩ := List.mem_map.mp ho
      rfl
    · exact hviews _ views hv outgoing ho

/-- A run along simulated clocks that is completed, over any tree, has a complete solution. -/
theorem Problem.solution_complete {problem : Problem K} (built : problem.Built) (tree : PseudoTree)
    (config : Config K) (hbackend : config.backend = .simulated) (seed : UInt64) (clock : Nat → Nat)
    {solution : Solution K} (h : problem.solveWith G tree config seed clock = .ok solution)
    (hcompleted : solution.outcome = .completed) : solution.IsComplete problem := by
  have wf := built.wellFormed
  unfold solveWith at h
  split at h
  · cases h
  next messages hfirst =>
    rw [hbackend] at h
    obtain ⟨final, hrun, rfl⟩ := exists_of_map_eq_ok h
    obtain ⟨hall, journal, hcourse⟩ :=
      Simulation.exists_solved hrun (Solution.timedOut_of_completed hcompleted)
    have htruthful := hcourse.truthful wf (isResult_of_firstMessages hfirst)
    have hkept := hcourse.kept.1
    have hreports := htruthful.reports_eq hkept wf hall
    have hassigned : ∀ name, name ∈ final.team.collector.assignments ↔ name ∈ problem.names := by
      intro name
      rw [Std.ExtTreeMap.mem_iff_isSome_getElem?]
      constructor
      · intro hs
        obtain ⟨value, hv⟩ := Option.isSome_iff_exists.mp hs
        obtain ⟨domain, hd, -⟩ := htruthful.allows hkept hv
        exact mem_names_of_domain hd
      · intro hn
        refine htruthful.collector.valued name ?_
        rw [hreports, if_pos hn]
        exact Nat.one_ne_zero
    obtain ⟨total, htotal⟩ := exists_evaluate wf fun name hn => by
      obtain ⟨value, hv⟩ := Option.isSome_iff_exists.mp
        (Std.ExtTreeMap.mem_iff_isSome_getElem?.mp ((hassigned name).mpr hn))
      exact ⟨value, hv, htruthful.allows hkept hv⟩
    refine ⟨hassigned, fun name value hv => htruthful.allows hkept hv, hreports, total, ?_, htotal⟩
    have hsize : final.team.collector.assignments.size = problem.declarations.size := by
      rw [← Std.ExtTreeMap.length_keys, ← Std.ExtTreeMap.length_keys]
      refine ((List.perm_ext_iff_of_nodup Std.ExtTreeMap.nodup_keys problem.nodup_names).mpr
        fun name => ?_).length_eq
      rw [Std.ExtTreeMap.mem_keys, hassigned]
    rw [Solution.ofTeam, htruthful.problem_eq, if_pos hsize, htotal]

/-- The chain is solved completely. -/
theorem Problem.solution_complete_chain : ∃ solution : Solution (Exact ℚ),
    Problem.chain.solveWith ChaCha.Stream (.generate .chain) .content 1 (fun _ => 0)
      = .ok solution ∧ solution.outcome = .completed ∧ solution.IsComplete .chain := by
  have hany : (Problem.chain.solveWith (K := Exact ℚ) ChaCha.Stream (.generate .chain) .content 1
      fun _ => 0).toOption.any fun solution => solution.outcome = .completed := by
    decide +kernel
  obtain ⟨solution, hsolution, hcompleted⟩ := exists_of_any hany
  have hcompleted := of_decide_eq_true hcompleted
  exact ⟨solution, hsolution, hcompleted,
    Problem.solution_complete Problem.built_chain _ _ rfl 1 _ hsolution hcompleted⟩

end DcopSearch
