import DcopSearch.Proofs.Network.Confluence
import DcopSearch.Proofs.Sampling.Tallied

/-! What has been delivered when nothing is left to deliver.  The books of the variables and the results
that they have announced are kept along every order of delivery; at its end all variables have ended,
and the books say what has come along every edge of the tree. -/

namespace DcopSearch

open World Outgoing

variable {K G : Type}

namespace Message

/-- The variable whose view comes. -/
def views? : Message K → Option String
  | .view name _ => some name
  | _ => none

def ranges? : Message K → Option String
  | .range report => some report.receiver
  | _ => none

def divides? : Message K → Option String
  | .divisor receiver _ => some receiver
  | _ => none

/-- The edge along which a final context comes. -/
def closes? : Message K → Option (String × String)
  | .context c => if c.final then some (c.sender, c.receiver) else none
  | _ => none

/-- The sender of a context that is to be answered. -/
def asks? : Message K → Option String
  | .context c => if c.final then none else some c.sender
  | _ => none

def answers? : Message K → Option String
  | .cost receiver _ => some receiver
  | _ => none

section

variable {message : Message K} {name : String}

theorem isResult_of_assigns (h : message.assigns? = some name) : message.isResult = true := by
  cases message <;> simp [assigns?, isResult] at h ⊢

theorem isResult_of_finishes (h : message.finishes? = some name) : message.isResult = true := by
  cases message <;> simp [finishes?, isResult] at h ⊢

theorem isResult_of_bounds (h : message.bounds?.isSome) : message.isResult = true := by
  cases message <;> simp [bounds?, isResult] at h ⊢

theorem credit_of_isResult (h : message.isResult = true) :
    message.credit = 0 ∧ message.debit = 0 := by
  cases message <;> simp [isResult, credit, debit] at h ⊢

end

end Message

namespace Setup

/-- The edges of the tree, each from the parent to the child. -/
def edges (setup : Setup K) : List (String × String) :=
  setup.problem.names.filterMap fun name => (setup.parent name).map (·, name)

def roots (setup : Setup K) : List String :=
  setup.problem.names.filter fun name => (setup.parent name).isNone

/-- The roots that have children. -/
def heads (setup : Setup K) : List String :=
  setup.roots.filter fun name => !(setup.children name).isEmpty

/-- Every variable but the roots has an edge to its parent. -/
theorem length_edges (setup : Setup K) :
    setup.edges.length + setup.roots.length = setup.problem.names.length := by
  rw [edges, roots, List.length_filterMap_eq_countP, ← List.countP_eq_length_filter,
    List.length_eq_countP_add_countP fun name => (setup.parent name).isSome]
  refine congrArg₂ _ (List.countP_congr fun name _ => ?_) (List.countP_congr fun name _ => ?_)
  · simp
  · cases setup.parent name <;> simp

theorem mem_heads {setup : Setup K} {name : String} : name ∈ setup.heads ↔
    name ∈ setup.problem.names ∧ setup.parent name = none ∧ setup.children name ≠ [] := by
  simp only [heads, roots, List.mem_filter]
  simp [and_assoc]

theorem nodup_heads (setup : Setup K) : setup.heads.Nodup :=
  (setup.problem.nodup_names.filter _).filter _

/-- What stands in the books for a variable at the end. -/
def due (setup : Setup K) (name : String) : Books :=
  .view name + (setup.parent name).elim 0 fun parent =>
    .range parent + .divisor name + .final parent name

/-- One view for every variable, and one entry of each other kind for every edge. -/
theorem sum_due (setup : Setup K) : (setup.problem.names.map setup.due).sum
    = (↑setup.problem.names, ↑(setup.edges.map Prod.fst), ↑(setup.edges.map Prod.snd),
      ↑setup.edges, 0) := by
  unfold edges
  induction setup.problem.names with
  | nil => rfl
  | cons name rest ih =>
    rw [List.map_cons, List.sum_cons, ih]
    cases hp : setup.parent name <;>
      simp [due, hp, Books.view, Books.range, Books.divisor, Books.final]

/-- What has been delivered, after the starts, when nothing is left. -/
structure Reckons (setup : Setup K) (messages : List (Outgoing K)) : Prop where
  started : ∀ outgoing ∈ messages, outgoing.message ≠ .start
  views : (messages.filterMap (·.message.views?)).Perm setup.problem.names
  ranges : (messages.filterMap (·.message.ranges?)).Perm (setup.edges.map Prod.fst)
  divisors : (messages.filterMap (·.message.divides?)).Perm (setup.edges.map Prod.snd)
  finals : (messages.filterMap (·.message.closes?)).Perm setup.edges
  /-- Every variable has got as many answers as it has sent contexts that are to be answered. -/
  costs : (messages.filterMap (·.message.answers?)).Perm (messages.filterMap (·.message.asks?))
  values : (messages.filterMap (·.message.assigns?)).Perm setup.problem.names
  finishes : (messages.filterMap (·.message.finishes?)).Perm setup.problem.agents
  bounds : (messages.filterMap (·.message.bounds?)).length ≤ setup.heads.length

end Setup

namespace Outgoing

/-- The columns of the books. -/
theorem credits_coe (messages : List (Outgoing K)) : credits (↑messages : Multiset (Outgoing K))
    = (↑(messages.filterMap (·.message.views?)), ↑(messages.filterMap (·.message.ranges?)),
      ↑(messages.filterMap (·.message.divides?)), ↑(messages.filterMap (·.message.closes?)),
      ↑(messages.filterMap (·.message.asks?))) := by
  induction messages with
  | nil => rfl
  | cons outgoing rest ih =>
    rw [← Multiset.cons_coe, ← Multiset.singleton_add, credits_add, credits_singleton, ih]
    cases hm : outgoing.message with
    | context c =>
      cases hf : c.final <;>
        simp [hm, hf, Message.credit, Message.views?, Message.ranges?, Message.divides?,
          Message.closes?, Message.asks?, Books.handed, Books.final, Books.request]
    | _ =>
      simp [hm, Message.credit, Message.views?, Message.ranges?, Message.divides?, Message.closes?,
        Message.asks?, Books.view, Books.range, Books.divisor]

theorem debits_coe (messages : List (Outgoing K)) :
    debits (↑messages : Multiset (Outgoing K))
      = (0, 0, 0, 0, ↑(messages.filterMap (·.message.answers?))) := by
  induction messages with
  | nil => rfl
  | cons outgoing rest ih =>
    rw [← Multiset.cons_coe, ← Multiset.singleton_add, debits_add, debits_singleton, ih]
    cases hm : outgoing.message <;>
      simp [hm, Message.debit, Message.answers?, Books.request]

end Outgoing

/-- Messages that name each of some names once name these. -/
theorem Outgoing.perm_of_countP {messages : List (Outgoing K)} {names : List String}
    {named : Message K → Option String} (hnodup : names.Nodup)
    (h : ∀ name, (↑messages : Multiset (Outgoing K)).countP (fun outgoing =>
      named outgoing.message = some name) = if name ∈ names then 1 else 0) :
    (messages.filterMap fun outgoing => named outgoing.message).Perm names := by
  refine List.perm_iff_count.mpr fun name => ?_
  rw [List.count_filterMap, hnodup.count, ← h name, Multiset.coe_countP]
  exact List.countP_congr fun outgoing _ => by simp

theorem World.Sends.ne_start {setup : Setup K} {w : World K} {name : String} {outgoing : Outgoing K}
    (h : w.Sends setup name outgoing) : outgoing.message ≠ .start := by
  cases h <;> simp

section

variable [CostArithmetic K] {setup : Setup K} {w w' : World K} {agent name : String}

theorem Cell.Sound.booked_of_ended {c : Cell K} (h : c.Sound setup name) (hx : c.exchange = .ended) :
    c.booked setup name = setup.due name := by
  have ha := Ascent.stage_eq_normalized.mp (h.of_ended hx).1
  cases hp : setup.parent name <;>
    simp [Cell.booked, Setup.due, ha, hx, hp, Ascent.booked, Exchange.booked, add_assoc]

/-- When all variables have ended, the books are full, and no request is open. -/
theorem World.booked_of_ended (hinv : w.Inv setup)
    (hover : ∀ name ∈ setup.problem.names, (w name).exchange = .ended) :
    w.booked setup = (↑setup.problem.names, ↑(setup.edges.map Prod.fst),
      ↑(setup.edges.map Prod.snd), ↑setup.edges, 0) := by
  have hcell : ∀ name ∈ setup.problem.names, (w name).booked setup name = setup.due name :=
    fun name hn => (hinv.sound name hn).booked_of_ended (hover name hn)
  rw [booked, total, List.sum_toFinset _ setup.problem.nodup_names, List.map_congr_left hcell]
  exact setup.sum_due

/-- The results that have been sent are those of the variables that have ended. -/
structure World.Announced (setup : Setup K) (w : World K) (sent : Multiset (Outgoing K)) : Prop where
  values : ∀ name, sent.countP (fun outgoing => outgoing.message.assigns? = some name)
    = if name ∈ setup.problem.names ∧ (w name).exchange.stance = .ended then 1 else 0
  finishes : ∀ agent, sent.countP (fun outgoing => outgoing.message.finishes? = some agent)
    = if agent ∈ setup.problem.agents ∧ w.Through setup agent then 1 else 0
  bounds : sent.countP (fun outgoing => outgoing.message.bounds?.isSome)
    ≤ setup.heads.countP fun name => decide ((w name).exchange.stance = .ended)

/-- Only a root with children reports a bound, and one. -/
theorem World.Announces.countP_bounds {sent : List (Outgoing K)}
    (h : w.Announces setup agent name sent) (hinv : w.Inv setup)
    (hn : name ∈ setup.problem.names) :
    sent.countP (fun outgoing => outgoing.message.bounds?.isSome)
      ≤ if name ∈ setup.heads ∧ (w name).exchange.stance = .ended then 1 else 0 := by
  have hsound := hinv.sound name hn
  rcases h with ⟨hstance, rfl⟩ | ⟨hstance, news, rfl, hnews⟩
  · simp
  · have hzero : news.countP (fun outgoing => outgoing.message.bounds?.isSome) = 0 := by
      rcases hnews with ⟨-, rfl⟩ | ⟨-, rfl⟩ <;> simp [Message.bounds?]
    have hhead : name ∈ setup.heads
        ↔ ((w name).state.isRoot && !(w name).state.isLeaf) = true := by
      rw [Setup.mem_heads, SamplingState.isRoot, SamplingState.isLeaf, hsound.parent,
        hsound.children]
      simp [hn]
    rw [List.countP_append, hzero, add_zero, SamplingState.results]
    by_cases hm : name ∈ setup.heads
    · rw [if_pos (hhead.mp hm), if_pos ⟨hm, hstance⟩]
      cases (w name).state.finalBound? setup.config.delta <;> simp [Message.bounds?]
    · rw [if_neg fun hc => hm (hhead.mpr hc)]
      simp [Message.bounds?]

theorem World.announced_initial (valid : setup.Valid) :
    (World.initial setup).Announced setup ((World.initial setup).flight setup) := by
  have hnone : ∀ p : Outgoing K → Prop, ∀ [DecidablePred p],
      (∀ outgoing : Outgoing K, p outgoing → outgoing.message.isResult = true) →
      ((World.initial setup).flight setup).countP p = 0 := by
    intro p _ hp
    refine Multiset.countP_eq_zero.mpr fun outgoing hm hc => ?_
    obtain ⟨name, -, hsends⟩ := exists_sends valid hm
    exact Bool.false_ne_true (hsends.isResult.symm.trans (hp outgoing hc))
  refine ⟨fun name => ?_, fun agent => ?_, ?_⟩
  · rw [hnone _ fun _ => Message.isResult_of_assigns, if_neg fun hc => by cases hc.2]
  · rw [hnone _ fun _ => Message.isResult_of_finishes, if_neg]
    rintro ⟨ha, hc⟩
    obtain ⟨name, hn, ho⟩ := Problem.mem_agents.mp ha
    cases hc name (valid.wellFormed.mem_variablesOf.mpr ho)
  · rw [hnone _ fun _ => Message.isResult_of_bounds]
    exact Nat.zero_le _

omit [CostArithmetic K] in
/-- Of the roots that have ended only the variable that goes on can be new. -/
theorem World.Near.countP_heads (h : Near name w w') (hopen : (w name).exchange.stance ≠ .ended) :
    setup.heads.countP (fun name => decide ((w name).exchange.stance = .ended))
        + (if name ∈ setup.heads ∧ (w' name).exchange.stance = .ended then 1 else 0)
      ≤ setup.heads.countP fun name => decide ((w' name).exchange.stance = .ended) := by
  split
  next hended =>
    have hcount := countP_eq_succ
      (p := fun name => decide ((w name).exchange.stance = .ended))
      (q := fun name => decide ((w' name).exchange.stance = .ended)) setup.nodup_heads
      hended.1 (by simpa using hopen) (by simpa using hended.2)
      fun other _ he => by rw [(h other he).stance]
    exact hcount.ge
  next =>
    refine List.countP_mono_left fun other _ ho => ?_
    have hne : other ≠ name := fun he => hopen (by simpa [he] using ho)
    simpa [(h other hne).stance] using ho

/-- What a variable sends when a message comes adds its results, if it has ended. -/
theorem World.Announced.handle [Generator G] {sent : Multiset (Outgoing K)} {outgoing : Outgoing K}
    {answer : List (Outgoing K)} (h : w.Announced setup sent) (valid : setup.Valid)
    (hinv : w'.Inv setup) (hn : setup.problem.owner? name = some agent)
    (hsends : w.Sends setup name outgoing)
    (hhandled : Handled setup G w agent name {outgoing} answer w') :
    w'.Announced setup (sent + ↑answer) := by
  obtain ⟨letters, results, rfl, hflight, hannounces⟩ := hhandled.sends
  have hnames := Problem.mem_names_of_owner hn
  have hletters : ∀ p : Outgoing K → Prop, ∀ [DecidablePred p],
      (∀ outgoing : Outgoing K, p outgoing → outgoing.message.isResult = true) →
      (letters ++ results).countP (p ·) = results.countP (p ·) := by
    intro p _ hp
    rw [List.countP_append, List.countP_eq_zero.mpr fun letter hm hc => ?_, Nat.zero_add]
    exact Bool.false_ne_true ((hsends.isResult_of_letter valid hflight hm).symm.trans
      (hp letter (of_decide_eq_true hc)))
  refine ⟨fun other => ?_, fun other => ?_, ?_⟩
  · rw [Multiset.countP_add, Multiset.coe_countP, hletters _ fun _ => Message.isResult_of_assigns,
      h.values, hannounces.values hn hhandled.near hhandled.opened hinv]
  · rw [Multiset.countP_add, Multiset.coe_countP, hletters _ fun _ => Message.isResult_of_finishes,
      h.finishes, hannounces.finishes hn hhandled.near hhandled.opened valid]
  · rw [Multiset.countP_add, Multiset.coe_countP, hletters _ fun _ => Message.isResult_of_bounds]
    simp only [Bool.decide_eq_true]
    exact (Nat.add_le_add h.bounds (hannounces.countP_bounds hinv hnames)).trans
      (hhandled.near.countP_heads hhandled.opened)

end

namespace Network

variable [CostArithmetic K] [Generator G] {setup : Setup K} {first network : Network K G}
  {log : List (Delivery K)}

def ofLog (log : List (Delivery K)) : Multiset (Outgoing K) := ↑(log.map Delivery.outgoing)

omit [CostArithmetic K] in
theorem ofLog_concat (log : List (Delivery K)) (delivery : Delivery K) :
    ofLog (log ++ [delivery]) = ofLog log + {delivery.outgoing} := by
  rw [ofLog, List.map_append, ← Multiset.coe_add]
  rfl

/-- A delivery takes one message away and adds what is sent in answer. -/
theorem ofLog_add_pool {next : Network K G} {delivery : Delivery K} {position : Nat}
    {sent : List (Outgoing K)} (hd : network.deliverAt position = some (delivery, next))
    (hsent : delivery.outcome = .ok sent) :
    ofLog (log ++ [delivery]) + ↑next.pool = ofLog log + ↑network.pool + ↑sent := by
  obtain ⟨ho, -, hafter⟩ := deliverAt_eq_some hd
  obtain ⟨hlt, hget⟩ := List.getElem?_eq_some_iff.mp ho
  have hperm : ({delivery.outgoing} + ↑(network.pool.eraseIdx position) : Multiset (Outgoing K))
      = ↑network.pool := by
    rw [Multiset.singleton_add, Multiset.cons_coe, Multiset.coe_eq_coe, ← hget]
    exact List.getElem_cons_eraseIdx_perm hlt
  have hanswer : delivery.sent = sent := by rw [Delivery.sent, hsent]
  rw [ofLog_concat, hafter, hanswer, ← Multiset.coe_add, ← hperm]
  ac_rfl

/-- In whatever order the messages are delivered, the books are kept and the results accounted for. -/
theorem Runs.booked (h : first.Runs log network) (valid : setup.Valid)
    (hfirst : first.Shows setup (.initial setup))
    (hpool : (↑first.pool : Multiset (Outgoing K)) = (World.initial setup).flight setup) :
    ∃ w, network.Shows setup w ∧ w.booked setup + debits (ofLog log) = credits (ofLog log) ∧
      w.Announced setup (ofLog log + ↑network.pool) := by
  induction h with
  | refl =>
    refine ⟨_, hfirst, ?_, ?_⟩
    · simp [ofLog, booked_initial]
    · rw [hpool]
      simpa [ofLog] using announced_initial valid
  | @deliver log network next delivery position _ hd ih =>
    obtain ⟨w, hshows, hbooked, hannounced⟩ := ih
    obtain ⟨sent, w', houtcome, hnext, hcase⟩ := hshows.deliverAt valid hd
    refine ⟨w', hnext, ?_, ?_⟩
    · rw [ofLog_concat, debits_add, credits_add, debits_singleton, credits_singleton, ← hbooked]
      rcases hcase with ⟨hresult, rfl, -⟩ | ⟨name, agent, -, -, hhandled⟩
      · obtain ⟨hcredit, hdebit⟩ := Message.credit_of_isResult hresult
        rw [hcredit, hdebit, add_zero, add_zero]
      · have hstep := hhandled.booked
        rw [debits_singleton, credits_singleton] at hstep
        rw [add_right_comm, ← hstep]
        ac_rfl
    · rw [ofLog_add_pool hd houtcome]
      rcases hcase with ⟨-, rfl, rfl⟩ | ⟨name, agent, hn, hsends, hhandled⟩
      · simpa using hannounced
      · exact hannounced.handle valid hnext.inv hn hsends hhandled

theorem Runs.ne_start (h : first.Runs log network) (valid : setup.Valid)
    (hfirst : first.Shows setup (.initial setup)) :
    ∀ outgoing ∈ log.map Delivery.outgoing, outgoing.message ≠ .start := by
  induction h with
  | refl => simp
  | deliver position hruns hd ih =>
    obtain ⟨w, hshows, -⟩ := hruns.reaches.shows valid hfirst
    obtain ⟨_, _, _, _, hcase⟩ := hshows.deliverAt valid hd
    intro outgoing hm hstart
    rw [List.map_append, List.mem_append, List.map_singleton, List.mem_singleton] at hm
    rcases hm with hm | rfl
    · exact ih outgoing hm hstart
    · rcases hcase with ⟨hresult, -⟩ | ⟨_, _, _, hsends, _⟩
      · rw [hstart] at hresult
        cases hresult
      · exact hsends.ne_start hstart

theorem Runs.reckons (h : first.Runs log network) (valid : setup.Valid)
    (hfirst : first.Shows setup (.initial setup))
    (hpool : (↑first.pool : Multiset (Outgoing K)) = (World.initial setup).flight setup)
    (hlast : network.pool = []) : setup.Reckons (log.map Delivery.outgoing) := by
  obtain ⟨w, hshows, hbooked, hannounced⟩ := h.booked valid hfirst hpool
  obtain ⟨results, hsum, -⟩ := hshows.pool
  rw [hlast] at hsum hannounced
  obtain ⟨hflight, -⟩ := add_eq_zero.mp hsum.symm
  have hover := ended_of_quiet valid hshows.inv hshows.settled hflight
  have hended : ∀ name ∈ setup.problem.names, (w name).exchange.stance = .ended := by
    intro name hn
    rw [hover name hn]
    rfl
  have hthrough : ∀ agent, w.Through setup agent := fun agent name hm =>
    hended name (Problem.mem_names_of_owner (valid.wellFormed.mem_variablesOf.mp hm))
  rw [booked_of_ended hshows.inv hover, ofLog, debits_coe, credits_coe] at hbooked
  simp only [Prod.mk_add_mk, add_zero, zero_add, Prod.mk.injEq, Multiset.coe_eq_coe] at hbooked
  obtain ⟨hviews, hranges, hdivisors, hfinals, hcosts⟩ := hbooked
  rw [Multiset.coe_nil, add_zero, ofLog] at hannounced
  refine ⟨h.ne_start valid hfirst, hviews.symm, hranges.symm, hdivisors.symm, hfinals.symm, hcosts, ?_, ?_, ?_⟩
  · refine perm_of_countP setup.problem.nodup_names fun name => (hannounced.values name).trans ?_
    exact if_congr ⟨And.left, fun hn => ⟨hn, hended name hn⟩⟩ rfl rfl
  · refine perm_of_countP (Team.nodup_agents setup.problem)
      fun agent => (hannounced.finishes agent).trans ?_
    exact if_congr ⟨And.left, fun ha => ⟨ha, hthrough agent⟩⟩ rfl rfl
  · rw [List.length_filterMap_eq_countP, List.countP_map]
    have hbounds := hannounced.bounds.trans List.countP_le_length
    simpa [List.countP_map] using hbounds

end Network

end DcopSearch
