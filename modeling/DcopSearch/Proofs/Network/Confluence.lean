import DcopSearch.Proofs.Network.Agreement
import DcopSearch.Proofs.Network.Commuting

/-! All orders of delivery end alike.  Where every agent owns one variable, two messages that are under
way at once can be delivered in either order; so if some order comes to an end, then every order comes
to the same end with the same messages. -/

namespace DcopSearch

open World

variable {K G : Type}

theorem insert_comm {V : Type} {entries : Std.ExtTreeMap String V} {name other : String}
    (hne : name ≠ other) {x y : V} :
    (entries.insert name x).insert other y = (entries.insert other y).insert name x := by
  refine Std.ExtTreeMap.ext_getElem? fun key => ?_
  simp only [Std.ExtTreeMap.getElem?_insert, Std.LawfulEqCmp.compare_eq_iff_eq]
  split_ifs with hother hname
  · exact absurd (hname.trans hother.symm) hne
  all_goals rfl

namespace Collector

variable {F : Type} [Field F] [LinearOrder F] [LnSqrt F] {collector next next' : Collector (Exact F)}
  {message message' : Message (Exact F)}

/-- The order of two results does not matter, unless both are the value of one variable. -/
theorem handle_comm (h : collector.handle message = .ok next)
    (h' : collector.handle message' = .ok next')
    (hne : ∀ name, message.assigns? = some name → message'.assigns? ≠ some name) :
    next.handle message' = next'.handle message := by
  cases message <;> cases h <;> cases message' <;> cases h'
  case assignment.refl.assignment.refl name value other value' =>
    have hother : name ≠ other := fun he => hne name rfl (by rw [he]; rfl)
    simp only [handle, Except.ok.injEq, mk.injEq, and_true, insert_comm hother, true_and]
    simp only [Std.ExtTreeMap.getElem?_insert, Std.LawfulEqCmp.compare_eq_iff_eq, hother,
      Ne.symm hother, if_false]
  case finalBound.refl.finalBound.refl bound bound' =>
    simp [handle, add_right_comm]
  case agentFinished.refl.agentFinished.refl agent agent' =>
    by_cases he : agent = agent'
    · rw [he]
    · have hfinished : (collector.finished.insert agent).insert agent'
          = (collector.finished.insert agent').insert agent :=
        NameSet.ext fun name => by simp [or_left_comm]
      have hcontains : (collector.finished.insert agent).contains agent'
          = collector.finished.contains agent' := by simp [he]
      have hcontains' : (collector.finished.insert agent').contains agent
          = collector.finished.contains agent := by simp [Ne.symm he]
      simp only [handle, hfinished, hcontains, hcontains']
      split <;> split <;> rfl
  all_goals rfl

end Collector

namespace Team

variable [CostArithmetic K] [Generator G] {team : Team K G} {name other : String}
  {message message' : Message K} {a b : Agent K G}

/-- Two messages for one agent are handled by it. -/
theorem inTurn_of_agent (ha : team.agents[name]? = some a) :
    inTurn (·.deliverToAgent name message) (·.deliverToAgent name message') team
      = ({ team with agents := team.agents.insert name (inTurn (·.handle team.problem message)
            (·.handle team.problem message') a).1 },
        (inTurn (·.handle team.problem message) (·.handle team.problem message') a).2.mapError
          (DeliveryError.agent name)) := by
  rcases hfirst : a.handle team.problem message with ⟨a', outcome⟩
  rcases hsecond : a'.handle team.problem message' with ⟨a'', outcome'⟩
  simp only [inTurn, deliverToAgent, ha, hfirst, hsecond, Std.ExtTreeMap.getElem?_insert_self,
    insert_insert]
  cases outcome <;> cases outcome' <;> rfl

theorem inTurn_of_agents (hne : name ≠ other) (ha : team.agents[name]? = some a)
    (hb : team.agents[other]? = some b) {sent sent' : List (Outgoing K)}
    (hsent : (a.handle team.problem message).2 = .ok sent)
    (hsent' : (b.handle team.problem message').2 = .ok sent') :
    inTurn (·.deliverToAgent name message) (·.deliverToAgent other message') team
      = inTurn (·.deliverToAgent other message') (·.deliverToAgent name message) team := by
  rcases hfirst : a.handle team.problem message with ⟨a', outcome⟩
  rcases hsecond : b.handle team.problem message' with ⟨b', outcome'⟩
  obtain rfl : outcome = .ok sent := by rw [← hsent, hfirst]
  obtain rfl : outcome' = .ok sent' := by rw [← hsent', hsecond]
  have ha' : (team.agents.insert other b')[name]? = some a := by
    rw [Std.ExtTreeMap.getElem?_insert, if_neg (by simpa using Ne.symm hne), ha]
  have hb' : (team.agents.insert name a')[other]? = some b := by
    rw [Std.ExtTreeMap.getElem?_insert, if_neg (by simpa using hne), hb]
  simp only [inTurn, deliverToAgent, ha, hb, ha', hb', hfirst, hsecond, insert_comm hne]
  simp [Except.mapError, Except.bind, Except.map, List.perm_append_comm]

theorem inTurn_of_result {collector : Collector K} (ha : team.agents[name]? = some a)
    (hc : team.collector.handle message' = .ok collector) :
    inTurn (·.deliverToAgent name message) (·.deliverToCollector message') team
      = inTurn (·.deliverToCollector message') (·.deliverToAgent name message) team := by
  rcases hfirst : a.handle team.problem message with ⟨a', outcome⟩
  simp only [inTurn, deliverToAgent, deliverToCollector, ha, hc, hfirst]
  cases outcome <;> simp [Except.mapError, Except.bind, Except.map]

omit [Generator G] in
theorem inTurn_of_results {next next' last : Collector K}
    (h : team.collector.handle message = .ok next) (h' : team.collector.handle message' = .ok next')
    (hlast : next.handle message' = .ok last) (hlast' : next'.handle message = .ok last) :
    inTurn (·.deliverToCollector message) (·.deliverToCollector message') team
      = inTurn (·.deliverToCollector message') (·.deliverToCollector message) team := by
  simp only [inTurn, deliverToCollector, h, h', hlast, hlast']

end Team

/-- Every agent owns one variable. -/
def Problem.Single (problem : Problem K) : Prop :=
  ∀ agent ∈ problem.agents, (problem.variablesOf agent).length = 1

theorem Problem.Single.eq_of_owner {problem : Problem K} (h : problem.Single)
    (wf : problem.WellFormed) {name other agent : String} (hn : problem.owner? name = some agent)
    (ho : problem.owner? other = some agent) : name = other := by
  obtain ⟨only, honly⟩ := List.length_eq_one_iff.mp (h agent (mem_agents_of_owner hn))
  have h1 := wf.mem_variablesOf.mpr hn
  have h2 := wf.mem_variablesOf.mpr ho
  rw [honly, List.mem_singleton] at h1 h2
  exact h1.trans h2.symm

section

variable [CostArithmetic K] [Generator G] {setup : Setup K} {w : World K} {network : Network K G}
  {outgoing : Outgoing K}

/-- A message that is under way to a variable is for its agent, who can handle it. -/
theorem World.Sends.addressee {team : Team K G} {name : String} (h : w.Sends setup name outgoing)
    (hshows : team.Shows setup w) (valid : setup.Valid) (hinv : w.Inv setup)
    (hsettled : w.Settled setup) (hn : name ∈ setup.problem.names) :
    ∃ agent a, setup.problem.owner? name = some agent ∧ outgoing.destination = .agent agent ∧
      team.agents[agent]? = some a ∧ a.Shows setup w agent ∧
      ∃ sent, (a.handle setup.problem outgoing.message).2 = .ok sent := by
  obtain ⟨agent, ho⟩ := Problem.exists_owner hn
  have hdestination := h.destination_of_owner ho
  have hmember : agent ∈ team.agents :=
    (hshows.members agent).mpr (Problem.mem_agents_of_owner ho)
  have ha := Std.ExtTreeMap.getElem?_eq_some_getElem hmember
  have hagent := hshows.agents agent _ ha
  obtain ⟨next, sent, w', hhandle, -⟩ := hagent.handle valid hinv (hsettled name hn) ho h
  exact ⟨agent, _, ho, hdestination, ha, hagent, sent, by rw [hhandle]⟩

end

section

variable {F : Type} [Field F] [LinearOrder F] [LnSqrt F] [Generator G] {setup : Setup (Exact F)}
  {w : World (Exact F)} {network : Network (Exact F) G}

namespace Collector.Accounts

variable {collector : Collector (Exact F)} {results : Multiset (Outgoing (Exact F))}
  {outgoing first second : Outgoing (Exact F)}

theorem exists_handle (h : collector.Accounts setup w results) (hm : outgoing ∈ results) :
    ∃ next rest, results = outgoing ::ₘ rest ∧ collector.handle outgoing.message = .ok next ∧
      next.Accounts setup w rest := by
  obtain ⟨rest, rfl⟩ := Multiset.exists_cons_of_mem hm
  rw [← Multiset.singleton_add, add_comm] at h
  obtain ⟨next, hnext, haccounts⟩ := h.handle
  exact ⟨next, rest, rfl, hnext, haccounts⟩

omit [Field F] [LinearOrder F] [LnSqrt F] in
theorem assigns?_ne (h : collector.Accounts setup w results) (hfirst : first ∈ results)
    (hsecond : second ∈ results) (hne : first ≠ second) {name : String}
    (hf : first.message.assigns? = some name) : second.message.assigns? ≠ some name := by
  intro hs
  obtain ⟨rest, rfl⟩ := Multiset.exists_cons_of_mem hfirst
  obtain ⟨rest, rfl⟩ := Multiset.exists_cons_of_mem
    ((Multiset.mem_cons.mp hsecond).resolve_left (Ne.symm hne))
  have hvalues := h.values name
  simp only [Multiset.countP_cons, hf, hs, if_true] at hvalues
  split at hvalues <;> omega

theorem handle_comm (h : collector.Accounts setup w results) (hfirst : first ∈ results)
    (hsecond : second ∈ results) (hne : first ≠ second) :
    ∃ next next' last, collector.handle first.message = .ok next ∧
      collector.handle second.message = .ok next' ∧ next.handle second.message = .ok last ∧
      next'.handle first.message = .ok last := by
  obtain ⟨next, rest, hrest, hnext, haccounts⟩ := h.exists_handle hfirst
  obtain ⟨next', -, -, hnext', -⟩ := h.exists_handle hsecond
  have hlater : second ∈ rest :=
    (Multiset.mem_cons.mp (hrest ▸ hsecond)).resolve_left (Ne.symm hne)
  obtain ⟨last, -, -, hlast, -⟩ := haccounts.exists_handle hlater
  have hcomm := Collector.handle_comm hnext hnext' fun name =>
    h.assigns?_ne hfirst hsecond hne
  exact ⟨next, next', last, hnext, hnext', hlast, hcomm.symm.trans hlast⟩

end Collector.Accounts

/-- It does not matter which of two messages under way is delivered first. -/
theorem Network.Shows.delivers_comm (h : network.Shows setup w) (valid : setup.Valid)
    (single : setup.problem.Single) {first second : Outgoing (Exact F)} (hfirst : first ∈ network.pool)
    (hsecond : second ∈ network.pool) (hne : first ≠ second) :
    inTurn (·.deliver first) (·.deliver second) network.team
      = inTurn (·.deliver second) (·.deliver first) network.team := by
  obtain ⟨results, hpool, haccounts⟩ := h.pool
  have hsplit : ∀ outgoing ∈ network.pool, outgoing ∈ w.flight setup ∨ outgoing ∈ results := by
    intro outgoing hm
    rw [← Multiset.mem_add, ← hpool]
    exact hm
  have hresult : ∀ outgoing ∈ results,
      (∀ team : Team (Exact F) G, team.deliver outgoing = team.deliverToCollector outgoing.message) ∧
      ∃ next, network.team.collector.handle outgoing.message = .ok next := by
    intro outgoing hm
    obtain ⟨next, -, -, hnext, -⟩ := haccounts.exists_handle hm
    exact ⟨fun team => Team.deliver_of_result (haccounts.kinds outgoing hm).2, next, hnext⟩
  rcases hsplit first hfirst with hm | hm
  · obtain ⟨name, hn, hsends⟩ := exists_sends valid hm
    obtain ⟨agent, a, ho, hdestination, ha, hagent, sent, hsent⟩ :=
      hsends.addressee h.team valid h.inv h.settled hn
    rw [← h.team.problem] at hsent
    rcases hsplit second hsecond with hm' | hm'
    · obtain ⟨name', hn', hsends'⟩ := exists_sends valid hm'
      obtain ⟨agent', a', ho', hdestination', ha', -, sent', hsent'⟩ :=
        hsends'.addressee h.team valid h.inv h.settled hn'
      rw [← h.team.problem] at hsent'
      simp only [Team.deliver_of_agent hdestination, Team.deliver_of_agent hdestination']
      -- messages for one agent are for one variable, since it owns no other
      by_cases he : agent = agent'
      · subst he
        obtain rfl := single.eq_of_owner valid.wellFormed ho ho'
        rw [Team.inTurn_of_agent ha, Team.inTurn_of_agent ha, h.team.problem,
          hagent.handles_comm h.inv valid ho hsends hsends' hne]
      · exact Team.inTurn_of_agents he ha ha' hsent hsent'
    · obtain ⟨hdeliver, next, hnext⟩ := hresult second hm'
      simp only [Team.deliver_of_agent hdestination, hdeliver]
      exact Team.inTurn_of_result ha hnext
  · obtain ⟨hdeliver, next, hnext⟩ := hresult first hm
    rcases hsplit second hsecond with hm' | hm'
    · obtain ⟨name, hn, hsends⟩ := exists_sends valid hm'
      obtain ⟨agent, a, -, hdestination, ha, -⟩ :=
        hsends.addressee h.team valid h.inv h.settled hn
      simp only [Team.deliver_of_agent hdestination, hdeliver]
      exact (Team.inTurn_of_result ha hnext).symm
    · obtain ⟨next, next', last, hnext, hnext', hlast, hlast'⟩ := haccounts.handle_comm hm hm' hne
      simp only [hdeliver, (hresult second hm').1]
      exact Team.inTurn_of_results hnext hnext' hlast hlast'

end

/-- A team and the messages under way, whose order in the pool does not matter. -/
abbrev Situation (K G : Type) := Team K G × Multiset (Outgoing K)

def Network.situation (network : Network K G) : Situation K G := (network.team, ↑network.pool)

section

variable [CostArithmetic K] [Generator G]

/-- A message is delivered, and what is sent in answer comes under way. -/
def Situation.Delivers (s : Situation K G) (outgoing : Outgoing K) (next : Situation K G) : Prop :=
  ∃ rest sent, s.2 = outgoing ::ₘ rest ∧ s.1.deliver outgoing = (next.1, .ok sent) ∧
    next.2 = rest + ↑sent

theorem Situation.Delivers.unique {s next next' : Situation K G} {outgoing : Outgoing K}
    (h : s.Delivers outgoing next) (h' : s.Delivers outgoing next') : next = next' := by
  obtain ⟨rest, sent, hrest, hteam, hpool⟩ := h
  obtain ⟨rest', sent', hrest', hteam', hpool'⟩ := h'
  obtain rfl := (Multiset.cons_inj_right outgoing).mp (hrest.symm.trans hrest')
  obtain ⟨hnext, hsent⟩ := Prod.mk.inj (hteam.symm.trans hteam')
  obtain rfl := Except.ok.inj hsent
  exact Prod.ext hnext (hpool.trans hpool'.symm)

/-- Messages are delivered one after the other. -/
inductive Situation.Delivered : Situation K G → List (Outgoing K) → Situation K G → Prop
  | nil {s : Situation K G} : Delivered s [] s
  | cons {s next last : Situation K G} {outgoing : Outgoing K} {messages : List (Outgoing K)} :
      s.Delivers outgoing next → Delivered next messages last →
      Delivered s (outgoing :: messages) last

theorem Situation.Delivered.concat {s last next : Situation K G} {outgoing : Outgoing K}
    {messages : List (Outgoing K)} (h : s.Delivered messages last)
    (hlast : last.Delivers outgoing next) : s.Delivered (messages ++ [outgoing]) next := by
  induction h with
  | nil => exact .cons hlast .nil
  | cons hd _ ih => exact .cons hd (ih hlast)

/-- Nothing is left to deliver just when the end has been reached. -/
theorem Situation.Delivered.over_iff {s last : Situation K G} {messages : List (Outgoing K)}
    (h : s.Delivered messages last) (hlast : last.2 = 0) : s.2 = 0 ↔ messages = [] := by
  cases h with
  | nil => simp [hlast]
  | cons hd _ =>
    obtain ⟨rest, sent, hpool, -⟩ := hd
    simp [hpool]

theorem Situation.Delivered.eq_of_nil {s last : Situation K G} (h : s.Delivered [] last) :
    s = last := by
  cases h
  rfl

namespace Network

variable {setup : Setup K} {w : World K} {first network next last : Network K G}
  {log : List (Delivery K)} {delivery : Delivery K}

/-- Messages are delivered in any order; the log has what was delivered. -/
inductive Runs (first : Network K G) : List (Delivery K) → Network K G → Prop where
  | refl : Runs first [] first
  | deliver {log : List (Delivery K)} {network next : Network K G} {delivery : Delivery K}
      (position : Nat) : Runs first log network →
      network.deliverAt position = some (delivery, next) → Runs first (log ++ [delivery]) next

theorem Runs.reaches (h : first.Runs log network) : first.Reaches network := by
  induction h with
  | refl => exact .refl
  | deliver position _ hd ih => exact .deliver position ih hd

theorem Runs.head {position : Nat} (hd : first.deliverAt position = some (delivery, next))
    (h : next.Runs log last) : first.Runs (delivery :: log) last := by
  induction h with
  | refl => exact .deliver position .refl hd
  | deliver position _ hd ih => exact .deliver position ih hd

theorem runs_follow (network : Network K G) (schedule : List Nat) (k steps : Nat) :
    network.Runs (network.follow schedule k steps).1 (network.follow schedule k steps).2 := by
  induction steps generalizing network k with
  | zero => exact .refl
  | succ steps ih =>
    unfold follow
    split
    next => exact .refl
    next hd => exact .head hd (ih _ _)

theorem Shows.delivers_deliverAt (h : network.Shows setup w) (valid : setup.Valid) {position : Nat}
    (hd : network.deliverAt position = some (delivery, next)) :
    network.situation.Delivers delivery.outgoing next.situation ∧
      ∃ w', next.Shows setup w' := by
  obtain ⟨sent, w', houtcome, hnext, -⟩ := h.deliverAt valid hd
  obtain ⟨ho, hteam, hpool⟩ := deliverAt_eq_some hd
  obtain ⟨hlt, hget⟩ := List.getElem?_eq_some_iff.mp ho
  refine ⟨⟨network.pool.eraseIdx position, sent, ?_, houtcome ▸ hteam, ?_⟩, w', hnext⟩
  · rw [situation, Multiset.cons_coe, Multiset.coe_eq_coe, ← hget]
    exact (List.getElem_cons_eraseIdx_perm hlt).symm
  · simp [situation, hpool, Delivery.sent, houtcome]

theorem Shows.exists_delivers (h : network.Shows setup w) (valid : setup.Valid)
    {outgoing : Outgoing K} (hm : outgoing ∈ network.pool) :
    ∃ (next : Network K G) (w' : World K),
      network.situation.Delivers outgoing next.situation ∧ next.Shows setup w' := by
  obtain ⟨position, next, hd, -⟩ := network.exists_deliverAt hm
  obtain ⟨hdelivers, w', hnext⟩ := h.delivers_deliverAt valid hd
  exact ⟨next, w', hdelivers, hnext⟩

end Network

/-- The situation of a network whose agents hold the cells of a world. -/
def Situation.Shown (setup : Setup K) (s : Situation K G) : Prop :=
  ∃ (network : Network K G) (w : World K), network.situation = s ∧ network.Shows setup w

namespace Situation.Shown

variable {setup : Setup K} {s next : Situation K G} {outgoing : Outgoing K}

theorem exists_delivers (h : s.Shown setup) (valid : setup.Valid) (hm : outgoing ∈ s.2) :
    ∃ next : Situation K G, s.Delivers outgoing next ∧ next.Shown setup := by
  obtain ⟨network, w, rfl, hshows⟩ := h
  obtain ⟨next, w', hdelivers, hnext⟩ := hshows.exists_delivers valid hm
  exact ⟨_, hdelivers, next, w', rfl, hnext⟩

theorem follows (h : s.Shown setup) (valid : setup.Valid) (hd : s.Delivers outgoing next) :
    next.Shown setup := by
  obtain ⟨rest, sent, hpool, -⟩ := id hd
  have hm : outgoing ∈ s.2 := by rw [hpool]; simp
  obtain ⟨other, hother, hshown⟩ := h.exists_delivers valid hm
  exact hd.unique hother ▸ hshown

end Situation.Shown

end

section

variable {F : Type} [Field F] [LinearOrder F] [LnSqrt F] [Generator G] {setup : Setup (Exact F)}

namespace Situation

variable {s last next next' : Situation (Exact F) G} {first second : Outgoing (Exact F)}
  {messages : List (Outgoing (Exact F))}

/-- Two deliveries lead to the same, whichever is the first. -/
theorem Shown.diamond (h : s.Shown setup) (valid : setup.Valid) (single : setup.problem.Single)
    (hfirst : s.Delivers first next) (hsecond : s.Delivers second next') (hne : first ≠ second) :
    ∃ last, next.Delivers second last ∧ next'.Delivers first last := by
  have hnext := h.follows valid hfirst
  have hnext' := h.follows valid hsecond
  obtain ⟨network, w, rfl, hshows⟩ := h
  obtain ⟨rest, sent, hrest, hteam, hpool⟩ := hfirst
  obtain ⟨rest', sent', hrest', hteam', hpool'⟩ := hsecond
  have hmem : first ∈ network.situation.2 := by rw [hrest]; simp
  have hmem' : second ∈ network.situation.2 := by rw [hrest']; simp
  have hcomm := hshows.delivers_comm valid single hmem hmem' hne
  obtain ⟨-, others, rfl, rfl⟩ :=
    (Multiset.cons_eq_cons.mp (hrest.symm.trans hrest')).resolve_left fun he => hne he.1
  have hlater : second ∈ next.2 := by rw [hpool]; simp
  have hlater' : first ∈ next'.2 := by rw [hpool']; simp
  obtain ⟨last, ⟨left, more, hleft, hlast, hend⟩, -⟩ := hnext.exists_delivers valid hlater
  obtain ⟨last', ⟨left', more', hleft', hlast', hend'⟩, -⟩ := hnext'.exists_delivers valid hlater'
  rw [hpool, Multiset.cons_add] at hleft
  rw [hpool', Multiset.cons_add] at hleft'
  obtain rfl := (Multiset.cons_inj_right second).mp hleft
  obtain rfl := (Multiset.cons_inj_right first).mp hleft'
  have hteam : network.team.deliver first = (next.1, .ok sent) := hteam
  have hteam' : network.team.deliver second = (next'.1, .ok sent') := hteam'
  simp only [inTurn, hteam, hteam', hlast, hlast', Except.bind, Except.map, Prod.mk.injEq,
    Except.ok.injEq, ← Multiset.coe_add] at hcomm
  obtain ⟨hlasts, hsents⟩ := hcomm
  have hsame : last = last' := by
    refine Prod.ext hlasts ?_
    rw [hend, hend', add_assoc, add_assoc, hsents]
  exact ⟨last, ⟨_, more, by rw [hpool, Multiset.cons_add], hlast, hend⟩,
    ⟨_, more', by rw [hpool', Multiset.cons_add], hsame ▸ hlast', hsame ▸ hend'⟩⟩

/-- Any delivery is the first one of an order that comes to the same end. -/
theorem Delivered.after (h : s.Delivered messages last) (hlast : last.2 = 0) (valid : setup.Valid)
    (single : setup.problem.Single) (hshown : s.Shown setup) (hd : s.Delivers first next) :
    ∃ rest, next.Delivered rest last ∧ (first :: rest).Perm messages := by
  induction h generalizing next first with
  | nil =>
    obtain ⟨rest, sent, hpool, -⟩ := hd
    rw [hlast] at hpool
    exact absurd hpool.symm Multiset.cons_ne_zero
  | @cons s mid last second messages hsecond hrest ih =>
    by_cases he : first = second
    · subst he
      exact ⟨messages, hd.unique hsecond ▸ hrest, .refl _⟩
    · obtain ⟨v, hv, hv'⟩ := hshown.diamond valid single hd hsecond he
      obtain ⟨rest, hdelivered, hperm⟩ := ih hlast (hshown.follows valid hsecond) hv'
      exact ⟨second :: rest, .cons hv hdelivered, (List.Perm.swap _ _ _).trans (hperm.cons second)⟩

/-- What has been delivered is a part of every order that comes to an end, and the rest leads to it. -/
theorem Delivered.remaining {messages' : List (Outgoing (Exact F))} (h : s.Delivered messages' next)
    (valid : setup.Valid) (single : setup.problem.Single) (hshown : s.Shown setup)
    (hend : s.Delivered messages last) (hlast : last.2 = 0) :
    ∃ rest, next.Delivered rest last ∧ (messages' ++ rest).Perm messages := by
  induction h generalizing messages with
  | nil => exact ⟨messages, hend, .refl _⟩
  | cons hd _ ih =>
    obtain ⟨others, hothers, hperm⟩ := hend.after hlast valid single hshown hd
    obtain ⟨rest, hrest, hperm'⟩ := ih (hshown.follows valid hd) hothers
    exact ⟨rest, hrest, (hperm'.cons _).trans hperm⟩

/-- All orders that come to an end come to the same one. -/
theorem Delivered.unique {messages' : List (Outgoing (Exact F))} {last' : Situation (Exact F) G}
    (h : s.Delivered messages last) (h' : s.Delivered messages' last') (valid : setup.Valid)
    (single : setup.problem.Single) (hshown : s.Shown setup) (hlast : last.2 = 0)
    (hlast' : last'.2 = 0) : last' = last ∧ messages'.Perm messages := by
  obtain ⟨rest, hrest, hperm⟩ := h'.remaining valid single hshown h hlast
  obtain rfl := (hrest.over_iff hlast).mp hlast'
  exact ⟨hrest.eq_of_nil, by simpa using hperm⟩

end Situation

namespace Network

variable {first network : Network (Exact F) G} {log : List (Delivery (Exact F))}
  {w : World (Exact F)}

theorem Runs.delivered (h : first.Runs log network) (valid : setup.Valid)
    (hfirst : first.Shows setup w) :
    first.situation.Delivered (log.map Delivery.outgoing) network.situation := by
  induction h with
  | refl => exact .nil
  | deliver position hruns hd ih =>
    obtain ⟨v, hshows, -⟩ := hruns.reaches.shows valid hfirst
    rw [List.map_append]
    exact ih.concat (hshows.delivers_deliverAt valid hd).1

/-- If one order comes to an end, then every order does, after the same number of deliveries, of the
same messages, with all agents and the collector in the same state. -/
theorem Shows.ends_alike (hfirst : first.Shows setup w) (valid : setup.Valid)
    (single : setup.problem.Single) {last : Network (Exact F) G} {log' : List (Delivery (Exact F))}
    (hruns : first.Runs log last) (hlast : last.pool = []) (hruns' : first.Runs log' network) :
    log'.length ≤ log.length ∧ (network.pool = [] ↔ log'.length = log.length) ∧
      (network.pool = [] → network.team = last.team ∧
        (log'.map Delivery.outgoing).Perm (log.map Delivery.outgoing)) := by
  have hempty : last.situation.2 = 0 := by rw [situation, hlast]; rfl
  obtain ⟨rest, hrest, hperm⟩ := (hruns'.delivered valid hfirst).remaining valid single
    ⟨first, _, rfl, hfirst⟩ (hruns.delivered valid hfirst) hempty
  have hlength := hperm.length_eq
  rw [List.length_append, List.length_map, List.length_map] at hlength
  have hover : network.pool = [] ↔ rest = [] := by
    rw [← hrest.over_iff hempty, situation, Multiset.coe_eq_zero]
  refine ⟨by omega, hover.trans ⟨fun he => by simpa [he] using hlength, fun he => ?_⟩, fun hpool => ?_⟩
  · exact List.eq_nil_of_length_eq_zero (by omega)
  · obtain rfl := hover.mp hpool
    rw [List.append_nil] at hperm
    exact ⟨congrArg Prod.fst hrest.eq_of_nil, hperm⟩

end Network

end

end DcopSearch
