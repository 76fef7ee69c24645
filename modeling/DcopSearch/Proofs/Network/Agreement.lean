import DcopSearch.Proofs.Network.Safety
import DcopSearch.Proofs.Protocol.Attuned
import DcopSearch.Proofs.Protocol.Gathered

/-! The values that variables end with.  What is reported of a variable is the value that it has ended
with, so that a variable which has converged knows of its ancestors what they have reported. -/

namespace DcopSearch

open World

variable {K G : Type}

/-- The value has been reported of a variable: the collector has it, or will get it. -/
def Network.Reported (network : Network K G) (name : String) (value : Value) : Prop :=
  network.team.collector.assignments[name]? = some value ∨
    ∃ outgoing ∈ network.pool, outgoing.message = .assignment name value

theorem Message.assigns?_eq_some {message : Message K} {name : String} :
    message.assigns? = some name ↔ ∃ value, message = .assignment name value := by
  cases message <;> simp [assigns?]

variable [CostArithmetic K]

namespace Collector

variable {collector next : Collector K} {message : Message K}

theorem assignments_handle (h : collector.handle message = .ok next) {name : String} {value : Value}
    (hv : next.assignments[name]? = some value) :
    collector.assignments[name]? = some value ∨ message = .assignment name value := by
  cases message with
  | assignment other value' =>
    obtain rfl := Except.ok.inj h
    simp only [Std.ExtTreeMap.getElem?_insert, Std.LawfulEqCmp.compare_eq_iff_eq] at hv
    split at hv
    next he =>
      obtain rfl := Option.some.inj hv
      exact .inr (by rw [he])
    next => exact .inl hv
  | finalBound bound =>
    obtain rfl := Except.ok.inj h
    exact .inl hv
  | agentFinished agent =>
    obtain rfl := Except.ok.inj h
    exact .inl hv
  | _ => cases h

/-- Whatever has been reported has a value. -/
def Valued (collector : Collector K) : Prop :=
  ∀ name : String, collector.reports[name]?.getD 0 ≠ 0 → (collector.assignments[name]?).isSome

theorem Valued.handle (h : collector.Valued) (hc : collector.handle message = .ok next) :
    next.Valued := by
  cases message with
  | assignment other value =>
    obtain rfl := Except.ok.inj hc
    intro name hn
    simp only [Std.ExtTreeMap.getElem?_insert] at hn ⊢
    split
    next => rfl
    next he =>
      rw [if_neg he] at hn
      exact h name hn
  | finalBound bound =>
    obtain rfl := Except.ok.inj hc
    exact h
  | agentFinished agent =>
    obtain rfl := Except.ok.inj hc
    exact h
  | _ => cases hc

end Collector

namespace SamplingState

/-- The only value among the results of a variable is the one that it holds. -/
theorem assignment_mem_results {s : SamplingState K} {delta : K} {outgoing : Outgoing K}
    {name : String} {value : Value} (hm : outgoing ∈ s.results delta)
    (he : outgoing.message = .assignment name value) : s.name = name ∧ s.currentValue = value := by
  rcases List.mem_cons.mp hm with rfl | hm
  · simpa using he
  · split at hm
    · obtain ⟨bound, -, rfl⟩ := List.mem_map.mp hm
      cases he
    · simp at hm

end SamplingState

variable {setup : Setup K} {w w' : World K} {name : String}

omit [CostArithmetic K] in
theorem World.Sends.isResult {outgoing : Outgoing K} (h : w.Sends setup name outgoing) :
    outgoing.message.isResult = false := by
  cases h <;> rfl

omit [CostArithmetic K] in
theorem World.Sends.isResult_of_letter {outgoing letter : Outgoing K} {letters : List (Outgoing K)}
    (h : w.Sends setup name outgoing) (valid : setup.Valid)
    (hflight : w'.flight setup + {outgoing} = w.flight setup + ↑letters) (hm : letter ∈ letters) :
    letter.message.isResult = false := by
  have hmem : letter ∈ w'.flight setup + {outgoing} := by
    rw [hflight]
    simp [hm]
  rcases Multiset.mem_add.mp hmem with hm | hm
  · obtain ⟨other, -, hsends⟩ := exists_sends valid hm
    exact hsends.isResult
  · obtain rfl := Multiset.mem_singleton.mp hm
    exact h.isResult

variable [Generator G]

/-- A value that is sent is the one that the variable has ended with. -/
theorem World.Handled.assigns {agent other : String} {outgoing : Outgoing K}
    {sent : List (Outgoing K)} {value : Value} (h : Handled setup G w agent name {outgoing} sent w')
    (valid : setup.Valid) (hsends : w.Sends setup name outgoing) (hinv : w'.Inv setup)
    (hn : name ∈ setup.problem.names) {result : Outgoing K} (hm : result ∈ sent)
    (he : result.message = .assignment other value) :
    other = name ∧ (w' name).exchange.stance = .ended ∧ value = (w' name).state.currentValue := by
  obtain ⟨letters, results, rfl, hflight, hannounces⟩ := h.sends
  rcases List.mem_append.mp hm with hm | hm
  · have hletter := hsends.isResult_of_letter valid hflight hm
    rw [he] at hletter
    cases hletter
  · rcases hannounces with ⟨-, rfl⟩ | ⟨hstance, news, rfl, hnews⟩
    · simp at hm
    rcases List.mem_append.mp hm with hm | hm
    · obtain ⟨hname, hvalue⟩ := SamplingState.assignment_mem_results hm he
      exact ⟨hname.symm.trans (hinv.sound name hn).named, hstance, hvalue.symm⟩
    · rcases hnews with ⟨-, rfl⟩ | ⟨-, rfl⟩
      · obtain rfl := List.mem_singleton.mp hm
        cases he
      · simp at hm

theorem Team.collector_deliver {team next : Team K G} {outgoing : Outgoing K}
    {outcome : Except DeliveryError (List (Outgoing K))}
    (h : team.deliver outgoing = (next, outcome)) :
    next.collector = team.collector ∨
      team.collector.handle outgoing.message = .ok next.collector := by
  have hcollector : ∀ {next outcome}, team.deliverToCollector outgoing.message = (next, outcome) →
      next.collector = team.collector ∨
        team.collector.handle outgoing.message = .ok next.collector := by
    intro next outcome h
    unfold deliverToCollector at h
    split at h
    · obtain ⟨rfl, -⟩ := Prod.mk.inj h
      exact .inl rfl
    next collector hc =>
      obtain ⟨rfl, -⟩ := Prod.mk.inj h
      exact .inr hc
  unfold deliver at h
  split at h
  · refine .inl ?_
    unfold deliverToAgent at h
    split at h <;> exact (Prod.mk.inj h).1 ▸ rfl
  · exact hcollector h
  · exact hcollector h

def Delivery.sent (delivery : Delivery K) : List (Outgoing K) :=
  match delivery.outcome with
  | .ok sent => sent
  | .error _ => []

namespace Network

variable {first network next : Network K G} {position : Nat} {delivery : Delivery K}

/-- What becomes of a network when a message is delivered. -/
theorem deliverAt_eq_some (hd : network.deliverAt position = some (delivery, next)) :
    network.pool[position]? = some delivery.outgoing ∧
      network.team.deliver delivery.outgoing = (next.team, delivery.outcome) ∧
      next.pool = network.pool.eraseIdx position ++ delivery.sent := by
  unfold deliverAt at hd
  obtain ⟨outgoing, ho, he⟩ := Option.map_eq_some_iff.mp hd
  obtain ⟨rfl, rfl⟩ := Prod.mk.inj he
  exact ⟨ho, rfl, rfl⟩

/-- A delivery leaves what has been reported, but for the results that are sent. -/
theorem Reported.of_deliverAt (hd : network.deliverAt position = some (delivery, next))
    {value : Value} (h : next.Reported name value) : network.Reported name value ∨
      ∃ outgoing ∈ delivery.sent, outgoing.message = .assignment name value := by
  obtain ⟨ho, hteam, hpool⟩ := deliverAt_eq_some hd
  rcases h with h | ⟨result, hm, hresult⟩
  · refine .inl ?_
    rcases Team.collector_deliver hteam with hc | hc
    · rw [hc] at h
      exact .inl h
    · rcases Collector.assignments_handle hc h with hv | hv
      · exact .inl hv
      · exact .inr ⟨delivery.outgoing, List.mem_of_getElem? ho, hv⟩
  · rw [hpool, List.mem_append] at hm
    rcases hm with hm | hm
    · exact .inl (.inr ⟨result, List.mem_of_mem_eraseIdx hm, hresult⟩)
    · exact .inr ⟨result, hm, hresult⟩

/-- What has been reported are the values that variables have ended with. -/
structure Tells (w : World K) (network : Network K G) : Prop where
  reported : ∀ name value, network.Reported name value →
    (w name).exchange.stance = .ended ∧ value = (w name).state.currentValue
  valued : network.team.collector.Valued

theorem Tells.deliverAt (h : network.Tells w) (hshows : network.Shows setup w) (valid : setup.Valid)
    (hd : network.deliverAt position = some (delivery, next)) :
    ∃ w', Steps setup G w w' ∧ next.Shows setup w' ∧ next.Tells w' := by
  obtain ⟨sent, w', houtcome, hnext, hcase⟩ := hshows.deliverAt valid hd
  have hvalued : next.team.collector.Valued := by
    obtain ⟨-, hteam, -⟩ := deliverAt_eq_some hd
    rcases Team.collector_deliver hteam with hc | hc
    · exact hc ▸ h.valued
    · exact h.valued.handle hc
  have hsent : delivery.sent = sent := by rw [Delivery.sent, houtcome]
  rcases hcase with ⟨-, rfl, rfl⟩ | ⟨name, agent, howner, hsends, hhandled⟩
  · refine ⟨w', .refl, hnext, fun name value hr => ?_, hvalued⟩
    rcases hr.of_deliverAt hd with hr | ⟨result, hm, -⟩
    · exact h.reported name value hr
    · simp [hsent] at hm
  · refine ⟨w', hhandled.steps, hnext, fun other value hr => ?_, hvalued⟩
    rcases hr.of_deliverAt hd with hr | ⟨result, hm, hresult⟩
    · obtain ⟨hended, hvalue⟩ := h.reported other value hr
      have hne : other ≠ name := by
        rintro rfl
        exact hhandled.opened hended
      have hnear := hhandled.near other hne
      rw [hnear.stance, hnear.state]
      exact ⟨hended, hvalue⟩
    · obtain ⟨rfl, hended, hvalue⟩ := hhandled.assigns valid hsends hnext.inv
        (Problem.mem_names_of_owner howner) (hsent ▸ hm) hresult
      exact ⟨hended, hvalue⟩

theorem tells_start (valid : setup.Valid) {seed : UInt64} (h : start setup seed = .ok first) :
    first.Tells (.initial setup) := by
  obtain ⟨views, hviews, hpool⟩ := exists_views valid
  rw [start, hviews] at h
  obtain rfl := Except.ok.inj h
  have hempty : (new setup.problem setup.config seed views false : Network K G).team.collector
      = .empty := ((Team.fresh_new setup seed).starts fun _ => id).collector
  refine ⟨fun name value hr => ?_, fun name hn => ?_⟩
  · rcases hr with hr | ⟨outgoing, hm, he⟩
    · simp [hempty, Collector.empty] at hr
    · have hflight : outgoing ∈ (World.initial setup).flight setup := hpool ▸ hm
      obtain ⟨other, -, hsends⟩ := exists_sends valid hflight
      have hresult := hsends.isResult
      rw [he] at hresult
      cases hresult
  · simp [hempty, Collector.empty] at hn

theorem Reaches.tells (h : first.Reaches network) (valid : setup.Valid)
    (hshows : first.Shows setup (.initial setup)) (htells : first.Tells (.initial setup)) :
    ∃ w, Steps setup G (.initial setup) w ∧ network.Shows setup w ∧ network.Tells w := by
  induction h with
  | refl => exact ⟨_, .refl, hshows, htells⟩
  | deliver position _ hd ih =>
    obtain ⟨v, hsteps, hshows, htells⟩ := ih
    obtain ⟨w, hmore, hnext⟩ := htells.deliverAt hshows valid hd
    exact ⟨w, hsteps.trans hmore, hnext⟩

omit [Generator G] in
theorem Tells.reported_iff (h : network.Tells w) (hshows : network.Shows setup w)
    (hn : name ∈ setup.problem.names) (hx : (w name).exchange = .ended) (value : Value) :
    network.Reported name value ↔ value = (w name).state.currentValue := by
  have hexists : ∃ value, network.Reported name value := by
    obtain ⟨results, hpool, haccounts⟩ := hshows.pool
    have hvalues := haccounts.values name
    rw [if_pos ⟨hn, by rw [hx]; rfl⟩] at hvalues
    by_cases hr : network.team.collector.reports[name]?.getD 0 = 0
    · rw [hr, Nat.zero_add] at hvalues
      obtain ⟨outgoing, hm, ha⟩ := Multiset.countP_pos.mp (hvalues ▸ Nat.one_pos)
      obtain ⟨value, he⟩ := Message.assigns?_eq_some.mp ha
      refine ⟨value, .inr ⟨outgoing, ?_, he⟩⟩
      have hmem : outgoing ∈ (↑network.pool : Multiset (Outgoing K)) := by
        rw [hpool]
        exact Multiset.mem_add.mpr (.inr hm)
      exact hmem
    · obtain ⟨value, hv⟩ := Option.isSome_iff_exists.mp (h.valued name hr)
      exact ⟨value, .inl hv⟩
  constructor
  · exact fun hr => (h.reported name value hr).2
  · rintro rfl
    obtain ⟨value, hr⟩ := hexists
    exact (h.reported name value hr).2 ▸ hr

/-- In whatever order the messages are delivered, a variable that has converged knows of the ancestors
that matter to it what they have reported, and these have converged as well. -/
theorem agrees {problem : Problem K} (built : problem.Built) (config : Config K) (seed : UInt64) :
    ∃ first : Network K G, start (.generated problem config) seed = .ok first ∧
      ∀ network, first.Reaches network → ∀ name,
        network.team.phase? name = some .converged →
        ∃ state, network.team.state? name = some state ∧
          state.slots.map Slot.name = (Setup.generated problem config).separator name ∧
          ∀ slot ∈ state.slots, network.team.phase? slot.name = some .converged ∧
            ∃ value, slot.value = some value ∧
              ∀ reported, network.Reported slot.name reported ↔ reported = value := by
  have valid := Setup.valid_generated built config
  have traced := Setup.traced_generated built config
  obtain ⟨first, hfirst, hshows⟩ := exists_start (G := G) valid seed
  refine ⟨first, hfirst, fun network hreaches name hphase => ?_⟩
  obtain ⟨w, hsteps, hshows, htells⟩ := hreaches.tells valid hshows (tells_start valid hfirst)
  have hattuned := (attuned_initial _).steps valid (inv_initial _) hsteps
  have hgathered := (gathered_initial _).steps valid (inv_initial _) hsteps
  obtain ⟨hn, hx⟩ := (hshows.team.phase?_eq_converged hshows.inv).mp hphase
  have hsound := hshows.inv.sound name hn
  have hs := (hsound.of_ended hx).1
  refine ⟨(w name).state, hshows.team.state?_eq_some hn hs, ?_, fun slot hslot => ?_⟩
  · rw [hsound.slots hs]
    exact hgathered.separator_eq valid traced hshows.inv hn (by simp [hsound.reported, hs])
  · obtain ⟨hother, hended, hvalue⟩ := hattuned.ended valid hshows.inv hn hx slot hslot
    exact ⟨(hshows.team.phase?_eq_converged hshows.inv).mpr ⟨hother, hended⟩, _, hvalue,
      htells.reported_iff hshows hother hended⟩

end Network

/-- What is infeasible is ignored and pruned, and a single feasible value leaves nothing to regret. -/
def Config.content : Config (Exact ℚ) := { Config.severe with rule := .regret }

/-- At the end of the chain the last variable knows what the one before it has reported. -/
theorem Network.agrees_chain :
    ∃ (first network : Network (Exact ℚ) ChaCha.Stream) (state : SamplingState (Exact ℚ)),
      start (.generated .chain .content) 1 = .ok first ∧ first.Reaches network ∧
      network.team.phase? "c" = some .converged ∧ network.team.state? "c" = some state ∧
      state.slots.map Slot.name = ["b"] ∧
      ∀ slot ∈ state.slots, network.team.phase? slot.name = some .converged ∧
        ∃ value, slot.value = some value ∧
          ∀ reported, network.Reported slot.name reported ↔ reported = value := by
  obtain ⟨first, hfirst, h⟩ := agrees (G := ChaCha.Stream) Problem.built_chain .content 1
  have hrun : (start (G := ChaCha.Stream) (.generated .chain .content) 1).toOption.any fun first =>
      let network := (first.follow [] 0 30).2
      network.team.phase? "c" == some .converged &&
        ((network.team.state? "c").map fun state => state.slots.map Slot.name) == some ["b"] := by
    decide +kernel
  rw [hfirst] at hrun
  obtain ⟨hphase, hnames⟩ := (Bool.and_eq_true _ _).mp hrun
  have hreaches := reaches_follow first [] 0 30
  obtain ⟨state, hstate, -, hslots⟩ := h _ hreaches "c" (beq_iff_eq.mp hphase)
  rw [hstate] at hnames
  exact ⟨first, _, state, hfirst, hreaches, beq_iff_eq.mp hphase, hstate,
    Option.some.inj (beq_iff_eq.mp hnames), hslots⟩

end DcopSearch
