import DcopSearch.Proofs.Network.Safety
import DcopSearch.Proofs.Protocol.Held
import DcopSearch.Random.ChaCha

/-! What a variable reports to its parent.  In whatever order the messages are delivered, a report with
a cost is about the values that the variable and those below it hold when it is sent; without ignoring
what is infeasible there is no other report. -/

namespace DcopSearch

open CostArithmetic World

variable {K G : Type}

/-- The values held in the subtree of a variable, and above it those that the variable knows. -/
noncomputable def Team.held (setup : Setup K) (team : Team K G) (name other : String) :
    Option Value :=
  if other ∈ setup.subtree name then team.value? other
  else (team.state? name).bind (·.context other)

variable [CostArithmetic K] {setup : Setup K} {w : World K} {name : String} {team : Team K G}

namespace Team.Shows

theorem value?_eq (h : team.Shows setup w) (hinv : w.Inv setup) (hn : name ∈ setup.problem.names)
    (hs : (w name).ascent.stage = .normalized) (hc : (w name).state.current.isSome) :
    team.value? name = some (w name).state.currentValue := by
  obtain ⟨i, hi⟩ := Option.isSome_iff_exists.mp hc
  have hlt := ((hinv.sound name hn).sampling hs).current i hi
  rw [Team.value?_eq_bind, h.state?_eq_some hn hs, Option.bind_some, hi, Option.bind_some,
    SamplingState.currentValue, hi, Option.getD_some, List.getElem?_eq_getElem hlt]
  rfl

/-- What the agents hold of a subtree at rest is what the world holds. -/
theorem held_eq (h : team.Shows setup w) (hrests : Rests setup w name) (valid : setup.Valid)
    (hinv : w.Inv setup) (hscaled : w.Scaled setup) (hn : name ∈ setup.problem.names) :
    team.held setup name = w.held setup name := by
  have hagree := hrests.agree valid hinv hscaled hn
  funext other
  unfold Team.held World.held
  split
  next hm =>
    obtain ⟨hs, -, hc, -⟩ := hagree other hm
    exact h.value?_eq hinv (Setup.mem_subtree.mp hm).1 hs hc
  next =>
    obtain ⟨hs, hi, -⟩ := hagree name (Setup.mem_subtree_self hn)
    rw [h.state?_eq_some hn hs, Option.bind_some, hi.contextOf_eq]

end Team.Shows

/-- The variable that a report is for, and what is reported. -/
def Message.report? : Message K → Option (String × Option K)
  | .cost receiver report => some (receiver, report)
  | _ => none

def Delivery.reports (delivery : Delivery K) : List (String × Option K) :=
  match delivery.outcome with
  | .ok sent => sent.filterMap (·.message.report?)
  | .error _ => []

omit [CostArithmetic K] in
theorem Message.report?_eq_some {message : Message K} {parent : String} {report : Option K} :
    message.report? = some (parent, report) ↔ message = .cost parent report := by
  cases message <;> simp [report?]

variable [Generator G]

/-- The variable that gets a message is the one that reports, and it has been asked to. -/
theorem Network.Shows.reports {network next : Network K G} {position : Nat}
    {delivery : Delivery K} {parent : String} {report : Option K} (h : network.Shows setup w)
    (valid : setup.Valid) (hd : network.deliverAt position = some (delivery, next))
    (hr : (parent, report) ∈ delivery.reports) :
    ∃ name w', Steps setup G w w' ∧ next.Shows setup w' ∧
      delivery.outgoing.message.subject? = some name ∧ setup.parent name = some parent ∧
      (w' name).exchange = .answered report := by
  obtain ⟨sent, w', houtcome, hshows, hcase⟩ := h.deliverAt valid hd
  simp only [Delivery.reports, houtcome] at hr
  obtain ⟨⟨destination, message⟩, hm, hreport⟩ := List.mem_filterMap.mp hr
  obtain rfl := Message.report?_eq_some.mp hreport
  rcases hcase with ⟨-, -, rfl⟩ | ⟨name, agent, ho, hsends, hhandled⟩
  · cases hm
  · obtain ⟨hp, hx⟩ := hhandled.costs _ _ _ hm
    exact ⟨name, w', hhandled.steps, hshows, hsends.subject? valid h.inv (valid.mem_names hp).2, hp,
      hx⟩

section Exact

variable {F : Type} [Field F] [LinearOrder F] [LnSqrt F]

/-- The cost is that of the values held in the subtree of a variable, in whose state it is sent. -/
structure Team.Costs (setup : Setup (Exact F)) (team : Team (Exact F) G) (name : String)
    (state : SamplingState (Exact F)) (cost : Exact F) : Prop where
  values : ∀ other ∈ setup.subtree name, ∃ below value, team.state? other = some below ∧
    below.spaces = setup.normalizedSpaces state.scalingFactor other ∧
    team.value? other = some value
  costs : setup.CostsAt state.scalingFactor name (team.held setup name) cost

section

variable {setup : Setup (Exact F)} {w : World (Exact F)} {team : Team (Exact F) G}
  {first network next : Network (Exact F) G} {name parent : String} {position : Nat}
  {delivery : Delivery (Exact F)} {report : Option (Exact F)}

omit [Generator G] in
theorem World.Kept.costs (h : w.Kept setup) (valid : setup.Valid)
    (strict : setup.config.ignoreInfeasible = false ∨ setup.config.pruning = true)
    (hn : name ∈ setup.problem.names) (hteam : team.Shows setup w) {cost : Exact F}
    (hx : (w name).exchange = .answered (some cost)) :
    team.Costs setup name (w name).state cost := by
  have hstrict : Strict setup := by
    refine strict.symm.imp_right fun hoff other _ context hrefuted => ?_
    have hon := hrefuted.ignoring
    rw [hoff] at hon
    cases hon
  obtain ⟨hrests, rfl⟩ := (h.tallied hstrict name hn).answered cost hx
  refine ⟨fun other ho => ?_, ?_⟩
  · have hon := (Setup.mem_subtree.mp ho).1
    obtain ⟨hs, -, hc, hfactor, -⟩ := hrests.agree valid h.inv h.scaled hn other ho
    exact ⟨_, _, hteam.state?_eq_some hon hs, hfactor ▸ ((h.scaled.cells other hon).normalized hs).2,
      hteam.value?_eq h.inv hon hs hc⟩
  · rw [hteam.held_eq hrests valid h.inv h.scaled hn]
    exact hrests.costsAt valid h.inv h.scaled hn

/-- Whatever is reported, it is an answer in a world that keeps to what all worlds do. -/
theorem Network.Reaches.reports (h : first.Reaches network) (valid : setup.Valid)
    (priced : setup.Priced) (hfirst : first.Shows setup (.initial setup))
    (hd : network.deliverAt position = some (delivery, next))
    (hr : (parent, report) ∈ delivery.reports) :
    ∃ name w, w.Kept setup ∧ next.team.Shows setup w ∧
      delivery.outgoing.message.subject? = some name ∧ setup.parent name = some parent ∧
      name ∈ setup.problem.names ∧ (w name).Working setup name false ∧
      (w name).exchange = .answered report := by
  obtain ⟨v, hshows, hsteps⟩ := h.shows valid hfirst
  obtain ⟨name, w, hlater, hnext, hsubject, hp, hx⟩ := hshows.reports valid hd hr
  have hn := (valid.mem_names hp).2
  have hworking := (hnext.inv.sound name hn).of_answered hx
  have hkept := ((kept_initial setup).steps valid priced hsteps).steps valid priced hlater
  exact ⟨name, w, hkept, hnext.team, hsubject, hp, hn, hworking.1, hx⟩

end

variable {problem : Problem (Exact F)} {config : Config (Exact F)}

theorem Setup.priced_generated (priced : ∀ space ∈ problem.spaces, space.Priced problem.objective)
    (checked : config.validate = .ok config) : (Setup.generated problem config).Priced :=
  ⟨priced, Config.exists_penalty checked problem.objective⟩

/-- In whatever order the messages are delivered, a variable that reports a cost reports what the
values held in its subtree cost, and without ignoring what is infeasible it reports nothing else. -/
theorem Network.reports_costs (built : problem.Built)
    (priced : ∀ space ∈ problem.spaces, space.Priced problem.objective)
    (checked : config.validate = .ok config)
    (strict : config.ignoreInfeasible = false ∨ config.pruning = true) (seed : UInt64) :
    ∃ first : Network (Exact F) G, start (.generated problem config) seed = .ok first ∧
      ∀ network, first.Reaches network → ∀ position delivery next,
        network.deliverAt position = some (delivery, next) →
        ∀ parent report, (parent, report) ∈ delivery.reports →
        ∃ name state, delivery.outgoing.message.subject? = some name ∧
          (Setup.generated problem config).parent name = some parent ∧
          next.team.state? name = some state ∧
          (config.ignoreInfeasible = false → report ≠ none) ∧
          ∀ cost, report = some cost →
            next.team.Costs (.generated problem config) name state cost := by
  have valid := Setup.valid_generated built config
  obtain ⟨first, hfirst, hshows⟩ := exists_start (G := G) valid seed
  refine ⟨first, hfirst, fun network hreaches position delivery next hd parent report hr => ?_⟩
  obtain ⟨name, w, hkept, hteam, hsubject, hp, hn, hworking, hx⟩ :=
    hreaches.reports valid (Setup.priced_generated priced checked) hshows hd hr
  refine ⟨name, _, hsubject, hp, hteam.state?_eq_some hn hworking.stage, fun hoff => ?_,
    fun cost hcost => ?_⟩
  · rintro rfl
    have hignore := ((hkept.honest name hn).answered hx).ignoring
    rw [show config.ignoreInfeasible = true from hignore] at hoff
    cases hoff
  · subst hcost
    exact hkept.costs valid strict hn hteam hx

end Exact

/-- On the way through the chain the variable in the middle reports a cost. -/
theorem Network.costs_chain :
    ∃ (first network next : Network (Exact ℚ) ChaCha.Stream) (position : Nat)
      (delivery : Delivery (Exact ℚ)) (state : SamplingState (Exact ℚ)) (cost : Exact ℚ),
      start (.generated .chain .severe) 2 = .ok first ∧ first.Reaches network ∧
      network.deliverAt position = some (delivery, next) ∧ ("a", some cost) ∈ delivery.reports ∧
      next.team.state? "b" = some state ∧
      next.team.Costs (.generated .chain .severe) "b" state cost := by
  obtain ⟨first, hfirst, h⟩ := reports_costs (G := ChaCha.Stream) Problem.built_chain
    Problem.priced_chain Config.validate_severe (.inr rfl) 2
  have hrun : (((start (G := ChaCha.Stream) (.generated .chain .severe) 2).toOption.bind
      fun first => (first.follow [] 0 9).2.deliverAt 0).any fun (delivery, _) =>
        delivery.reports == [("a", some (.number 0))] &&
          delivery.outgoing.message.subject? == some "b") = true := by
    decide +kernel
  rw [hfirst] at hrun
  obtain ⟨⟨delivery, next⟩, hd, hrun⟩ := (Option.any_eq_true _ _).mp hrun
  simp only [Bool.and_eq_true, beq_iff_eq] at hrun
  obtain ⟨hr, hsubject⟩ := hrun
  have hreaches := reaches_follow first [] 0 9
  have hsome : ("a", some (.number 0)) ∈ delivery.reports := by simp [hr]
  obtain ⟨name, state, hname, -, hstate, -, hcosts⟩ := h _ hreaches 0 delivery next hd _ _ hsome
  obtain rfl : "b" = name := Option.some.inj (hsubject.symm.trans hname)
  exact ⟨first, _, next, 0, delivery, state, _, hfirst, hreaches, hd, hsome, hstate, hcosts _ rfl⟩

end DcopSearch
