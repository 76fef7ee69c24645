import DcopSearch.Proofs.Network.Reports
import DcopSearch.Random.ChaCha

/-! What it means that a variable reports no cost.  In whatever order the messages are delivered, such a
report and every value that is given up have their grounds: the variable's own spaces, or a child that
was refuted.  With pruning a child is refuted as soon as one of its values is, which tells nothing of
the others; so a variable that has no others to choose from, or no children, tells the truth. -/

namespace DcopSearch

open CostArithmetic World

/-- The node of a context has given a value up. -/
def SamplingState.GivesUp {K : Type} [CostArithmetic K] (s : SamplingState K) (key : List Value)
    (own : Value) : Prop :=
  ∃ place node i, s.index[key]? = some place ∧ s.nodes[place]? = some node ∧
    s.domain[i]? = some own ∧ node.isFeasible i = false

variable {F G : Type} [Field F] [LinearOrder F] [LnSqrt F]

/-- On what grounds a variable reports no cost in its context. -/
structure Setup.Refutes (setup : Setup (Exact F)) (name : String) (s : SamplingState (Exact F)) :
    Prop where
  grounds : setup.Refuted name s.context
  infeasible : setup.Decisive name → setup.Infeasible s.scalingFactor name s.context

/-- On what grounds a variable gives a value up in a context. -/
structure Setup.Excludes (setup : Setup (Exact F)) (name : String) (s : SamplingState (Exact F))
    (key : List Value) (own : Value) : Prop where
  ignoring : setup.config.ignoreInfeasible = true
  grounds : setup.Blocked name (s.under key own) ∨ setup.Dead name (s.under key own)
  infeasible : (∀ child ∈ setup.children name, setup.Decisive child) →
    setup.Infeasible s.scalingFactor name (s.under key own)

namespace World.Kept

variable {setup : Setup (Exact F)} {w : World (Exact F)} {name : String}

theorem refutes (h : w.Kept setup) (valid : setup.Valid) (priced : setup.Priced)
    (hn : name ∈ setup.problem.names) (hworking : (w name).Working setup name false)
    (hx : (w name).exchange = .answered none) : setup.Refutes name (w name).state := by
  have hrefuted := (h.honest name hn).answered hx
  rw [hworking.informed.contextOf_eq] at hrefuted
  have hdivides := ((h.scaled.cells name hn).normalized hworking.stage).1
  exact ⟨hrefuted, hrefuted.infeasible valid priced hdivides hn⟩

/-- A value that costs too much by itself is blocked, and another one was pruned. -/
theorem grounds {key : List Value} {own : Value} (h : w.Kept setup) (priced : setup.Priced)
    (hn : name ∈ setup.problem.names) (hs : (w name).ascent.stage = .normalized)
    (hgiven : (w name).state.GivesUp key own) :
    setup.config.ignoreInfeasible = true ∧
      (setup.Blocked name ((w name).state.under key own) ∨
        setup.Dead name ((w name).state.under key own)) := by
  obtain ⟨place, node, i, hindex, hnode, hown, hi⟩ := hgiven
  obtain ⟨cost, hcost, hgrounds⟩ :=
    ((h.honest name hn).coherent hs).prices key place node hindex hnode i own hown
  rcases hgrounds with rfl | ⟨-, hprune, child, hc, hrefuted⟩
  · obtain ⟨arm, harm, hlocal⟩ : ∃ arm, node.arms[i]? = some arm ∧
        arm.localCost = (w name).state.costAt key own := by
      simpa [BanditNode.costs] using hcost
    have hinfinite : isInfinite ((w name).state.costAt key own) = true := by
      simpa [BanditNode.isFeasible, harm, Arm.isFeasible, hlocal] using hi
    obtain ⟨hignore, hblocked⟩ := ((h.scaled.cells name hn).costAt priced hs key own).2 hinfinite
    exact ⟨hignore, .inl hblocked⟩
  · exact ⟨hrefuted.ignoring, .inr ⟨hprune, child, hc, hrefuted⟩⟩

theorem stage_of_given {key : List Value} {own : Value} (h : w.Kept setup)
    (hn : name ∈ setup.problem.names) (hgiven : (w name).state.GivesUp key own) :
    (w name).ascent.stage = .normalized := by
  obtain ⟨place, _, _, hindex, -⟩ := hgiven
  by_contra hs
  rw [(h.inv.sound name hn).registered hs] at hindex
  simp [Setup.registered, SamplingState.ofView] at hindex

theorem excludes {key : List Value} {own : Value} (h : w.Kept setup) (valid : setup.Valid)
    (priced : setup.Priced) (hn : name ∈ setup.problem.names)
    (hgiven : (w name).state.GivesUp key own) : setup.Excludes name (w name).state key own := by
  have hs := h.stage_of_given hn hgiven
  obtain ⟨hignore, hgrounds⟩ := h.grounds priced hn hs hgiven
  have hdivides := ((h.scaled.cells name hn).normalized hs).1
  refine ⟨hignore, hgrounds, fun hdecisive => ?_⟩
  rcases hgrounds with hblocked | ⟨-, child, hc, hrefuted⟩
  · exact hblocked.infeasible priced hdivides hignore hn
  · exact Setup.infeasible_of_child valid hc (hrefuted.infeasible valid priced hdivides
      (valid.mem_names_of_child hc) (hdecisive child hc))

end World.Kept

variable [Generator G] {problem : Problem (Exact F)} {config : Config (Exact F)}

/-- In whatever order the messages are delivered, a variable that reports no cost is refuted in its
context, and whatever value a variable gives up it has reason to.  Where that is decisive nothing in the
subtree is feasible. -/
theorem Network.reports_refuted (built : problem.Built)
    (priced : ∀ space ∈ problem.spaces, space.Priced problem.objective)
    (checked : config.validate = .ok config) (seed : UInt64) :
    ∃ first : Network (Exact F) G, start (.generated problem config) seed = .ok first ∧
      ∀ network, first.Reaches network →
        (∀ position delivery next, network.deliverAt position = some (delivery, next) →
          ∀ parent, (parent, none) ∈ delivery.reports →
          ∃ name state, delivery.outgoing.message.subject? = some name ∧
            (Setup.generated problem config).parent name = some parent ∧
            next.team.state? name = some state ∧
            (Setup.generated problem config).Refutes name state) ∧
        ∀ name ∈ problem.names, ∀ state, network.team.state? name = some state →
          ∀ key own, state.GivesUp key own →
            (Setup.generated problem config).Excludes name state key own := by
  have valid := Setup.valid_generated built config
  have priced := Setup.priced_generated priced checked
  obtain ⟨first, hfirst, hshows⟩ := exists_start (G := G) valid seed
  refine ⟨first, hfirst, fun network hreaches => ⟨fun position delivery next hd parent hr => ?_, ?_⟩⟩
  · obtain ⟨name, w, hkept, hteam, hsubject, hp, hn, hworking, hx⟩ :=
      hreaches.reports valid priced hshows hd hr
    exact ⟨name, _, hsubject, hp, hteam.state?_eq_some hn hworking.stage,
      hkept.refutes valid priced hn hworking hx⟩
  · intro name hn state hstate key own hgiven
    obtain ⟨w, hw, hsteps⟩ := hreaches.shows valid hshows
    have hkept := (kept_initial _).steps valid priced hsteps
    rw [hw.team.state?_eq hn] at hstate
    split at hstate
    · cases hstate
    · obtain rfl := Option.some.inj hstate
      exact hkept.excludes valid priced hn hgiven

/-- Below the middle of the chain there are feasible values, whatever the first variable has. -/
theorem Setup.not_infeasible_chain {context : String → Option Value}
    (hc : ∀ other value, context other = some value → other = "a" ∧ value = 1) :
    ¬(Setup.generated .chain .severe).Infeasible (.number 5) "b" context := by
  intro hinfeasible
  let value? (other : String) : Option Value :=
    if other = "a" then some 1 else if other = "b" then some 1 else some 0
  have hvalues : ∀ other ∈ Problem.chain.names,
      ∃ own ∈ (Setup.generated .chain .severe).domain other, value? other = some own := by
    decide +kernel
  have hfeasible : ∀ other ∈ Problem.chain.names,
      ∀ space ∈ (Setup.generated .chain .severe).normalizedSpaces (.number 5) other,
        ¬(space.lookup? value?).any isInfinite := by
    decide +kernel
  obtain ⟨other, ho, space, hs, entry, he, hi⟩ := hinfeasible value? (fun other value hv => by
    obtain ⟨rfl, rfl⟩ := hc other value hv
    rfl) fun other ho => hvalues other (Setup.mem_subtree.mp ho).1
  exact hfeasible other (Setup.mem_subtree.mp ho).1 space hs (by rw [he]; exact hi)

/-- A variable in the middle of a chain is refuted by the first of its values that is tried, although
another one is feasible. -/
theorem Network.refuted_chain :
    ∃ (first network next : Network (Exact ℚ) ChaCha.Stream) (position : Nat)
      (delivery : Delivery (Exact ℚ)) (state : SamplingState (Exact ℚ)),
      start (.generated .chain .severe) 1 = .ok first ∧ first.Reaches network ∧
      network.deliverAt position = some (delivery, next) ∧ ("a", none) ∈ delivery.reports ∧
      next.team.state? "b" = some state ∧
      (Setup.generated .chain .severe).Refutes "b" state ∧
      ¬(Setup.generated .chain .severe).Infeasible state.scalingFactor "b" state.context := by
  obtain ⟨first, hfirst, h⟩ := reports_refuted (G := ChaCha.Stream) Problem.built_chain
    Problem.priced_chain Config.validate_severe 1
  have hrun : (((start (G := ChaCha.Stream) (.generated .chain .severe) 1).toOption.bind
      fun first => (first.follow [] 0 9).2.deliverAt 0).any fun (delivery, next) =>
        delivery.reports == [("a", none)] && delivery.outgoing.message.subject? == some "b" &&
        (next.team.state? "b").any fun state =>
          state.slots == [⟨"a", some 1⟩] && state.scalingFactor == .number 5) = true := by
    decide +kernel
  rw [hfirst] at hrun
  obtain ⟨⟨delivery, next⟩, hd, hrun⟩ := (Option.any_eq_true _ _).mp hrun
  simp only [Bool.and_eq_true, beq_iff_eq] at hrun
  obtain ⟨⟨hr, hsubject⟩, hstate⟩ := hrun
  obtain ⟨state, hstate, hheld⟩ := (Option.any_eq_true _ _).mp hstate
  simp only [Bool.and_eq_true, beq_iff_eq] at hheld
  obtain ⟨hslots, hfactor⟩ := hheld
  have hreaches := reaches_follow first [] 0 9
  have hnone : ("a", none) ∈ delivery.reports := by simp [hr]
  obtain ⟨name, state', hname, -, hstate', hrefutes⟩ := (h _ hreaches).1 0 delivery next hd "a" hnone
  obtain rfl : "b" = name := Option.some.inj (hsubject.symm.trans hname)
  obtain rfl : state = state' := Option.some.inj (hstate.symm.trans hstate')
  refine ⟨first, _, next, 0, delivery, state, hfirst, hreaches, hd, hnone, hstate, hrefutes, ?_⟩
  rw [hfactor]
  refine Setup.not_infeasible_chain fun other value hv => ?_
  rw [SamplingState.context, hslots, List.find?_singleton] at hv
  split at hv
  next he => exact ⟨(beq_iff_eq.mp he).symm, (Option.some.inj hv).symm⟩
  next => cases hv

end DcopSearch
