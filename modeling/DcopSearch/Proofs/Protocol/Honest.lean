import DcopSearch.Proofs.Protocol.Attuned
import DcopSearch.Proofs.Protocol.Refuted
import DcopSearch.Proofs.Sampling.Grounds

/-! What a variable gives up is refuted.  The nodes of a variable are coherent, and a report without a
cost, whether it is under way or was counted, comes from a variable that is refuted in the context of
its parent. -/

namespace DcopSearch

open CostArithmetic

variable {K : Type}

namespace SamplingState

variable {problem : Problem K} {s t : SamplingState K}

theorem contextOf_contextKey (s : SamplingState K) (name : String) :
    s.contextOf s.contextKey name
      = (s.slots.map fun slot => (slot.name, slot.value.getD 0)).lookup name := by
  rw [contextOf, contextKey, List.zip_map']

theorem Keeps.context (h : s.Keeps t) :
    t.contextOf t.contextKey = s.contextOf s.contextKey := by
  funext name
  rw [contextOf_contextKey, contextOf_contextKey, h.slots]

/-- What a variable knows that has taken the context of its parent over, its parent knows as well. -/
theorem Follows.context_le (h : t.Follows s) (hs : s.Sound problem) (hi : t.Informed) (name : String)
    (value : Value) (hv : t.contextOf t.contextKey name = some value) :
    s.under s.contextKey s.currentValue name = some value := by
  rw [contextOf_contextKey] at hv
  obtain ⟨before, after, hsplit, -⟩ := List.lookup_eq_some_iff.mp hv
  obtain ⟨slot, hm, he⟩ : ∃ slot ∈ t.slots, (slot.name, slot.value.getD 0) = (name, value) :=
    List.mem_map.mp (by simp [hsplit])
  obtain ⟨rfl, rfl⟩ := Prod.mk.inj he
  rw [← hs.lookup_entries s.currentValue slot.name]
  refine (h slot hm).symm.trans ?_
  obtain ⟨held, hheld⟩ := Option.isSome_iff_exists.mp (hi slot hm)
  simp [hheld]

end SamplingState

variable [CostArithmetic K] {setup : Setup K} {w : World K}

namespace Cell

/-- What a cell keeps to.  A value is given up where it leaves a child refuted. -/
structure Honest (setup : Setup K) (name : String) (c : Cell K) : Prop where
  coherent : c.ascent.stage = .normalized →
    c.state.Coherent (setup.settings name) (setup.Dead name)
  samples : c.exchange.stance = .busy → c.state.Samples
  answered : c.exchange = .answered none →
    setup.Refuted name (c.state.contextOf c.state.contextKey)
  spoiled : c.exchange.stance = .busy → c.state.round.infeasible = true →
    ∃ child ∈ setup.children name,
      setup.Refuted child (c.state.under c.state.contextKey c.state.currentValue)

theorem Honest.congr {name : String} {c d : Cell K} (h : c.Honest setup name)
    (hstage : d.ascent.stage = .normalized → c.ascent.stage = .normalized)
    (hstate : d.state = c.state) (hbusy : d.exchange.stance = .busy → c.exchange.stance = .busy)
    (hanswered : d.exchange = .answered none → c.exchange = .answered none) :
    d.Honest setup name := by
  refine ⟨fun hs => ?_, fun hb => ?_, fun ha => ?_, fun hb => ?_⟩
  · rw [hstate]; exact h.coherent (hstage hs)
  · rw [hstate]; exact h.samples (hbusy hb)
  · rw [hstate]; exact h.answered (hanswered ha)
  · rw [hstate]; exact h.spoiled (hbusy hb)

theorem Honest.of_waiting {name : String} {c : Cell K} (hs : c.exchange.stance = .waiting)
    (hx : ∀ cost, c.exchange ≠ .answered cost)
    (hc : c.ascent.stage = .normalized →
      c.state.Coherent (setup.settings name) (setup.Dead name)) : c.Honest setup name :=
  ⟨hc, by simp [hs], fun ha => absurd ha (hx none), by simp [hs]⟩

theorem Sound.coherent_normalized {name : String} {c : Cell K} (h : c.Sound setup name)
    (hs : c.ascent.stage ≠ .normalized) (divisor : K) :
    (c.normalized setup name divisor).state.Coherent (setup.settings name) (setup.Dead name) := by
  obtain ⟨hnodes, hindex, -⟩ := h.unmet_normalized hs divisor
  refine ⟨?_, ?_, ?_⟩ <;> simp [hnodes, hindex]

end Cell

namespace World

/-- All variables are honest. -/
def Honest (setup : Setup K) (w : World K) : Prop :=
  ∀ name ∈ setup.problem.names, (w name).Honest setup name

theorem honest_initial (setup : Setup K) : (World.initial setup).Honest setup :=
  fun _ _ => .of_waiting rfl (by simp [World.initial, Cell.initial])
    (by simp [World.initial, Cell.initial, Ascent.stage])

theorem Honest.rewrite (h : w.Honest setup) {name : String} {cell : Cell K} {children : List String}
    {change : String → Cell K → Cell K} (hcell : cell.Honest setup name)
    (hchildren : ∀ child ∈ children, (change child (w child)).Honest setup child) :
    (w.rewrite name cell children change).Honest setup :=
  forall_cells_rewrite (P := fun name c => c.Honest setup name) h hcell hchildren

theorem Honest.update (h : w.Honest setup) {name : String} {cell : Cell K}
    (hcell : cell.Honest setup name) : (w.update name cell).Honest setup :=
  h.rewrite hcell (by simp)

/-- Normalization is no concern of the exchange, as long as a variable gathers. -/
theorem Honest.prepares (h : w.Honest setup) (valid : setup.Valid) (hinv : w.Inv setup)
    {name : String} {cell : Cell K} {children : List String} {change : String → Cell K → Cell K}
    (ha : w.Prepares setup name cell children change) :
    (w.rewrite name cell children change).Honest setup := by
  obtain ⟨hwaiting, hanswered⟩ := (hinv.sound name ha.mem_names).waiting_of_early ha.before
  rw [← ha.exchange] at hwaiting hanswered
  refine h.rewrite (.of_waiting hwaiting hanswered fun hd => absurd hd ha.after) fun child hm => ?_
  have halike := ha.alike child hm
  exact (h child (valid.mem_names_of_child (ha.below child hm))).congr
    (fun hd => halike.stage ▸ hd) halike.state (fun hb => halike.stance ▸ hb)
    fun hx => (ha.answers child hm).symm.trans hx

theorem Honest.normalize (h : w.Honest setup) (valid : setup.Valid) (hinv : w.Inv setup)
    {name : String} {divisor : K} (hn : name ∈ setup.problem.names)
    (ha : (w name).ascent = .dividing divisor) : (w.normalize setup name divisor).Honest setup := by
  have hclosed : (w name).ascent.stage = .closed := by rw [ha]; rfl
  have hs : (w name).ascent.stage ≠ .normalized := by simp [hclosed]
  have hsound := hinv.sound name hn
  obtain ⟨hwaiting, hanswered, -⟩ := hsound.exchange_normalized hs divisor
  refine h.rewrite (.of_waiting hwaiting hanswered fun _ => hsound.coherent_normalized hs divisor)
    fun child hc => ?_
  exact (h child (valid.mem_names_of_child hc)).congr (by simp [Ascent.stage]) rfl
    (fun hb => hb) fun hx => hx

theorem Honest.keep (h : w.Honest setup) {name : String} {context : Context}
    (hs : (w name).ascent.stage ≠ .normalized) :
    (w.update name ((w name).keeping context)).Honest setup :=
  h.update (.of_waiting rfl (by simp [Cell.keeping]) fun hd => absurd hd hs)

theorem Honest.take (h : w.Honest setup) (valid : setup.Valid) (hinv : w.Inv setup) {name : String}
    {context : Context} (hn : name ∈ setup.problem.names) (hx : (w name).exchange = .asked context)
    (hs : (w name).ascent.stage = .normalized) :
    (w.update name ((w name).taking context)).Honest setup := by
  have hstate := (hinv.sound name hn).sampling hs
  obtain ⟨hkeys, -⟩ := hinv.covers_of_asked valid hn hx hs
  refine h.update (.of_waiting rfl (by simp [Cell.taking]) fun _ => ?_)
  exact ((h name hn).coherent hs).congr rfl (hstate.map_name_assign hkeys) rfl rfl rfl rfl

/-- A report without a cost that is counted comes from a child that is refuted. -/
theorem Honest.count (h : w.Honest setup) (valid : setup.Valid) (hinv : w.Inv setup)
    (hattuned : w.Attuned setup)
    {parent name : String} {cost : Option K} (hp : setup.parent name = some parent)
    (hx : (w name).exchange = .answered cost) : (w.count parent name cost).Honest setup := by
  obtain ⟨hpn, hn⟩ := valid.mem_names hp
  obtain ⟨final, hb, hbusy⟩ := hinv.busy_of_answered valid hp hx
  have hstance : (w parent).exchange.stance = .busy := by rw [hb]; rfl
  have hparent := h parent hpn
  have hchild := valid.mem_children.mpr hp
  have hfollows := (hattuned parent name hp (by simp [hstance]) (by rw [hx]; rfl)).2
  have hcell : ((w parent).counting cost).Honest setup parent := by
    refine ⟨fun hs => (hparent.coherent hs).congr rfl rfl rfl rfl rfl rfl, fun hb => ?_,
      fun ha => ?_, fun hb hi => ?_⟩
    · obtain ⟨hopened, hheld⟩ := hparent.samples hb
      exact ⟨hopened, hheld⟩
    · have ha : (w parent).exchange = .answered none := ha
      simp [hb] at ha
    · have hi : ((w parent).state.round.infeasible || cost.isNone) = true := hi
      rw [Bool.or_eq_true] at hi
      rcases hi with hi | hi
      · exact hparent.spoiled hb hi
      · obtain rfl := Option.isNone_iff_eq_none.mp hi
        have hworking := ((hinv.sound name hn).of_answered hx).1
        refine ⟨name, hchild, ((h name hn).answered hx).mono ?_⟩
        exact hfollows.context_le ((hinv.sound parent hpn).sampling hbusy.stage) hworking.informed
  refine h.rewrite hcell fun child hc => ?_
  obtain rfl := List.mem_singleton.mp hc
  exact (h child hn).congr id rfl (by simp [Exchange.stance]) (by simp)

theorem Honest.act (h : w.Honest setup) (valid : setup.Valid) {name : String} {final : Bool}
    {act : Act K} {state : SamplingState K}
    (hk : (w name).state.settled.Keeps state)
    (hcoherent : state.Coherent (setup.settings name) (setup.Dead name))
    (hsamples : act = .sample → state.Samples)
    (hrefuted : act = .report none → setup.Refuted name (state.contextOf state.contextKey)) :
    (w.act setup name act final state).Honest setup := by
  have haddressees : ∀ child ∈ act.addressees (setup.children name),
      child ∈ setup.children name := fun _ => Act.mem_of_addressed
  have hround : state.round.infeasible = false := by
    rw [hk.round]
    rfl
  have hcell : ((w name).acting act final state).Honest setup name := by
    refine ⟨fun _ => hcoherent, fun hb => ?_, fun ha => ?_, fun _ hi => ?_⟩
    · cases act with
      | sample => exact hsamples rfl
      | report cost => cases hb
      | finish => cases hb
    · cases act with
      | report cost =>
        obtain rfl := Exchange.answered.inj ha
        exact hrefuted rfl
      | sample => cases ha
      | finish => cases ha
    · have hi : state.round.infeasible = true := hi
      rw [hround] at hi
      cases hi
  refine h.rewrite hcell fun child hc => ?_
  exact (h child (valid.mem_names_of_child (haddressees child hc))).congr id rfl
    (by simp [Exchange.stance]) (by simp)

end World

section Exact

variable {F G : Type} [Field F] [LinearOrder F] [LnSqrt F] [Generator G] {setup : Setup (Exact F)}
  {w : World (Exact F)}

/-- The value of a cell's variable costs a number or is infeasible by itself. -/
theorem Cell.Scaled.costAt {name : String} {c : Cell (Exact F)} (h : c.Scaled setup name)
    (priced : setup.Priced) (hs : c.ascent.stage = .normalized) (key : List Value) (own : Value) :
    Exact.Priced setup.problem.objective (c.state.costAt key own) ∧
      (isInfinite (c.state.costAt key own) = true →
        setup.config.ignoreInfeasible = true ∧ setup.Blocked name (c.state.under key own)) := by
  obtain ⟨hdivides, hspaces⟩ := h.normalized hs
  exact priced.costAt hdivides hspaces key own

/-- A variable that answers a context without a cost is refuted there. -/
theorem SamplingState.Solves.refuted {name : String} {c : Cell (Exact F)}
    {t : SamplingState (Exact F)} (h : SamplingState.Solves (setup.settings name) (setup.Dead name)
      c.state none t) (valid : setup.Valid) (priced : setup.Priced) (hsound : c.Sound setup name)
    (hscaled : c.Scaled setup name) (hs : c.ascent.stage = .normalized) :
    setup.Refuted name (c.state.contextOf c.state.contextKey) := by
  have hstate := hsound.sampling hs
  have hdomain := (hsound.domain_eq hs).symm
  have hunder : ∀ own, c.state.under c.state.contextKey own
      = Function.update (c.state.contextOf c.state.contextKey) name (some own) := by
    intro own
    rw [SamplingState.under, hsound.named]
  have hcost := fun own => hscaled.costAt priced hs c.state.contextKey own
  have hvalues : ∀ own ∈ c.state.domain,
      isInfinite (c.state.costAt c.state.contextKey own) = true ∨
        setup.Dead name (c.state.under c.state.contextKey own) := by
    generalize hnone : (none : Option (Exact F)) = told at h
    cases h with
    | barren hall => exact hall
    | @best _ i cost _ _ hbest hcosts =>
      have hinfinite : isInfinite cost = true := by
        cases hi : isInfinite cost with
        | true => rfl
        | false => simp [hi] at hnone
      intro own hown
      obtain ⟨j, hlt, rfl⟩ := List.mem_iff_getElem.mp hown
      have hpriced : ∀ entry ∈ (List.range c.state.domain.length).zip
          (c.state.domain.map c.state.ownCost),
          Exact.Priced setup.problem.objective entry.2 := by
        intro entry he
        obtain ⟨other, -, ho⟩ := List.mem_map.mp (List.of_mem_zip he).2
        rw [← ho, hstate.ownCost_eq]
        exact (hcost other).1
      refine .inl ?_
      rw [← hstate.ownCost_eq]
      refine Exact.Priced.isInfinite_of_earliestBest hpriced hbest hinfinite
        (j, c.state.ownCost c.state.domain[j]) ?_
      refine List.mem_iff_getElem?.mpr ⟨j, ?_⟩
      rw [List.getElem?_zip_eq_some]
      simp [hlt]
  obtain ⟨own, hown⟩ := List.exists_mem_of_ne_nil _ (hstate.domain_ne_nil valid.wellFormed)
  have hignore : setup.config.ignoreInfeasible = true := by
    rcases hvalues own hown with hi | ⟨-, child, -, hrefuted⟩
    · exact ((hcost own).2 hi).1
    · exact hrefuted.ignoring
  refine Setup.refuted_of_values hignore fun own hown => ?_
  rw [hdomain] at hown
  rw [← hunder]
  exact (hvalues own hown).imp_left fun hi => ((hcost own).2 hi).2

namespace World

/-- A variable answers a context on good grounds. -/
theorem Honest.grounded_answer (h : w.Honest setup) (valid : setup.Valid) (priced : setup.Priced)
    (hinv : w.Inv setup) (hscaled : w.Scaled setup) {name : String} {final : Bool}
    {act : Act (Exact F)} (generator : G) (hn : name ∈ setup.problem.names)
    (hx : (w name).exchange = .poised final)
    (hacts : ((w name).state.answers (setup.settings name) setup.problem generator final).Acts
      setup.problem setup.config.delta (w name).state final act) :
    ((w name).state.answers (setup.settings name) setup.problem generator final).Grounded
      (setup.settings name) (setup.Dead name)
      (SamplingState.Solves (setup.settings name) (setup.Dead name) (w name).state) act := by
  have hsound := hinv.sound name hn
  have hworking := (hsound.of_poised hx).1
  have hs := hworking.stage
  have hstate := hsound.sampling hs
  have hfeasible : (setup.settings name).ignoreInfeasible = true ∨
      ∀ own ∈ (w name).state.domain, isInfinite ((w name).state.ownCost own) = false := by
    cases hi : setup.config.ignoreInfeasible with
    | true => exact .inl hi
    | false =>
      refine .inr fun own _ => ?_
      rw [hstate.ownCost_eq]
      cases hc : isInfinite ((w name).state.costAt (w name).state.contextKey own) with
      | false => rfl
      | true =>
        have hignore := (((hscaled.cells name hn).costAt priced hs _ own).2 hc).1
        rw [hi] at hignore
        cases hignore
  exact ((h name hn).coherent hs).answers hstate valid.wellFormed hworking.informed hfeasible
    (fun hp => hworking.root (hsound.parent.symm.trans hp)) generator hacts

theorem Inv.keeps_answer {name : String} {final : Bool} (hinv : w.Inv setup)
    (hn : name ∈ setup.problem.names) (hx : (w name).exchange = .poised final)
    {state : SamplingState (Exact F)} (hk : (w name).state.Keeps state) :
    (w name).state.settled.Keeps state := by
  have hquiet := ((hinv.sound name hn).of_poised hx).2
  rwa [SamplingState.settled, ← hquiet.round]

theorem Honest.answer (h : w.Honest setup) (valid : setup.Valid) (priced : setup.Priced)
    (hinv : w.Inv setup) (hscaled : w.Scaled setup) {name : String} {final : Bool}
    {act : Act (Exact F)} (generator : G) (hn : name ∈ setup.problem.names)
    (hx : (w name).exchange = .poised final)
    (hacts : ((w name).state.answers (setup.settings name) setup.problem generator final).Acts
      setup.problem setup.config.delta (w name).state final act) :
    (w.act setup name act final ((w name).state.answers (setup.settings name) setup.problem
      generator final).state).Honest setup := by
  have hgrounded := h.grounded_answer valid priced hinv hscaled generator hn hx hacts
  have hs := ((hinv.sound name hn).of_poised hx).1.stage
  refine h.act valid (hinv.keeps_answer hn hx hacts.keeps) hgrounded.coherent hgrounded.samples
    fun hreport => ?_
  rw [hacts.keeps.context]
  exact (hgrounded.tells none hreport).refuted valid priced (hinv.sound name hn)
    (hscaled.cells name hn) hs

/-- What is known of a variable when all its children have reported: it joins their reports on good
grounds. -/
theorem Honest.grounded_join (h : w.Honest setup) (hinv : w.Inv setup) {name : String} {final : Bool}
    {act : Act (Exact F)} (generator : G) (hn : name ∈ setup.problem.names)
    (hx : (w name).exchange = .busy final)
    (hacts : ((w name).state.settled.joins (setup.settings name) setup.problem generator
      (w name).state.round).Acts setup.problem setup.config.delta (w name).state.settled final act) :
    ((w name).state.settled.joins (setup.settings name) setup.problem generator
      (w name).state.round).Grounded (setup.settings name) (setup.Dead name)
      (SamplingState.Joins (setup.settings name) (w name).state.round (w name).state.settled)
      act := by
  have hsound := hinv.sound name hn
  have hbusy := hsound.of_busy hx
  have hstance : (w name).exchange.stance = .busy := by rw [hx]; rfl
  have hcell := h name hn
  have hstate := hsound.sampling hbusy.stage
  have hleaf : (w name).state.isLeaf = false := by
    rw [SamplingState.isLeaf, hsound.children]
    simpa using hbusy.nonleaf
  have hsamples := hcell.samples hstance
  have hcoherent : (w name).state.settled.Coherent (setup.settings name) (setup.Dead name) :=
    (hcell.coherent hbusy.stage).congr rfl rfl rfl rfl rfl rfl
  have hsettled : (w name).state.settled.Sound setup.problem :=
    hstate.setPhase (w name).state.phase (w name).state.parentFinished .empty
  obtain rfl : (w name).state.settled.parentFinished = final := hbusy.parentFinished
  refine hcoherent.joins hsettled hbusy.informed hleaf (fun hp => ?_)
    ⟨hsamples.opened, hsamples.held⟩ _ (fun hprune hi => ?_) (Exact.isInfinite_worst _) generator
    hacts
  · exact hbusy.parentFinished.trans (hbusy.root (hsound.parent.symm.trans hp))
  · obtain ⟨child, hc, hrefuted⟩ := hcell.spoiled hstance hi
    exact ⟨hrefuted.ignoring, hprune, child, hc, hrefuted⟩

theorem Honest.join (h : w.Honest setup) (valid : setup.Valid) (hinv : w.Inv setup) {name : String}
    {final : Bool} {act : Act (Exact F)} (generator : G) (hn : name ∈ setup.problem.names)
    (hx : (w name).exchange = .busy final)
    (hacts : ((w name).state.settled.joins (setup.settings name) setup.problem generator
      (w name).state.round).Acts setup.problem setup.config.delta (w name).state.settled final act) :
    (w.act setup name act final ((w name).state.settled.joins (setup.settings name) setup.problem
      generator (w name).state.round).state).Honest setup := by
  have hsound := hinv.sound name hn
  have hstance : (w name).exchange.stance = .busy := by rw [hx]; rfl
  have hgrounded := h.grounded_join hinv generator hn hx hacts
  refine h.act valid hacts.keeps hgrounded.coherent hgrounded.samples fun hreport => ?_
  obtain ⟨-, htold⟩ := hgrounded.tells none hreport
  split at htold
  next hspoiled =>
    obtain ⟨hprune, hi⟩ := (Bool.and_eq_true _ _).mp hspoiled
    obtain ⟨child, hc, hrefuted⟩ := (h name hn).spoiled hstance hi
    have hs := (hinv.handing hn (by simp [hstance])).1
    have hstate := hsound.sampling hs
    have hown := hstate.currentValue_mem valid.wellFormed
    rw [hsound.domain_eq hs] at hown
    rw [hacts.keeps.context]
    refine .pruned hprune hown hc ?_
    rw [SamplingState.under, hsound.named] at hrefuted
    exact hrefuted
  next => cases htold

/-- A round is not spoiled if no child can be refuted. -/
theorem Honest.unspoiled (h : w.Honest setup) {name : String} (hn : name ∈ setup.problem.names)
    (hs : (w name).exchange.stance = .busy)
    (hnone : ∀ child ∈ setup.children name, ∀ context, ¬setup.Refuted child context) :
    (w name).state.round.infeasible = false := by
  cases hi : (w name).state.round.infeasible with
  | false => rfl
  | true =>
    obtain ⟨child, hc, hrefuted⟩ := (h name hn).spoiled hs hi
    exact absurd hrefuted (hnone child hc _)

/-- Every step leaves all variables honest. -/
theorem Honest.step (h : w.Honest setup) (valid : setup.Valid) (priced : setup.Priced)
    (hinv : w.Inv setup) (hscaled : w.Scaled setup) (hattuned : w.Attuned setup)
    {w' : World (Exact F)} (hs : Step setup G w w') : w'.Honest setup := by
  cases hs with
  | see hn ha => exact h.prepares valid hinv (prepares_see hn ha)
  | tell hp ha => exact h.prepares valid hinv (hinv.prepares_tell valid hp ha)
  | close hn ha _ => exact h.prepares valid hinv (prepares_close hn ha)
  | normalize hn ha => exact h.normalize valid hinv hn ha
  | keep hn hx hs => exact h.keep hs
  | take hn hx hs => exact h.take valid hinv hn hx hs
  | answer generator hn hx hacts => exact h.answer valid priced hinv hscaled generator hn hx hacts
  | count hp hx => exact h.count valid hinv hattuned hp hx
  | join generator hn hx hr hacts => exact h.join valid hinv generator hn hx hacts

end World

end Exact

end DcopSearch
