import DcopSearch.Proofs.Network.Called
import DcopSearch.Proofs.Network.Optimal
import DcopSearch.Proofs.Normalization.Rising

/-! The bounds that roots report.  A root reports its value and, if it leads in its node, the radius of
this value in the units of the problem; a rule that looks at radii has found this radius to be within
the error before, and the statistics it was found in are the ones that are reported. -/

namespace DcopSearch

open CostArithmetic Exact World

section

variable {K : Type}

/-- The value that a message reports, with its variable. -/
def Message.value? : Message K → Option (String × Value)
  | .assignment name value => some (name, value)
  | _ => none

def Outgoing.values (sent : List (Outgoing K)) : List (String × Value) :=
  sent.filterMap (·.message.value?)

def Outgoing.finalBounds (sent : List (Outgoing K)) : List K := sent.filterMap (·.message.bounds?)

theorem Message.value?_of_letter {message : Message K} (h : message.isResult = false) :
    message.value? = none := by
  cases message <;> first | rfl | cases h

theorem Message.bounds?_of_letter {message : Message K} (h : message.isResult = false) :
    message.bounds? = none := by
  cases message <;> first | rfl | cases h

variable [CostArithmetic K]

namespace SamplingState

variable (s : SamplingState K) (delta : K)

theorem values_results : Outgoing.values (s.results delta) = [(s.name, s.currentValue)] := by
  have hbounds : ∀ bounds : List K, Outgoing.values (bounds.map fun bound =>
      (⟨.collector, .finalBound bound⟩ : Outgoing K)) = [] := fun bounds => by
    simp [Outgoing.values, List.filterMap_map, Message.value?]
  unfold results
  split
  · exact congrArg _ (hbounds _)
  · rfl

theorem finalBounds_results : Outgoing.finalBounds (s.results delta)
    = if s.isRoot && !s.isLeaf then (s.finalBound? delta).toList else [] := by
  unfold results
  split
  · simp [Outgoing.finalBounds, List.filterMap_map, Message.bounds?]
  · rfl

end SamplingState

variable {G : Type} [Generator G] {setup : Setup K} {w w' : World K} {agent name : String}

/-- While a message is handled for a variable nothing is reported, or the results of the variable; of
the other messages no value and no bound can be read. -/
theorem World.Handled.exists_results {outgoing : Outgoing K} {sent : List (Outgoing K)}
    (h : Handled setup G w agent name {outgoing} sent w') (valid : setup.Valid)
    (hsends : w.Sends setup name outgoing) :
    ∃ results, (results = [] ∨ (w' name).exchange.stance = .ended ∧
        results = (w' name).state.results setup.config.delta) ∧
      ∀ {A : Type} (read : Message K → Option A),
        (∀ message, message.isResult = false → read message = none) →
        (∀ finished, read (.agentFinished finished) = none) →
          sent.filterMap (read ·.message) = results.filterMap (read ·.message) := by
  obtain ⟨letters, news, rfl, hflight, hannounces⟩ := h.sends
  have hletters : ∀ {A : Type} (read : Message K → Option A),
      (∀ message, message.isResult = false → read message = none) →
        letters.filterMap (read ·.message) = [] := fun read hletter =>
    List.filterMap_eq_nil_iff.mpr fun letter hm =>
      hletter _ (hsends.isResult_of_letter valid hflight hm)
  rcases hannounces with ⟨-, rfl⟩ | ⟨hstance, finish, rfl, hfinish⟩
  · exact ⟨[], .inl rfl, fun read hletter _ => by
      rw [List.append_nil, hletters read hletter, List.filterMap_nil]⟩
  · refine ⟨_, .inr ⟨hstance, rfl⟩, fun read hletter hagent => ?_⟩
    have hnone : finish.filterMap (read ·.message) = [] := by
      rcases hfinish with ⟨-, rfl⟩ | ⟨-, rfl⟩
      · simp [hagent]
      · rfl
    rw [List.filterMap_append, List.filterMap_append, hletters read hletter, hnone, List.nil_append,
      List.append_nil]

/-- A bound is reported by a variable that ends, beside its value and nothing else. -/
theorem World.Handled.reports {outgoing : Outgoing K} {sent : List (Outgoing K)}
    (h : Handled setup G w agent name {outgoing} sent w') (valid : setup.Valid)
    (hsends : w.Sends setup name outgoing) (hsent : Outgoing.finalBounds sent ≠ []) :
    ∃ bound, (w' name).exchange.stance = .ended ∧
      Outgoing.values sent = [((w' name).state.name, (w' name).state.currentValue)] ∧
      Outgoing.finalBounds sent = [bound] ∧
      (w' name).state.isRoot = true ∧ (w' name).state.isLeaf = false ∧
      (w' name).state.finalBound? setup.config.delta = some bound := by
  obtain ⟨results, hresults, hread⟩ := h.exists_results valid hsends
  have hvalues : Outgoing.values sent = Outgoing.values results :=
    hread Message.value? (fun _ => Message.value?_of_letter) fun _ => rfl
  have hbounds : Outgoing.finalBounds sent = Outgoing.finalBounds results :=
    hread Message.bounds? (fun _ => Message.bounds?_of_letter) fun _ => rfl
  rw [hbounds] at hsent ⊢
  rcases hresults with rfl | ⟨hstance, rfl⟩
  · exact absurd rfl hsent
  rw [SamplingState.finalBounds_results] at hsent ⊢
  split at hsent
  next hroot =>
    obtain ⟨hroot, hleaf⟩ : (w' name).state.isRoot = true ∧ (w' name).state.isLeaf = false := by
      simpa using hroot
    obtain ⟨bound, hbound⟩ : ∃ bound, (w' name).state.finalBound? setup.config.delta = some bound := by
      refine Option.ne_none_iff_exists'.mp fun hnone => ?_
      rw [hnone] at hsent
      exact hsent rfl
    refine ⟨bound, hstance, ?_, ?_, hroot, hleaf, hbound⟩
    · rw [hvalues, SamplingState.values_results]
    · rw [hroot, hleaf, hbound]
      rfl
  · exact absurd rfl hsent

/-- What is known of a variable in a network holds after any calls. -/
theorem Team.Called.held {team : Team K G} {problem : Problem K} {config : Config K} {seed : UInt64}
    (h : team.Called problem config seed)
    (hworst : isInfinite (problem.objective.worst : K) = true) {s : SamplingState K}
    (hs : team.state? name = some s) :
    ∃ agent, s.Held (.ofConfig agent problem.objective config) := by
  obtain ⟨sampler, hsampler, hstate⟩ := Option.bind_eq_some_iff.mp hs
  obtain ⟨agent, -, hagent⟩ := Option.bind_eq_some_iff.mp hsampler
  obtain ⟨member, hmember, rfl⟩ := Option.map_eq_some_iff.mp hagent
  obtain ⟨calls, hcalls⟩ := h agent member hmember
  obtain ⟨hsettings, hfiles⟩ := (Sampler.files_new (G := G) agent problem config seed).after hworst calls
  rw [← hcalls] at hsettings hfiles
  have hheld := (hfiles name s hstate).2
  rw [hsettings] at hheld
  exact ⟨agent, hheld⟩

end

variable {F G : Type} [Field F] [LinearOrder F] [LnSqrt F]

/-- What may be asked for: a positive number as the error, and a number between zero and one. -/
theorem Config.exists_precision {config checked : Config (Exact F)}
    (h : config.validate = .ok checked) :
    ∃ ε δ, config.error = number ε ∧ 0 < ε ∧ config.delta = number δ ∧ 0 < δ ∧ δ < 1 := by
  unfold Config.validate at h
  split at h
  · cases h
  next herror =>
    split at h
    · cases h
    next hdelta =>
      simp only [Bool.not_eq_true', Bool.not_eq_false, Bool.and_eq_true] at herror hdelta
      obtain ⟨hpos, hfinite⟩ := herror
      obtain ⟨hdelta, hone⟩ := hdelta
      obtain ⟨ε, hε⟩ := Exact.exists_number hfinite
      rw [hε] at hpos
      cases hδ : config.delta with
      | number δ =>
        rw [hδ] at hdelta hone
        simp [CostArithmetic.lt, Exact.lt, CostArithmetic.ofNat] at hpos hdelta hone
        exact ⟨ε, δ, hε, hpos, rfl, hdelta, hone⟩
      | undefined => rw [hδ] at hdelta; cases hdelta
      | high => rw [hδ] at hone; cases hone
      | low => rw [hδ] at hdelta; cases hdelta

/-- A radius that does not exceed the error is a number within it, or the root of a negative number. -/
theorem BanditNode.radius_cases [IsStrictOrderedRing F] {node : BanditNode (Exact F)} {index : Nat}
    {ε δ : F} (hδ : 0 < δ) (h : CostArithmetic.lt (number ε) (node.radius index (number δ)) = false) :
    (∃ ρ, node.radius index (number δ) = number ρ ∧ ρ ≤ ε) ∨
      node.radius index (number δ) = undefined ∧ LnSqrt.ln (2 / δ) < 0 := by
  cases harm : node.arms[index]? with
  | none =>
    rw [radius, harm] at h
    cases h
  | some arm =>
    have hradius : node.radius index (number δ) = confidenceRadius arm.visits (number δ) := by
      rw [radius, harm]
      rfl
    rw [hradius] at h ⊢
    by_cases hvisits : arm.visits = 0
    · rw [confidenceRadius, if_pos hvisits] at h
      cases h
    have htwice : 0 < 2 * (arm.visits : F) := mul_pos two_pos (Nat.cast_pos.mpr (by omega))
    rw [confidenceRadius_eq hδ hvisits] at h ⊢
    by_cases hln : 0 ≤ LnSqrt.ln (2 / δ) / (2 * arm.visits)
    · rw [if_pos hln] at h ⊢
      exact .inl ⟨_, rfl, by simpa [CostArithmetic.lt, Exact.lt] using h⟩
    · rw [if_neg hln]
      refine .inr ⟨rfl, ?_⟩
      by_contra hnot
      exact hln (div_nonneg (not_lt.mp hnot) htwice.le)

/-- The bound is the radius of the leading value, which is held, in the units of the problem, and this
radius is within the error. -/
structure SamplingState.Precise (config : Config (Exact F)) (s : SamplingState (Exact F))
    (node : BanditNode (Exact F)) (index : Nat) (bound : Exact F) : Prop where
  active : s.node? = some node
  leads : node.leader.map Prod.fst = some index
  held : s.current = some index
  scaled : bound = s.scalingFactor * node.radius index config.delta
  within : CostArithmetic.lt config.error (node.radius index config.delta) = false
  bounded : CostArithmetic.lt (s.scalingFactor * config.error) bound = false
  /-- All of them are numbers, as far as the root is taken of a number that is not negative. -/
  numbers : ∃ ε δ d, config.error = number ε ∧ config.delta = number δ ∧
    s.scalingFactor = number d ∧ 0 < d ∧
    (0 ≤ LnSqrt.ln (2 / δ) → ∃ ρ, node.radius index config.delta = number ρ ∧ ρ ≤ ε ∧
      bound = number (d * ρ) ∧ d * ρ ≤ d * ε)

section

variable {setup : Setup (Exact F)} {w : World (Exact F)} {name : String}

theorem World.Gathered.exists_pos_scalingFactor [IsStrictOrderedRing F] (h : w.Gathered setup)
    (valid : setup.Valid) (hinv : w.Inv setup)
    (hpenalty : ∃ p, setup.config.penaltyFor setup.problem.objective = number p)
    (hn : name ∈ setup.problem.names) (hp : setup.parent name = none)
    (hs : (w name).ascent.stage = .normalized) :
    ∃ d, 0 < d ∧ (w name).state.scalingFactor = number d := by
  have hreported : (w name).range.reported = true := by simp [(hinv.sound name hn).reported, hs]
  have hends : (w name).range.ends = setup.ends name :=
    h.of_eq valid hinv (.ends setup valid) hn hreported
  rw [(h.divisors name hn).normalized hp hs]
  exact Range.exists_pos_divisor (hends ▸ setup.rising_ends hpenalty name)

end

/-- A bound that is taken where the leading value is held with a radius within the error. -/
theorem SamplingState.Held.precise [IsStrictOrderedRing F] {agent : String} {objective : Objective}
    {config : Config (Exact F)} {s : SamplingState (Exact F)}
    (h : s.Held (.ofConfig agent objective config)) (hnonleaf : s.isLeaf = false)
    (hphase : s.phase = .converged) (hrule : config.rule ≠ .regret)
    (checked : config.validate = .ok config) (hscale : ∃ d, 0 < d ∧ s.scalingFactor = number d)
    {bound : Exact F} (hbound : s.finalBound? config.delta = some bound) :
    ∃ node index, s.Precise config node index bound := by
  obtain ⟨node, hnode, hleader⟩ := Option.bind_eq_some_iff.mp hbound
  obtain ⟨leader, hl, rfl⟩ := Option.map_eq_some_iff.mp hleader
  obtain ⟨hheld, hwithin⟩ := h.ended hnonleaf hphase node leader hnode hl
  have hwithin : CostArithmetic.lt config.error (node.radius leader.1 config.delta) = false :=
    hwithin hrule
  obtain ⟨ε, δ, hε, -, hδ, hpos, -⟩ := Config.exists_precision checked
  obtain ⟨d, hd, hfactor⟩ := hscale
  rw [hε, hδ] at hwithin
  have hscaled : ∀ x : F, s.scalingFactor * number x = number (d * x) := fun x => by
    rw [hfactor]
    rfl
  have hcases := BanditNode.radius_cases hpos hwithin
  refine ⟨node, leader.1, hnode, by rw [hl]; rfl, hheld, rfl, by rw [hε, hδ, hwithin], ?_,
    ε, δ, d, hε, hδ, hfactor, hd, fun hln => ?_⟩
  · rw [hε, hδ, hscaled]
    rcases hcases with ⟨ρ, hρ, hle⟩ | ⟨hundefined, -⟩
    · rw [hρ, hscaled]
      simpa [CostArithmetic.lt, Exact.lt] using mul_le_mul_of_nonneg_left hle hd.le
    · rw [hundefined, hfactor]
      rfl
  · rcases hcases with ⟨ρ, hρ, hle⟩ | ⟨-, hnegative⟩
    · rw [hδ, hρ]
      exact ⟨ρ, rfl, hle, hscaled ρ, mul_le_mul_of_nonneg_left hle hd.le⟩
    · exact absurd hln (not_le.mpr hnegative)

variable [Generator G] {problem : Problem (Exact F)} {config : Config (Exact F)}

/-- In whatever order the messages are delivered, a bound is reported by a root beside its value.  It is
the radius of this value in the units of the problem, and this radius is within the error. -/
theorem Network.certifies [IsStrictOrderedRing F] (built : problem.Built)
    (checked : config.validate = .ok config) (hrule : config.rule ≠ .regret) (seed : UInt64) :
    ∃ first : Network (Exact F) G, start (.generated problem config) seed = .ok first ∧
      ∀ network, first.Reaches network → ∀ position delivery next,
        network.deliverAt position = some (delivery, next) →
        Outgoing.finalBounds delivery.sent ≠ [] →
        ∃ root value bound s node index,
          Outgoing.values delivery.sent = [(root, value)] ∧
          Outgoing.finalBounds delivery.sent = [bound] ∧
          next.team.state? root = some s ∧ s.parent = none ∧ s.domain[index]? = some value ∧
          s.Precise config node index bound := by
  have valid := Setup.valid_generated built config
  obtain ⟨first, hfirst, hshows⟩ := exists_start (G := G) valid seed
  refine ⟨first, hfirst, fun network hreaches position delivery next hd hsent => ?_⟩
  have hcalled := (hreaches.deliver position hd).called (called_start hfirst)
  obtain ⟨w, hshows, hsteps⟩ := hreaches.shows valid hshows
  obtain ⟨sent, w', houtcome, hnext, hcase⟩ := hshows.deliverAt valid hd
  have hdelivered : delivery.sent = sent := by rw [Delivery.sent, houtcome]
  rw [hdelivered] at hsent ⊢
  rcases hcase with ⟨-, -, rfl⟩ | ⟨name, agent, howner, hsends, hhandled⟩
  · exact absurd rfl hsent
  obtain ⟨bound, hstance, hvalues, hbounds, hroot, hleaf, hbound⟩ := hhandled.reports valid hsends hsent
  have hn := Problem.mem_names_of_owner howner
  have hsound := hnext.inv.sound name hn
  have hended : (w' name).exchange = .ended := by
    cases hx : (w' name).exchange <;> simp_all [Exchange.stance]
  have hstage := (hsound.of_ended hended).1
  have hstate := hnext.team.state?_eq_some hn hstage
  have hparent : (w' name).state.parent = none := by simpa [SamplingState.isRoot] using hroot
  have hgathered := (gathered_initial _).steps valid (inv_initial _) (hsteps.trans hhandled.steps)
  have hscale := hgathered.exists_pos_scalingFactor valid hnext.inv
    (Config.exists_penalty checked _) hn (hsound.parent.symm.trans hparent) hstage
  obtain ⟨member, hheld⟩ := hcalled.held (Exact.isInfinite_worst _) hstate
  obtain ⟨node, index, hprecise⟩ := hheld.precise hleaf (hsound.phase_eq_converged.mpr hended)
    hrule checked hscale hbound
  have hlt := (hsound.sampling hstage).current index hprecise.held
  refine ⟨name, _, bound, _, node, index, hsound.named ▸ hvalues, hbounds, hstate, hparent, ?_,
    hprecise⟩
  rw [SamplingState.currentValue, hprecise.held, Option.getD_some, List.getElem?_eq_getElem hlt,
    Option.getD_some]

/-- The root of the star ends with a bound of fourteen, where the error of two comes to as much. -/
theorem Network.certifies_star :
    ∃ (first network next : Network (Exact ℚ) ChaCha.Stream) (delivery : Delivery (Exact ℚ))
      (s : SamplingState (Exact ℚ)) (node : BanditNode (Exact ℚ)) (index : Nat),
      Config.loose.rule ≠ .regret ∧ start (.generated .star .loose) 1 = .ok first ∧
      first.Reaches network ∧ network.deliverAt 0 = some (delivery, next) ∧
      Outgoing.values delivery.sent = [("a", 1)] ∧
      Outgoing.finalBounds delivery.sent = [number 14] ∧
      next.team.state? "a" = some s ∧ s.parent = none ∧ s.domain[index]? = some 1 ∧
      s.Precise .loose node index (number 14) := by
  obtain ⟨first, hfirst, h⟩ := certifies (G := ChaCha.Stream) Problem.built_star
    Config.validate_loose (by decide) 1
  have hrun : (start (G := ChaCha.Stream) (.generated .star .loose) 1).toOption.any fun first =>
      ((first.follow [] 0 30).2.deliverAt 0).any fun step =>
        Outgoing.values step.1.sent == [("a", 1)] &&
          Outgoing.finalBounds step.1.sent == [number 14] := by
    decide +kernel
  rw [hfirst, Except.toOption, Option.any_some] at hrun
  obtain ⟨⟨delivery, next⟩, hd, hsent⟩ := (Option.any_eq_true _ _).mp hrun
  obtain ⟨hvalues, hbounds⟩ := (Bool.and_eq_true _ _).mp hsent
  have hvalues := beq_iff_eq.mp hvalues
  have hbounds := beq_iff_eq.mp hbounds
  have hreaches := reaches_follow first [] 0 30
  obtain ⟨root, value, bound, s, node, index, hroot, hbound, hstate, hparent, hvalue, hprecise⟩ :=
    h _ hreaches 0 delivery next hd (by rw [hbounds]; exact List.cons_ne_nil _ _)
  rw [hvalues] at hroot
  rw [hbounds] at hbound
  obtain ⟨rfl, rfl⟩ : "a" = root ∧ (1 : Value) = value := by simpa using hroot
  obtain rfl : number 14 = bound := by simpa using hbound
  exact ⟨first, _, next, delivery, s, node, index, by decide, hfirst, hreaches, hd, hvalues, hbounds,
    hstate, hparent, hvalue, hprecise⟩

end DcopSearch
