import DcopSearch.Proofs.Network.Agreement
import DcopSearch.Proofs.Network.Completion
import DcopSearch.Proofs.Protocol.Bounded

/-! Normalization keeps the ranking of the values and bounds their costs.  In whatever order the
messages are delivered, once the variables of a component are normalized they hold the spaces over
it, moved and divided by numbers that do not depend on the order; and in the end all variables are
normalized. -/

namespace DcopSearch

open CostArithmetic Exact World

namespace Team

variable {K G : Type}

/-- The variable has got the divisor of its component. -/
def Normalized (team : Team K G) (name : String) : Prop :=
  ∃ phase, team.phase? name = some phase ∧
    ∀ buffered, phase ≠ .awaitingNormalization buffered

/-- The spaces that variables hold, variable by variable. -/
def heldSpaces (team : Team K G) (names : Finset String) : List (CostSpace K) :=
  (team.problem.names.filter (· ∈ names)).flatMap fun name =>
    (team.state? name).elim [] SamplingState.spaces

variable [CostArithmetic K] {setup : Setup K} {w : World K} {team : Team K G} {name : String}

theorem Normalized.stage_eq (h : team.Normalized name) (hshows : team.Shows setup w)
    (hinv : w.Inv setup) (hn : name ∈ setup.problem.names) :
    (w name).ascent.stage = .normalized := by
  obtain ⟨phase, hphase, hpast⟩ := h
  rw [hshows.phase?_eq hn] at hphase
  split at hphase
  · cases hphase
  by_contra hs
  refine hpast (w name).exchange.buffered ((Option.some.inj hphase).symm.trans ?_)
  rw [(hinv.sound name hn).registered hs]

omit [CostArithmetic K] in
theorem normalized_of_converged (h : team.phase? name = some .converged) : team.Normalized name :=
  ⟨_, h, nofun⟩

theorem Shows.held_spaces (h : team.Shows setup w) {names : Finset String}
    (hstage : ∀ name ∈ names, name ∈ setup.problem.names → (w name).ascent.stage = .normalized) :
    team.heldSpaces names
      = (setup.problem.names.filter (· ∈ names)).flatMap fun name => (w name).state.spaces := by
  rw [heldSpaces, h.problem]
  refine List.flatMap_congr fun name hm => ?_
  obtain ⟨hn, hname⟩ := List.mem_filter.mp hm
  rw [h.state?_eq_some hn (hstage name (of_decide_eq_true hname) hn)]
  rfl

end Team

variable {F G : Type} [Field F] [LinearOrder F] [LnSqrt F] [Generator G]
  {problem : Problem (Exact F)} {config : Config (Exact F)}

/-- Once the variables of a component are normalized, they hold the spaces over it, moved and
divided. -/
theorem Network.exists_held [IsStrictOrderedRing F] (built : problem.Built) (seed : UInt64)
    {low high : CostSpace (Exact F) → F}
    (extents : (Setup.generated problem config).Extents low high) :
    ∃ first : Network (Exact F) G, start (.generated problem config) seed = .ok first ∧
      ∀ network, first.Reaches network →
        (network.pool = [] → ∀ name ∈ problem.names, network.team.Normalized name) ∧
        ∀ name ∈ problem.names,
          (∀ other ∈ problem.component name, network.team.Normalized other) →
          (network.team.heldSpaces (problem.component name)).Perm
            ((Setup.generated problem config).normalizedOver low high name) := by
  have valid := Setup.valid_generated built config
  have traced := Setup.traced_generated built config
  obtain ⟨first, hfirst, hshows⟩ := exists_start (G := G) valid seed
  refine ⟨first, hfirst, fun network hreaches => ?_⟩
  obtain ⟨w, hshows, hsteps⟩ := hreaches.shows valid hshows
  refine ⟨fun hpool name hn =>
    Team.normalized_of_converged ((hshows.complete valid hpool).converged name hn),
    fun name hn hall => ?_⟩
  have hstage : ∀ other ∈ problem.component name, other ∈ problem.names →
      (w other).ascent.stage = .normalized :=
    fun other ho hon => (hall other ho).stage_eq hshows.team hshows.inv hon
  rw [hshows.team.held_spaces hstage]
  refine Gathered.spaces_perm ((gathered_initial _).steps valid (inv_initial _) hsteps) valid traced
    hshows.inv ((scaled_initial _).steps valid (inv_initial _) hsteps) extents hn
    (problem.nodup_names.filter _) (fun other => ?_) fun other ho => ?_
  · rw [List.mem_filter, decide_eq_true_eq]
    exact and_iff_right_of_imp fun hm => (Problem.mem_component.mp hm).1
  · obtain ⟨hon, ho⟩ := List.mem_filter.mp ho
    exact hstage other (of_decide_eq_true ho) hon

/-- Every component has a divisor and an offset such that in whatever order the messages are
delivered, once its variables are normalized the total of what they hold is the total of the spaces
over it, moved and divided, and the best values are the same; and in the end all variables are
normalized. -/
theorem Network.preserves [IsStrictOrderedRing F] (built : problem.Built)
    (defined : ∀ space ∈ problem.spaces, space.Defined)
    (finite : isFinite (config.penaltyFor problem.objective) = true) (seed : UInt64) :
    ∃ first : Network (Exact F) G, start (.generated problem config) seed = .ok first ∧
      (∀ network, first.Reaches network → network.pool = [] →
        ∀ name ∈ problem.names, network.team.Normalized name) ∧
      ∀ name ∈ problem.names, ∃ divisor offset : F, 0 < divisor ∧
        ∀ network, first.Reaches network →
          (∀ other ∈ problem.component name, network.team.Normalized other) →
          (Setup.generated problem config).Preserves (problem.component name)
            (network.team.heldSpaces (problem.component name)) divisor offset := by
  have valid := Setup.valid_generated built config
  have traced := Setup.traced_generated built config
  have defined : (Setup.generated problem config).Defined :=
    ⟨defined, Exact.exists_number finite⟩
  obtain ⟨low, high, extents⟩ := defined.exists_extents valid
  obtain ⟨first, hfirst, hheld⟩ := exists_held (G := G) built seed extents
  refine ⟨first, hfirst, fun network hreaches => (hheld network hreaches).1, fun name hn => ?_⟩
  refine ⟨(Setup.generated problem config).divisor low high name,
    (Setup.generated problem config).sumOver (problem.component name) low, extents.divisor_pos,
    fun network hreaches hall => ?_⟩
  exact extents.preserves_held defined ((hheld network hreaches).2 name hn hall) valid traced hn

/-- Once its messages are delivered, the chain has its best values where it had them before. -/
theorem Network.preserves_chain :
    ∃ (first network : Network (Exact ℚ) ChaCha.Stream) (divisor offset : ℚ),
      start (.generated .chain .content) 1 = .ok first ∧ first.Reaches network ∧
      network.pool = [] ∧ (∀ name ∈ Problem.chain.names, network.team.Normalized name) ∧
      0 < divisor ∧ (Setup.generated .chain .content).Preserves (Problem.chain.component "a")
        (network.team.heldSpaces (Problem.chain.component "a")) divisor offset := by
  have hdefined : ∀ space ∈ Problem.chain.spaces, space.Defined := by
    unfold CostSpace.Defined
    decide +kernel
  have hfinite : isFinite (Config.content.penaltyFor Problem.chain.objective) = true := by
    decide +kernel
  obtain ⟨first, hfirst, hends, h⟩ := preserves (G := ChaCha.Stream) Problem.built_chain hdefined
    hfinite 1
  have hrun : (start (G := ChaCha.Stream) (.generated .chain .content) 1).toOption.any fun first =>
      (first.follow [] 0 40).2.pool.isEmpty := by
    decide +kernel
  rw [hfirst] at hrun
  have hpool := List.isEmpty_iff.mp hrun
  have hreaches := reaches_follow first [] 0 40
  obtain ⟨divisor, offset, hpos, hpreserves⟩ := h "a" (by decide +kernel)
  have hnormalized := hends _ hreaches hpool
  exact ⟨first, _, divisor, offset, hfirst, hreaches, hpool, hnormalized, hpos,
    hpreserves _ hreaches fun other ho => hnormalized other (Problem.mem_component.mp ho).1⟩

/-- Every space over a component has a share of a unit such that in whatever order the messages are
delivered, once the variables of the component are normalized the feasible costs that they hold lie
between zero and the shares, unless the substitute undercuts them; and in the end all variables are
normalized. -/
theorem Network.bounds [IsStrictOrderedRing F] (built : problem.Built)
    (priced : ∀ space ∈ problem.spaces, space.Priced problem.objective)
    (finite : isFinite (config.penaltyFor problem.objective) = true) (seed : UInt64) :
    ∃ first : Network (Exact F) G, start (.generated problem config) seed = .ok first ∧
      (∀ network, first.Reaches network → network.pool = [] →
        ∀ name ∈ problem.names, network.team.Normalized name) ∧
      ∀ name ∈ problem.names, ∃ rescaled share,
        ∀ network, first.Reaches network →
          (∀ other ∈ problem.component name, network.team.Normalized other) →
          (Setup.generated problem config).Bounds (problem.component name)
            (network.team.heldSpaces (problem.component name)) rescaled share := by
  have valid := Setup.valid_generated built config
  have traced := Setup.traced_generated built config
  have priced : (Setup.generated problem config).Priced := ⟨priced, Exact.exists_number finite⟩
  obtain ⟨low, high, extents⟩ := priced.defined.exists_extents valid
  obtain ⟨first, hfirst, hheld⟩ := exists_held (G := G) built seed extents
  refine ⟨first, hfirst, fun network hreaches => (hheld network hreaches).1, fun name hn => ?_⟩
  refine ⟨(Setup.generated problem config).rescaled low high name,
    (Setup.generated problem config).share low high name, fun network hreaches hall => ?_⟩
  exact extents.bounds_held priced ((hheld network hreaches).2 name hn hall) valid traced hn

/-- One variable, with a cost beyond the one that stands for its infeasible value. -/
def Problem.steep : Problem (Exact ℚ) where
  objective := .minimize
  declarations := (∅ : Std.ExtTreeMap String Variable).insert "a" ⟨"a", "x", [0, 1, 2]⟩
  spaces := [⟨"a", [⟨"a", [0, 1, 2]⟩], #[number 0, number 5000, high]⟩]

theorem Problem.built_steep : Problem.steep.Built := by
  have hempty : Problem.Built (.empty .minimize : Problem (Exact ℚ)) := .empty .minimize
  have ha := hempty.declare "a" "x" [0, 1, 2] rfl (by decide +kernel)
  exact ha.enforce (by decide) rfl (by decide +kernel)

theorem Problem.priced_steep :
    ∀ space ∈ Problem.steep.spaces, space.Priced Problem.steep.objective := by
  intro space hs entry he
  obtain rfl := List.mem_singleton.mp hs
  obtain rfl | rfl | rfl : entry = number 0 ∨ entry = number 5000 ∨ entry = high := by
    simpa using he
  · exact .inl ⟨0, rfl⟩
  · exact .inl ⟨5000, rfl⟩
  · exact .inr rfl

theorem Problem.mem_spacesOver_steep : ∀ space ∈ Problem.steep.spaces,
    space ∈ Problem.steep.spacesOver (Problem.steep.component "a") := by
  intro space hs
  obtain rfl := List.mem_singleton.mp hs
  have hself : "a" ∈ Problem.steep.component "a" :=
    Problem.mem_component.mpr ⟨by decide +kernel, .refl⟩
  refine List.mem_filter.mpr ⟨hs, List.any_eq_true.mpr ⟨"a", List.mem_cons_self, ?_⟩⟩
  exact decide_eq_true hself

/-- A cost of the steep problem is undercut, and is left above the share of its space. -/
theorem Network.bounds_steep :
    ∃ (first network : Network (Exact ℚ) ChaCha.Stream)
        (rescaled : CostSpace (Exact ℚ) → CostSpace (Exact ℚ)) (share : CostSpace (Exact ℚ) → ℚ),
      start (.generated .steep .standard) 1 = .ok first ∧ first.Reaches network ∧
      network.pool = [] ∧
      (Setup.generated .steep .standard).Bounds (Problem.steep.component "a")
        (network.team.heldSpaces (Problem.steep.component "a")) rescaled share ∧
      ∃ space ∈ Problem.steep.spaces, ∃ y, (rescaled space).table[1]? = some (number y) ∧
        0 ≤ y ∧ share space < y := by
  have hfinite : isFinite ((Config.standard : Config (Exact ℚ)).penaltyFor
      Problem.steep.objective) = true := by
    decide +kernel
  obtain ⟨first, hfirst, hends, h⟩ := bounds (G := ChaCha.Stream) Problem.built_steep
    Problem.priced_steep hfinite 1
  have hrun : (start (G := ChaCha.Stream) (.generated .steep .standard) 1).toOption.any fun first =>
      (first.follow [] 0 40).2.pool.isEmpty := by
    decide +kernel
  rw [hfirst] at hrun
  have hpool := List.isEmpty_iff.mp hrun
  have hreaches := reaches_follow first [] 0 40
  obtain ⟨rescaled, share, hbounds⟩ := h "a" (by decide +kernel)
  have hbounds := hbounds _ hreaches fun other ho =>
    hends _ hreaches hpool other (Problem.mem_component.mp ho).1
  refine ⟨first, _, rescaled, share, hfirst, hreaches, hpool, hbounds, _, List.mem_cons_self, ?_⟩
  obtain ⟨y, hy, hlow, hshare⟩ := hbounds.entry _
    (Problem.mem_spacesOver_steep _ List.mem_cons_self) 1 5000 rfl
  -- the cost is beyond both the substitute and the best cost
  have hundercut : (Setup.generated .steep .standard).Undercuts .minimize
      ⟨"a", [⟨"a", [0, 1, 2]⟩], #[number 0, number 5000, high]⟩ (5000 : ℚ) :=
    ⟨rfl, 1000, by decide +kernel, ⟨high, by simp, rfl⟩, by decide +kernel, 0, by simp,
      by decide +kernel⟩
  exact ⟨y, hy, hlow.mpr nofun, lt_of_not_ge fun hle => hshare.mp hle hundercut⟩

end DcopSearch
