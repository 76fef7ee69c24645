import DcopSearch.Proofs.Normalization.Settled
import DcopSearch.Proofs.Protocol.Divisor

/-! What normalization leaves of a component.  The variables of a component hold the spaces over it,
each once, moved and divided; so their total is the total of the spaces as they were, moved and
divided by numbers of the component, and the best values are the same. -/

namespace DcopSearch

open CostArithmetic Exact

variable {F : Type} [Field F] [LinearOrder F] [LnSqrt F]

namespace Setup

variable {setup : Setup (Exact F)} {name : String} {low high : CostSpace (Exact F) → F}

omit [LinearOrder F] [LnSqrt F] in
/-- A sum over a component is a sum over its spaces. -/
theorem Valid.sumOver_component (valid : setup.Valid) (traced : setup.Traced)
    (hn : name ∈ setup.problem.names) (f : CostSpace (Exact F) → F) :
    setup.sumOver (setup.problem.component name) f
      = ((setup.problem.spacesOver (setup.problem.component name)).map f).sum := by
  have hperm := valid.enforced_perm traced hn (setup.problem.component name).nodup_toList
    fun other => Finset.mem_toList
  rw [← (hperm.map f).sum_eq, List.map_flatMap, List.flatMap, List.sum_flatten,
    List.map_map, sumOver, ← Finset.sum_map_toList]
  rfl

/-- The spaces over variables, with infinite costs replaced as normalization does it. -/
def settledOver (setup : Setup (Exact F)) (names : Finset String) : List (CostSpace (Exact F)) :=
  (setup.problem.spacesOver names).map (CostSpace.settled setup.substitute)

/-- A space of the component of a variable, moved and divided. -/
noncomputable def rescaled (setup : Setup (Exact F)) (low high : CostSpace (Exact F) → F)
    (name : String) (space : CostSpace (Exact F)) : CostSpace (Exact F) :=
  space.rescale (number (low space)) (number (setup.divisor low high name)) setup.substitute

/-- The spaces over a component, moved and divided. -/
noncomputable def normalizedOver (setup : Setup (Exact F)) (low high : CostSpace (Exact F) → F)
    (name : String) : List (CostSpace (Exact F)) :=
  (setup.problem.spacesOver (setup.problem.component name)).map (setup.rescaled low high name)

/-- How the spaces that the variables of a component hold go with the spaces over the component. -/
structure Preserves (setup : Setup (Exact F)) (names : Finset String)
    (held : List (CostSpace (Exact F))) (divisor offset : F) : Prop where
  /-- With a substitute there are no infinite costs. -/
  substituted : setup.config.ignoreInfeasible = false →
    ∀ value?, ¬CostSpace.Meets held value?
  /-- Without one, values meet an infinite cost just if they did. -/
  ignored : setup.config.ignoreInfeasible = true →
    ∀ value?, CostSpace.Meets held value?
      ↔ CostSpace.Meets (setup.problem.spacesOver names) value?
  /-- Where no infinite cost is met, the total has been moved and divided. -/
  total : ∀ value?, setup.problem.Assigns names value? → ¬CostSpace.Meets held value? →
    ∃ cost, CostSpace.totalAt? (setup.settledOver names) value? = some (number cost) ∧
      CostSpace.totalAt? held value? = some (number ((cost - offset) / divisor))
  /-- The best values are the same. -/
  best : ∀ value?, setup.problem.Best names held value?
    ↔ setup.problem.Best names (setup.settledOver names) value?

omit [Field F] [LinearOrder F] [LnSqrt F] in
theorem mem_spaces_of_over {names : Finset String} {space : CostSpace (Exact F)}
    (hs : space ∈ setup.problem.spacesOver names) : space ∈ setup.problem.spaces :=
  (List.mem_filter.mp hs).1

omit [Field F] [LinearOrder F] [LnSqrt F] in
/-- The spaces over a component are over no other variables. -/
theorem mem_component_of_scope (wf : setup.problem.WellFormed) {space : CostSpace (Exact F)}
    (hs : space ∈ setup.problem.spacesOver (setup.problem.component name)) {other : String}
    (ho : other ∈ space.scope) : other ∈ setup.problem.component name := by
  obtain ⟨hspace, hover⟩ := List.mem_filter.mp hs
  obtain ⟨member, hm, hc⟩ := List.any_eq_true.mp hover
  obtain ⟨-, hconnected⟩ := Problem.mem_component.mp (of_decide_eq_true hc)
  refine Problem.mem_component.mpr ⟨PseudoTree.mem_scope_names wf hspace ho, ?_⟩
  by_cases he : other = member
  · exact he ▸ hconnected
  · exact hconnected.tail (Problem.mem_neighbours.mpr ⟨he, space, hspace, hm, ho⟩)

omit [Field F] [LinearOrder F] [LnSqrt F] in
theorem exists_entry_over (wf : setup.problem.WellFormed) {value? : String → Option Value}
    (hassigns : setup.problem.Assigns (setup.problem.component name) value?) :
    ∀ space ∈ setup.problem.spacesOver (setup.problem.component name),
      ∃ entry, space.lookup? value? = some entry :=
  fun space hs => (wf.fits space (mem_spaces_of_over hs)).exists_entry fun _ ho =>
    hassigns _ (mem_component_of_scope wf hs ho)

section

variable [IsStrictOrderedRing F] (extents : setup.Extents low high) (defined : setup.Defined)
  {held : List (CostSpace (Exact F))} (hheld : held.Perm (setup.normalizedOver low high name))
include extents defined hheld

theorem Extents.meets_iff {value? : String → Option Value} : CostSpace.Meets held value?
    ↔ CostSpace.Meets (setup.settledOver (setup.problem.component name)) value? := by
  rw [CostSpace.Meets.perm hheld]
  exact CostSpace.meets_rescaled low extents.divisor_pos.ne' (exists_substitute defined.penalty)
    fun space hs => defined.spaces space (mem_spaces_of_over hs)

theorem Extents.exists_total (valid : setup.Valid) (traced : setup.Traced)
    (hn : name ∈ setup.problem.names) {value? : String → Option Value}
    (hassigns : setup.problem.Assigns (setup.problem.component name) value?)
    (hfeasible : ¬CostSpace.Meets held value?) :
    ∃ cost, CostSpace.totalAt? (setup.settledOver (setup.problem.component name)) value?
        = some (number cost) ∧
      CostSpace.totalAt? held value? = some (number ((cost
        - setup.sumOver (setup.problem.component name) low) / setup.divisor low high name)) := by
  rw [CostSpace.totalAt?_perm hheld, valid.sumOver_component traced hn]
  exact CostSpace.exists_total_rescaled low extents.divisor_pos.ne'
    (exists_substitute defined.penalty)
    (fun space hs => defined.spaces space (mem_spaces_of_over hs))
    (exists_entry_over valid.wellFormed hassigns)
    (mt (extents.meets_iff defined hheld).mpr hfeasible)

theorem Extents.preserves_held (valid : setup.Valid) (traced : setup.Traced)
    (hn : name ∈ setup.problem.names) :
    setup.Preserves (setup.problem.component name) held (setup.divisor low high name)
      (setup.sumOver (setup.problem.component name) low) where
  substituted hkeep value? := by
    obtain ⟨p, hp⟩ := defined.penalty
    have hsubstitute : setup.substitute = some (number p) := by
      rw [Setup.substitute, hkeep, if_neg Bool.false_ne_true, hp]
    rw [extents.meets_iff defined hheld, settledOver, hsubstitute]
    exact CostSpace.not_meets_settled rfl
  ignored hignore value? := by
    have hsubstitute : setup.substitute = none := by rw [Setup.substitute, hignore, if_pos rfl]
    rw [extents.meets_iff defined hheld, settledOver, hsubstitute, CostSpace.map_settled_none]
  total value? := extents.exists_total defined hheld valid traced hn
  best := by
    have hd : 0 < setup.divisor low high name := extents.divisor_pos
    refine Problem.best_rescaled (setup.sumOver (setup.problem.component name) low) hd
      fun value? hassigns => ?_
    by_cases hm : CostSpace.Meets held value?
    · exact .inr ⟨(extents.meets_iff defined hheld).mp hm, hm⟩
    · exact .inl (extents.exists_total defined hheld valid traced hn hassigns hm)

end

end Setup

namespace World

variable {setup : Setup (Exact F)} {w : World (Exact F)} {name : String}
  {low high : CostSpace (Exact F) → F}

/-- What normalized variables of a component hold are the spaces over it, moved and divided. -/
theorem Gathered.spaces_perm [IsStrictOrderedRing F] (h : w.Gathered setup) (valid : setup.Valid)
    (traced : setup.Traced) (hinv : w.Inv setup) (hscaled : w.Scaled setup)
    (extents : setup.Extents low high) (hn : name ∈ setup.problem.names) {names : List String}
    (hnodup : names.Nodup)
    (hnames : ∀ other, other ∈ names ↔ other ∈ setup.problem.component name)
    (hstage : ∀ other ∈ names, (w other).ascent.stage = .normalized) :
    (names.flatMap fun other => (w other).state.spaces).Perm
      (setup.normalizedOver low high name) := by
  have hspaces : ∀ other ∈ names, (w other).state.spaces
      = (setup.enforced other).map (setup.rescaled low high name) := by
    intro other ho
    have hcomponent := (hnames other).mp ho
    have hon := (Problem.mem_component.mp hcomponent).1
    rw [((hscaled.cells other hon).normalized (hstage other ho)).2,
      h.scalingFactor_eq valid traced hinv hscaled extents hon (hstage other ho),
      Setup.divisor_congr hcomponent]
    refine List.map_congr_left fun space hs => ?_
    rw [extents.shift space (List.mem_filter.mp hs).1, Setup.rescaled]
  rw [List.flatMap_congr hspaces, ← List.map_flatMap]
  exact (valid.enforced_perm traced hn hnodup hnames).map _

end World

end DcopSearch
