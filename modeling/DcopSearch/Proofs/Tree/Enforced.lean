import DcopSearch.Proofs.Tree.DepthFirst

/-! Which variable a space is charged to.  In the tree of a problem each space over some variable is
enforced by one variable, whose separator has the others of the scope; so the total cost is what the
variables charge for the spaces that they enforce, and the constants. -/

namespace DcopSearch

open CostArithmetic

variable {K : Type} {problem : Problem K} {tree : PseudoTree} {name other : String}
  {space : CostSpace K} {assignment : Assignment}

/-- The entries of the spaces without variables. -/
def Problem.constants (problem : Problem K) : List K :=
  (problem.spaces.filter (·.scope.isEmpty)).filterMap (·.utilityOf? ∅)

namespace PseudoTree

/-- The entries of the spaces that a variable enforces. -/
def charges (tree : PseudoTree) (problem : Problem K) (assignment : Assignment) (name : String) :
    List K :=
  (problem.spacesEnforcedBy name (tree.view name).below).filterMap (·.utilityOf? assignment)

/-- What a tree says about the spaces of a problem. -/
structure Enforces [CostArithmetic K] (tree : PseudoTree) (problem : Problem K) : Prop where
  /-- A space over some variable is enforced by one variable. -/
  unique : ∀ space ∈ problem.spaces, space.scope ≠ [] →
    ∃! name, space ∈ problem.spacesEnforcedBy name (tree.view name).below
  /-- A variable enforces spaces that involve it and otherwise only variables of its separator. -/
  separator : ∀ name, ∀ space ∈ problem.spacesEnforcedBy name (tree.view name).below,
    name ∈ problem.names ∧ name ∈ space.scope ∧
      ∀ other ∈ space.scope, other ≠ name → other ∈ (tree.view name).separator
  /-- A space without variables is enforced by none. -/
  constant : ∀ space : CostSpace K, space.scope = [] →
    ∀ name, space ∉ problem.spacesEnforcedBy name (tree.view name).below
  /-- The variables enforce the spaces over some variable as often as the problem has them. -/
  once : (problem.names.flatMap fun name =>
    problem.spacesEnforcedBy name (tree.view name).below).Perm
      (problem.spaces.filter fun space => !space.scope.isEmpty)
  /-- An assignment of values to all variables has an entry for each space, and these are what the
  variables charge, and the constants. -/
  entries : ∀ assignment : Assignment,
    problem.Assigns {name | name ∈ problem.names} (assignment[·]?) →
    ∃ entries : List K, entries.length = problem.spaces.length ∧
      problem.evaluate? assignment = some (total entries) ∧
      entries.Perm (problem.names.flatMap (tree.charges problem assignment) ++ problem.constants)

/-- Where all variables have values, every space has an entry. -/
theorem isSome_utilityOf? (wf : problem.WellFormed)
    (hassigns : problem.Assigns {name | name ∈ problem.names} (assignment[·]?))
    (hs : space ∈ problem.spaces) : (space.utilityOf? assignment).isSome = true := by
  obtain ⟨entry, he⟩ := (wf.fits space hs).exists_entry fun other ho =>
    hassigns other (mem_scope_names wf hs ho)
  exact Option.isSome_iff_exists.mpr ⟨entry, he⟩

theorem Traces.enforced_perm_names (traces : tree.Traces problem) (spans : tree.Spans problem)
    (wf : problem.WellFormed) :
    (problem.names.flatMap fun name => problem.spacesEnforcedBy name (tree.view name).below).Perm
      (problem.spaces.filter fun space => !space.scope.isEmpty) := by
  refine traces.enforced_perm spans problem.nodup_names fun space hs => ?_
  rw [Bool.not_eq_true', List.isEmpty_eq_false_iff]
  constructor
  · intro hne
    obtain ⟨name, hn, he⟩ := traces.exists_enforcer spans hs hne
    exact ⟨name, mem_scope_names wf hs hn, he⟩
  · rintro ⟨name, -, he⟩
    exact List.ne_nil_of_mem ((traces.mem_enforced_iff spans).mp he).2.1

/-- A tree that follows the constraint graph says of each space who enforces it. -/
theorem Traces.enforces [CostArithmetic K] (traces : tree.Traces problem)
    (spans : tree.Spans problem) (wf : problem.WellFormed) : tree.Enforces problem where
  unique space hs hne := by
    obtain ⟨name, -, hn⟩ := traces.exists_enforcer spans hs hne
    exact ⟨name, hn, fun other ho => traces.enforced_unique spans ho hn⟩
  separator name space he := by
    obtain ⟨hs, hn, -⟩ := (traces.mem_enforced_iff spans).mp he
    exact ⟨mem_scope_names wf hs hn, hn, fun other ho hne =>
      (spans.scope name space he other ho).resolve_left hne⟩
  constant space hscope name he := by
    obtain ⟨-, hn, -⟩ := (traces.mem_enforced_iff spans).mp he
    simp [hscope] at hn
  once := traces.enforced_perm_names spans wf
  entries assignment hassigns := by
    have hsome := fun space (hs : space ∈ problem.spaces) => isSome_utilityOf? wf hassigns hs
    refine ⟨problem.spaces.filterMap (·.utilityOf? assignment), ?_, ?_, ?_⟩
    · rw [List.length_filterMap_eq_countP, List.countP_eq_length]
      exact hsome
    · rw [Problem.evaluate?, if_pos (List.all_eq_true.mpr hsome)]
    · have hconstants : problem.constants
          = (problem.spaces.filter (·.scope.isEmpty)).filterMap (·.utilityOf? assignment) := by
        refine List.filterMap_congr fun space hs => CostSpace.lookup?_congr fun name hn => ?_
        rw [List.isEmpty_iff.mp (List.mem_filter.mp hs).2] at hn
        cases hn
      have hcharges : problem.names.flatMap (tree.charges problem assignment)
          = (problem.names.flatMap fun name =>
              problem.spacesEnforcedBy name (tree.view name).below).filterMap
            (·.utilityOf? assignment) := List.filterMap_flatMap.symm
      rw [hconstants, hcharges, ← List.filterMap_append]
      refine List.Perm.filterMap _ (.symm ?_)
      refine ((traces.enforced_perm_names spans wf).append_right _).trans ?_
      exact List.perm_append_comm.trans (List.filter_append_perm _ _)

/-- For every problem the tree that is generated has each space enforced once and where it can be
evaluated, so that the total cost is what the variables charge, and the constants. -/
theorem enforces_of_built [CostArithmetic K] (built : problem.Built) :
    (generate problem).Enforces problem ∧
      (OrderFree K → ∀ assignment : Assignment,
        problem.Assigns {name | name ∈ problem.names} (assignment[·]?) →
        problem.evaluate? assignment
          = some (total (problem.names.map fun name =>
              total ((generate problem).charges problem assignment name))
            + total problem.constants)) := by
  have wf := built.wellFormed
  have henforces := (traces_generate wf).enforces (spans_generate wf) wf
  refine ⟨henforces, fun orderFree assignment hassigns => ?_⟩
  obtain ⟨entries, -, htotal, hperm⟩ := henforces.entries assignment hassigns
  rw [htotal, orderFree.total_perm hperm, orderFree.total_append, orderFree.total_flatMap]

/-- An assignment of values to all variables. -/
def braidedValues : Assignment :=
  .ofList [("a", (1 : Value)), ("b", 0), ("c", 0), ("d", 1), ("e", 1)]

/-- The space of the triangle is charged to the last of its variables, and the constant to none. -/
theorem enforces_braided : (generate .braided).Enforces .braided ∧
    (Problem.braided.names.map fun name => (Problem.braided.spacesEnforcedBy name
        ((generate .braided).view name).below).map CostSpace.name)
      = [[], [], [], ["dac"], ["ce"]] ∧
    Problem.braided.evaluate? braidedValues = some (.number 88) ∧
    Problem.braided.evaluate? braidedValues
      = some (total (Problem.braided.names.map fun name =>
          total ((generate .braided).charges .braided braidedValues name))
        + total Problem.braided.constants) := by
  have hvalues : ∀ name ∈ Problem.braided.names, ∃ value ∈ [0, 1],
      braidedValues[name]? = some value ∧
        (Problem.braided.domain? name).any (·.contains value) = true := by
    decide +kernel
  obtain ⟨henforces, htotal⟩ := enforces_of_built Problem.built_braided
  refine ⟨henforces, by decide +kernel, by decide +kernel,
    htotal Exact.orderFree _ fun name hn => ?_⟩
  obtain ⟨value, -, hvalue, hdomain⟩ := hvalues name hn
  obtain ⟨domain, hd, hm⟩ := (Option.any_eq_true _ _).mp hdomain
  exact ⟨value, hvalue, domain, hd, List.contains_iff_mem.mp hm⟩

end PseudoTree

end DcopSearch
