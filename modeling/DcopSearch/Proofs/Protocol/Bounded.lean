import DcopSearch.Proofs.Normalization.Undercut
import DcopSearch.Proofs.Protocol.Preserved
import Mathlib.Algebra.BigOperators.Ring.List

/-! How large normalized costs are.  Every space over a component has a share of a unit, and its
feasible costs lie between zero and the share, except those that the substitute undercuts: these lie
above the share if small costs are good, and below zero if large ones are. -/

namespace DcopSearch

open CostArithmetic Exact

variable {F : Type} [Field F] [LinearOrder F] [LnSqrt F]

/-- Where every space has a number, the total is the sum of the numbers. -/
theorem CostSpace.totalAt?_map {spaces : List (CostSpace (Exact F))}
    {change : CostSpace (Exact F) → CostSpace (Exact F)} {value? : String → Option Value}
    {cost : CostSpace (Exact F) → F}
    (h : ∀ space ∈ spaces, (change space).lookup? value? = some (number (cost space))) :
    totalAt? (spaces.map change) value? = some (number (spaces.map cost).sum) := by
  have hcosts : (spaces.map change).filterMap (·.lookup? value?)
      = spaces.map fun space => number (cost space) := by
    rw [List.filterMap_map, ← List.filterMap_eq_map]
    exact List.filterMap_congr h
  rw [totalAt?_eq, hcosts, Setup.list_sum_number]
  exact List.forall_mem_map.mpr fun space hs => ⟨_, h space hs⟩

namespace Setup

variable {setup : Setup (Exact F)} {name : String} {low high : CostSpace (Exact F) → F}

/-- The problem has the given objective, and the substitute undercuts the cost. -/
def Undercuts (setup : Setup (Exact F)) (objective : Objective) (space : CostSpace (Exact F))
    (x : F) : Prop :=
  setup.problem.objective = objective ∧
    space.Undercut setup.problem.objective setup.substitute x

/-- How large the costs are that the variables of a component hold. -/
structure Bounds (setup : Setup (Exact F)) (names : Finset String)
    (held : List (CostSpace (Exact F))) (rescaled : CostSpace (Exact F) → CostSpace (Exact F))
    (share : CostSpace (Exact F) → F) : Prop where
  holds : held.Perm ((setup.problem.spacesOver names).map rescaled)
  axes : ∀ space ∈ setup.problem.spacesOver names, (rescaled space).axes = space.axes
  /-- The spaces have shares of a unit. -/
  shares : (∀ space ∈ setup.problem.spacesOver names, 0 ≤ share space) ∧
    ((setup.problem.spacesOver names).map share).sum ≤ 1
  /-- A feasible cost becomes one between zero and the share, unless it is undercut. -/
  entry : ∀ space ∈ setup.problem.spacesOver names, ∀ (i : Nat) (x : F),
    space.table[i]? = some (number x) → ∃ y, (rescaled space).table[i]? = some (number y) ∧
      (0 ≤ y ↔ ¬setup.Undercuts .maximize space x) ∧
      (y ≤ share space ↔ ¬setup.Undercuts .minimize space x)
  /-- One feasible cost of each space, if it has any, comes to one at most. -/
  largest : ∀ pick : CostSpace (Exact F) → F,
    (∀ space ∈ setup.problem.spacesOver names, pick space = 0 ∨ ∃ (i : Nat) (x : F),
      space.table[i]? = some (number x) ∧ ¬setup.Undercuts .minimize space x ∧
      (rescaled space).table[i]? = some (number (pick space))) →
    ((setup.problem.spacesOver names).map pick).sum ≤ 1
  /-- Values that meet no infinite cost have a total between zero and one, unless they meet a cost
  that is undercut. -/
  total : ∀ value?, setup.problem.Assigns names value? →
    ¬CostSpace.Meets (setup.problem.spacesOver names) value? →
    ∃ cost, CostSpace.totalAt? held value? = some (number cost) ∧
      ((∀ space ∈ setup.problem.spacesOver names, ∀ x, space.lookup? value? = some (number x) →
        ¬setup.Undercuts .maximize space x) → 0 ≤ cost) ∧
      ((∀ space ∈ setup.problem.spacesOver names, ∀ x, space.lookup? value? = some (number x) →
        ¬setup.Undercuts .minimize space x) → cost ≤ 1)
  /-- Where infeasible costs are ignored, nothing is undercut. -/
  ignored : setup.config.ignoreInfeasible = true →
    ∀ objective space x, ¬setup.Undercuts objective space x

theorem Priced.defined (priced : setup.Priced) : setup.Defined := by
  refine ⟨fun space hs hm => ?_, priced.penalty⟩
  rcases priced.spaces space hs _ hm with ⟨a, ha⟩ | ha
  · cases ha
  · cases hobjective : setup.problem.objective <;> rw [hobjective] at ha <;> cases ha

/-- Values that meet no infinite cost meet numbers. -/
theorem Priced.exists_number_over (priced : setup.Priced) (wf : setup.problem.WellFormed)
    {value? : String → Option Value}
    (hassigns : setup.problem.Assigns (setup.problem.component name) value?)
    (hfeasible : ¬CostSpace.Meets
      (setup.problem.spacesOver (setup.problem.component name)) value?) :
    ∀ space ∈ setup.problem.spacesOver (setup.problem.component name),
      ∃ x, space.lookup? value? = some (number x) := by
  intro space hs
  obtain ⟨entry, he⟩ := exists_entry_over wf hassigns space hs
  have hpriced := priced.spaces space (mem_spaces_of_over hs) entry
    (CostSpace.mem_table_of_lookup he)
  obtain ⟨x, rfl⟩ := hpriced.exists_number
    (Bool.eq_false_of_not_eq_true fun hi => hfeasible ⟨space, hs, entry, he, hi⟩)
  exact ⟨x, he⟩

/-- What a space over the component of a variable has of the unit. -/
noncomputable def share (setup : Setup (Exact F)) (low high : CostSpace (Exact F) → F)
    (name : String) (space : CostSpace (Exact F)) : F :=
  (high space - low space) / setup.divisor low high name

variable [IsStrictOrderedRing F] (extents : setup.Extents low high)
include extents

theorem Extents.share_nonneg {space : CostSpace (Exact F)} (hs : space ∈ setup.problem.spaces) :
    0 ≤ setup.share low high name space :=
  div_nonneg (sub_nonneg.mpr (extents.ordered space hs)) extents.divisor_pos.le

theorem Extents.width_le_divisor (name : String) : setup.sumOver (setup.problem.component name) high
    - setup.sumOver (setup.problem.component name) low ≤ setup.divisor low high name := by
  by_cases hw : setup.sumOver (setup.problem.component name) high
      - setup.sumOver (setup.problem.component name) low = 0
  · rw [hw]
    exact extents.divisor_pos.le
  · unfold divisor
    exact (if_pos hw).ge

/-- The shares of a component are at most a unit. -/
theorem Extents.sum_share_le (valid : setup.Valid) (traced : setup.Traced)
    (hn : name ∈ setup.problem.names) :
    ((setup.problem.spacesOver (setup.problem.component name)).map
      (setup.share low high name)).sum ≤ 1 := by
  have hpos : 0 < setup.divisor low high name := extents.divisor_pos
  have hhigh : (setup.problem.spacesOver (setup.problem.component name)).map high
      = (setup.problem.spacesOver (setup.problem.component name)).map fun space =>
        setup.share low high name space * setup.divisor low high name + low space := by
    refine List.map_congr_left fun space _ => ?_
    rw [share, div_mul_cancel₀ _ hpos.ne', sub_add_cancel]
  have hwidth := extents.width_le_divisor name
  rw [valid.sumOver_component traced hn, valid.sumOver_component traced hn, hhigh, List.sum_map_add,
    List.sum_map_mul_right, add_sub_cancel_right] at hwidth
  exact le_of_mul_le_mul_right (hwidth.trans_eq (one_mul _).symm) hpos

variable (priced : setup.Priced)
include priced

/-- Where a feasible cost lies once it is moved and divided. -/
theorem Extents.rescaled_bounds (name : String) {space : CostSpace (Exact F)}
    (hs : space ∈ setup.problem.spaces) {x : F} (hx : number x ∈ space.table.toList) :
    (0 ≤ (x - low space) / setup.divisor low high name ↔ ¬setup.Undercuts .maximize space x) ∧
    ((x - low space) / setup.divisor low high name ≤ setup.share low high name space
      ↔ ¬setup.Undercuts .minimize space x) := by
  have hpos : 0 < setup.divisor low high name := extents.divisor_pos
  have hspread := extents.spread space hs
  constructor
  · rw [le_div_iff₀ hpos, zero_mul, sub_nonneg]
    exact hspread.low_le_iff (priced.spaces space hs) hx
  · rw [share, div_le_div_iff_of_pos_right hpos, sub_le_sub_iff_right]
    exact hspread.le_high_iff (priced.spaces space hs) hx

theorem Extents.entry_bounds {space : CostSpace (Exact F)} (hs : space ∈ setup.problem.spaces)
    {i : Nat} {x : F} (hx : space.table[i]? = some (number x)) :
    ∃ y, (setup.rescaled low high name space).table[i]? = some (number y) ∧
      (0 ≤ y ↔ ¬setup.Undercuts .maximize space x) ∧
      (y ≤ setup.share low high name space ↔ ¬setup.Undercuts .minimize space x) := by
  refine ⟨(x - low space) / setup.divisor low high name, ?_,
    extents.rescaled_bounds priced name hs (List.mem_of_getElem? (by simpa using hx))⟩
  rw [rescaled, CostSpace.rescale, Array.getElem?_map, hx, Option.map_some,
    CostSpace.rescaleEntry_number extents.divisor_pos.ne']

variable {held : List (CostSpace (Exact F))}
  (hheld : held.Perm (setup.normalizedOver low high name))
  (valid : setup.Valid) (traced : setup.Traced) (hn : name ∈ setup.problem.names)
include valid traced hn

omit priced in
/-- Costs within the shares come to one at most. -/
theorem Extents.sum_le_one {pick : CostSpace (Exact F) → F}
    (h : ∀ space ∈ setup.problem.spacesOver (setup.problem.component name),
      pick space ≤ setup.share low high name space) :
    ((setup.problem.spacesOver (setup.problem.component name)).map pick).sum ≤ 1 :=
  (List.sum_le_sum h).trans (extents.sum_share_le valid traced hn)

include hheld

theorem Extents.total_bounds {value? : String → Option Value} {old : CostSpace (Exact F) → F}
    (hold : ∀ space ∈ setup.problem.spacesOver (setup.problem.component name),
      space.lookup? value? = some (number (old space))) :
    ∃ cost, CostSpace.totalAt? held value? = some (number cost) ∧
      ((∀ space ∈ setup.problem.spacesOver (setup.problem.component name),
        ¬setup.Undercuts .maximize space (old space)) → 0 ≤ cost) ∧
      ((∀ space ∈ setup.problem.spacesOver (setup.problem.component name),
        ¬setup.Undercuts .minimize space (old space)) → cost ≤ 1) := by
  have hbounds := fun space hs => extents.rescaled_bounds priced name (mem_spaces_of_over hs)
    (CostSpace.mem_table_of_lookup (hold space hs))
  refine ⟨((setup.problem.spacesOver (setup.problem.component name)).map fun space =>
    (old space - low space) / setup.divisor low high name).sum, ?_, fun hlow => ?_, fun hhigh => ?_⟩
  · rw [CostSpace.totalAt?_perm hheld, normalizedOver]
    refine CostSpace.totalAt?_map fun space hs => ?_
    rw [rescaled, CostSpace.lookup?_rescale, hold space hs, Option.map_some,
      CostSpace.rescaleEntry_number extents.divisor_pos.ne']
  · refine List.sum_nonneg (List.forall_mem_map.mpr fun space hs => ?_)
    exact (hbounds space hs).1.mpr (hlow space hs)
  · refine extents.sum_le_one valid traced hn fun space hs => ?_
    exact (hbounds space hs).2.mpr (hhigh space hs)

theorem Extents.bounds_held : setup.Bounds (setup.problem.component name) held
    (setup.rescaled low high name) (setup.share low high name) where
  holds := hheld
  axes space _ := rfl
  shares := ⟨fun space hs => extents.share_nonneg (mem_spaces_of_over hs),
    extents.sum_share_le valid traced hn⟩
  entry space hs i x hx := extents.entry_bounds priced (mem_spaces_of_over hs) hx
  largest pick hpick := by
    refine extents.sum_le_one valid traced hn fun space hs => ?_
    rcases hpick space hs with hzero | ⟨i, x, hx, hnot, hy⟩
    · rw [hzero]
      exact extents.share_nonneg (mem_spaces_of_over hs)
    · obtain ⟨y, hy', -, hshare⟩ := extents.entry_bounds priced (mem_spaces_of_over hs) hx
      obtain rfl := number.inj (Option.some.inj (hy.symm.trans hy'))
      exact hshare.mpr hnot
  total value? hassigns hfeasible := by
    choose! old hold using priced.exists_number_over valid.wellFormed hassigns hfeasible
    obtain ⟨cost, hcost, hlow, hhigh⟩ := extents.total_bounds priced hheld valid traced hn hold
    exact ⟨cost, hcost, fun h => hlow fun space hs => h space hs _ (hold space hs),
      fun h => hhigh fun space hs => h space hs _ (hold space hs)⟩
  ignored hignore objective space x := by
    rintro ⟨-, p, hs, -⟩
    rw [Setup.substitute, hignore, if_pos rfl] at hs
    cases hs

end Setup

end DcopSearch
