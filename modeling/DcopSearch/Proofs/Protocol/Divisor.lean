import DcopSearch.Proofs.Protocol.Gathered
import DcopSearch.Proofs.Protocol.Refuted
import Mathlib.Algebra.Order.BigOperators.Group.Finset

/-! What normalization comes to.  Every variable reports the sums of the least and of the largest costs
over its subtree, and all variables of a component are rescaled by one divisor, which is the width of
the component's range, or the size of its lower end if there is no width, or one. -/

namespace DcopSearch

open CostArithmetic Exact World

variable {F : Type} [Field F] [LinearOrder F] [LnSqrt F]

/-- The number of joint values of domains with values is not zero. -/
theorem jointSize_pos {domains : List (List Value)} (h : ∀ domain ∈ domains, domain ≠ []) :
    0 < jointSize domains := by
  induction domains with
  | nil => exact Nat.one_pos
  | cons domain rest ih =>
    have hsize : jointSize (domain :: rest) = domain.length * jointSize rest := rfl
    rw [hsize]
    exact Nat.mul_pos (List.length_pos_iff.mpr (h domain (by simp)))
      (ih fun other ho => h other (by simp [ho]))

theorem CostSpace.Fits.table_ne_nil {K : Type} {problem : Problem K} {space : CostSpace K}
    (h : space.Fits problem) (wf : problem.WellFormed) : space.table.toList ≠ [] := by
  have hpos : 0 < space.table.size := by
    rw [h.full]
    refine jointSize_pos fun domain hd => ?_
    obtain ⟨axis, ha, rfl⟩ := List.mem_map.mp hd
    exact wf.valued axis.name axis.domain (h.declared axis ha)
  rw [ne_eq, ← List.length_eq_zero_iff, Array.length_toList]
  omega

omit [LnSqrt F] in
/-- Between two ends in order, the width, the size of the lower end or one is positive. -/
theorem Range.scale_pos [IsStrictOrderedRing F] {lower upper : F} (h : lower ≤ upper) :
    0 < if upper - lower ≠ 0 then upper - lower else if lower ≠ 0 then |lower| else 1 := by
  split
  next hwidth => exact lt_of_le_of_ne (sub_nonneg.mpr h) (Ne.symm hwidth)
  next =>
    split
    next hlower => exact abs_pos.mpr hlower
    next => exact one_pos

namespace Setup

variable {setup : Setup (Exact F)} {name : String} {low high : CostSpace (Exact F) → F}

/-- The entries of the tables are numbers or infinite, and the penalty is a number. -/
structure Defined (setup : Setup (Exact F)) : Prop where
  spaces : ∀ space ∈ setup.problem.spaces, space.Defined
  penalty : ∃ p, setup.config.penaltyFor setup.problem.objective = number p

/-- The least and the greatest cost of every space, as normalization reads them. -/
structure Extents (setup : Setup (Exact F)) (low high : CostSpace (Exact F) → F) : Prop where
  spread : ∀ space ∈ setup.problem.spaces, space.Spread setup.substitute (low space) (high space)
  ordered : ∀ space ∈ setup.problem.spaces, low space ≤ high space
  shift : ∀ space ∈ setup.problem.spaces,
    Range.shift setup.substitute space = number (low space)
  crest : ∀ space ∈ setup.problem.spaces,
    Range.crest setup.substitute space = number (high space)

theorem Defined.exists_extents (h : setup.Defined) (valid : setup.Valid) :
    ∃ low high, setup.Extents low high := by
  have hall : ∀ space : CostSpace (Exact F), ∃ low high, space ∈ setup.problem.spaces →
      space.Spread setup.substitute low high ∧ low ≤ high ∧
        Range.shift setup.substitute space = number low ∧
        Range.crest setup.substitute space = number high := by
    intro space
    by_cases hs : space ∈ setup.problem.spaces
    · obtain ⟨low, high, hspread⟩ := Range.exists_spread (h.spaces space hs)
        ((valid.wellFormed.fits space hs).table_ne_nil valid.wellFormed)
        (exists_substitute h.penalty)
      exact ⟨low, high, fun _ => hspread⟩
    · exact ⟨0, 0, fun hm => absurd hm hs⟩
  choose low high hextents using hall
  exact ⟨low, high, fun space hs => (hextents space hs).1, fun space hs => (hextents space hs).2.1,
    fun space hs => (hextents space hs).2.2.1, fun space hs => (hextents space hs).2.2.2⟩

/-- A sum over the spaces that some variables enforce. -/
def sumOver (setup : Setup (Exact F)) (names : Finset String) (f : CostSpace (Exact F) → F) : F :=
  ∑ name ∈ names, ((setup.enforced name).map f).sum

/-- The divisor of the component of a variable. -/
noncomputable def divisor (setup : Setup (Exact F)) (low high : CostSpace (Exact F) → F)
    (name : String) : F :=
  let lower := setup.sumOver (setup.problem.component name) low
  let upper := setup.sumOver (setup.problem.component name) high
  if upper - lower ≠ 0 then upper - lower else if lower ≠ 0 then |lower| else 1

omit [LnSqrt F] in
theorem divisor_congr {other : String} (h : other ∈ setup.problem.component name) :
    setup.divisor low high other = setup.divisor low high name := by
  rw [divisor, divisor, Problem.component_eq_of_mem h]

omit [LinearOrder F] [LnSqrt F] in
theorem sum_number {ι : Type} (names : Finset ι) (f : ι → F) :
    ∑ i ∈ names, number (f i) = number (∑ i ∈ names, f i) :=
  (map_sum ({ toFun := number, map_zero' := rfl, map_add' := fun _ _ => rfl } : F →+ Exact F) f
    names).symm

omit [LinearOrder F] [LnSqrt F] in
theorem list_sum_number {α : Type} (entries : List α) (f : α → F) :
    (entries.map fun entry => number (f entry)).sum = number (entries.map f).sum := by
  have h := map_list_sum ({ toFun := number, map_zero' := rfl, map_add' := fun _ _ => rfl } :
    F →+ Exact F) (entries.map f)
  rw [List.map_map] at h
  exact h.symm

/-- The ends of a subtree's range are numbers. -/
theorem Extents.ends (h : setup.Extents low high) (name : String) :
    setup.ends name = (number (setup.sumOver (setup.subtree name) low),
      number (setup.sumOver (setup.subtree name) high)) := by
  have hmem : ∀ below, ∀ space ∈ setup.enforced below, space ∈ setup.problem.spaces :=
    fun below space hs => (List.mem_filter.mp hs).1
  have hfst := map_sum (AddMonoidHom.fst (Exact F) (Exact F)) setup.ownEnds (setup.subtree name)
  have hsnd := map_sum (AddMonoidHom.snd (Exact F) (Exact F)) setup.ownEnds (setup.subtree name)
  unfold sumOver
  rw [← sum_number, ← sum_number]
  refine Prod.ext (hfst.trans ?_) (hsnd.trans ?_) <;> refine Finset.sum_congr rfl fun below _ => ?_
  · rw [← list_sum_number, ← List.map_congr_left fun space hs => h.shift space (hmem below space hs)]
    rfl
  · rw [← list_sum_number, ← List.map_congr_left fun space hs => h.crest space (hmem below space hs)]
    rfl

theorem Extents.sumOver_le (h : setup.Extents low high) [IsStrictOrderedRing F]
    (names : Finset String) : setup.sumOver names low ≤ setup.sumOver names high := by
  refine Finset.sum_le_sum fun name _ => List.sum_le_sum fun space hs => ?_
  exact h.ordered space (List.mem_filter.mp hs).1

theorem Extents.divisor_pos (h : setup.Extents low high) [IsStrictOrderedRing F] :
    0 < setup.divisor low high name :=
  Range.scale_pos (h.sumOver_le (setup.problem.component name))

end Setup

/-- The divisor that comes from a range with finite ends. -/
theorem Range.divisor_eq [IsStrictOrderedRing F] {range : Range (Exact F)} {lower upper : F}
    (hl : range.lower = number lower) (hu : range.upper = number upper) :
    range.divisor = number (if upper - lower ≠ 0 then upper - lower
      else if lower ≠ 0 then |lower| else 1) := by
  have hzero : ∀ x : F, isZero (number x) = decide (x = 0) := by
    intro x
    simp only [isZero, CostArithmetic.eq, CostArithmetic.le, Exact.le, CostArithmetic.ofNat,
      Nat.cast_zero, ← Bool.decide_and]
    exact decide_eq_decide.mpr le_antisymm_iff.symm
  have habs : CostArithmetic.abs (number lower) = number |lower| := by
    unfold CostArithmetic.abs
    by_cases hn : lower < 0
    · rw [abs_of_neg hn, if_pos (by simpa [CostArithmetic.lt, Exact.lt, CostArithmetic.ofNat])]
      rfl
    · rw [abs_of_nonneg (not_lt.mp hn),
        if_neg (by simpa [CostArithmetic.lt, Exact.lt, CostArithmetic.ofNat] using hn)]
  have hone : (ofNat 1 : Exact F) = number 1 := by simp [CostArithmetic.ofNat]
  have hwidth : range.upper - range.lower = number (upper - lower) := by
    rw [hl, hu, sub_eq_add_neg]
    rfl
  simp only [Range.divisor, hwidth]
  simp only [hl, habs, hzero, hone]
  by_cases hw : upper - lower = 0
  · by_cases hlow : lower = 0
    · obtain rfl : upper = 0 := (sub_eq_zero.mp hw).trans hlow
      simp [hlow, hzero]
    · simp [hw, hlow, hzero]
  · simp [hw, hzero]

namespace World

variable {setup : Setup (Exact F)} {w : World (Exact F)} {name : String}
  {low high : CostSpace (Exact F) → F}

/-- A variable that is normalized has the divisor of its component. -/
theorem Gathered.scalingFactor_eq [IsStrictOrderedRing F] (h : w.Gathered setup)
    (valid : setup.Valid) (traced : setup.Traced) (hinv : w.Inv setup) (hscaled : w.Scaled setup)
    (extents : setup.Extents low high) (hn : name ∈ setup.problem.names)
    (hs : (w name).ascent.stage = .normalized) :
    (w name).state.scalingFactor = number (setup.divisor low high name) := by
  revert hn hs
  induction name using valid.spans.induction_down with
  | step name ih =>
    intro hn hs
    cases hp : setup.parent name with
    | none =>
      have hreported : (w name).range.reported = true := by
        simp [(hinv.sound name hn).reported, hs]
      have hends := (h.of_eq valid hinv (.ends setup valid) hn hreported).trans (extents.ends name)
      rw [(h.divisors name hn).normalized hp hs, Range.divisor_eq (congrArg Prod.fst hends)
        (congrArg Prod.snd hends), ← valid.component_root traced hp]
      rfl
    | some parent =>
      have hpn := (valid.mem_names hp).1
      have hadmits := (hinv.linked parent name hp).ascent
      have hstage : (w parent).ascent.stage = .normalized := by
        revert hadmits
        cases ha : (w name).ascent <;> cases (w parent).ascent.stage <;>
          simp_all [Stage.Admits, Ascent.stage]
      have hlink : parent ∈ setup.problem.component name := by
        refine Problem.mem_component.mpr ⟨hpn, .single ?_⟩
        exact ((traced.separator name parent).mp (View.mem_separator.mpr (.inl hp))).2
      rw [(hscaled.shares parent name hp).normalized hs, ih parent hp hpn hstage,
        Setup.divisor_congr hlink]

end World

end DcopSearch
