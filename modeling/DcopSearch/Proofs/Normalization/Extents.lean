import DcopSearch.Proofs.Normalization.Exact

/-! The least and the greatest cost of a space, as normalization reads them.  Without a substitute for
infeasible costs they are the ones among the feasible costs; with one they are the two ends of the
table, where the substitute stands for an end that is not finite.  The shift of a space is the first of
the two, and a space without feasible costs adds nothing to a range. -/

namespace DcopSearch

open CostArithmetic

namespace Exact

variable {F : Type} [Field F] [LinearOrder F] [LnSqrt F]

/-- The number, or the one that stands for what is not a number. -/
def numberOr (penalty : F) : Exact F → F
  | number x => x
  | _ => penalty

/-- The first cost lies at least as far on the given side as the second one. -/
def Reaches (largest : Bool) (x y : Exact F) : Prop :=
  if largest then CostArithmetic.le y x = true else CostArithmetic.le x y = true

variable {largest : Bool} {x y z : Exact F}

theorem Reaches.refl (hx : x ≠ undefined) : Reaches largest x x := by
  cases x <;> cases largest <;> simp_all [Reaches, CostArithmetic.le, le]

theorem Reaches.trans (h : Reaches largest x y) (h' : Reaches largest y z) :
    Reaches largest x z := by
  cases x <;> cases y <;> cases z <;> cases largest <;>
    simp_all [Reaches, CostArithmetic.le, le] <;> exact le_trans ‹_› ‹_›

/-- Of two costs one lies beyond the other, or the other reaches it. -/
theorem reaches_of_lt :
    (if largest then CostArithmetic.lt x y else CostArithmetic.lt y x) = true →
      Reaches largest y x := by
  cases x <;> cases y <;> cases largest <;>
    simp [Reaches, CostArithmetic.le, CostArithmetic.lt, le, lt] <;> exact le_of_lt

theorem reaches_of_not_lt (hx : x ≠ undefined) (hy : y ≠ undefined) :
    (if largest then CostArithmetic.lt x y else CostArithmetic.lt y x) = false →
      Reaches largest x y := by
  cases x <;> cases y <;> cases largest <;>
    simp_all [Reaches, CostArithmetic.le, CostArithmetic.lt, le, lt]

end Exact

open Exact

variable {F : Type} [Field F] [LinearOrder F] [LnSqrt F]

namespace CostSpace

/-- Every entry is a number or infinite. -/
def Defined (space : CostSpace (Exact F)) : Prop := undefined ∉ space.table.toList

/-- The least and the greatest cost of a space. -/
inductive Spread (space : CostSpace (Exact F)) : Option (Exact F) → F → F → Prop where
  | feasible {low high : F} :
      number low ∈ space.table.toList → number high ∈ space.table.toList →
      (∀ x, number x ∈ space.table.toList → low ≤ x ∧ x ≤ high) → Spread space none low high
  | blocked : (∀ x, number x ∉ space.table.toList) → Spread space none 0 0
  | substituted {penalty : F} {least greatest : Exact F} :
      least ∈ space.table.toList → greatest ∈ space.table.toList →
      (∀ entry ∈ space.table.toList, CostArithmetic.le least entry = true ∧
        CostArithmetic.le entry greatest = true) →
      Spread space (some (number penalty))
        (min (least.numberOr penalty) (greatest.numberOr penalty))
        (max (least.numberOr penalty) (greatest.numberOr penalty))

variable {space : CostSpace (Exact F)}

/-- The fold keeps an entry that reaches all of them. -/
theorem foldl_keepExtreme (largest : Bool) {entries : List (Exact F)} {held : Exact F}
    (hheld : held ≠ undefined) (h : undefined ∉ entries) :
    ∃ best, entries.foldl (keepExtreme largest) (some held) = some best ∧ best ∈ held :: entries ∧
      ∀ entry ∈ held :: entries, Reaches largest best entry := by
  induction entries generalizing held with
  | nil => exact ⟨held, rfl, by simp, by simpa using .refl hheld⟩
  | cons entry rest ih =>
    have hentry : entry ≠ undefined := fun he => h (by simp [he])
    have hrest : undefined ∉ rest := fun hm => h (by simp [hm])
    obtain ⟨next, hnext, hmem, hboth⟩ : ∃ next, keepExtreme largest (some held) entry = some next ∧
        next ∈ [held, entry] ∧ Reaches largest next held ∧ Reaches largest next entry := by
      by_cases hlt : (if largest then CostArithmetic.lt held entry
          else CostArithmetic.lt entry held) = true
      · exact ⟨entry, if_pos hlt, by simp, reaches_of_lt hlt, .refl hentry⟩
      · exact ⟨held, if_neg hlt, by simp, .refl hheld,
          reaches_of_not_lt hheld hentry (Bool.eq_false_of_not_eq_true hlt)⟩
    have hdefined : next ≠ undefined := by
      rcases List.mem_pair.mp hmem with rfl | rfl
      · exact hheld
      · exact hentry
    obtain ⟨best, hbest, hm, hreaches⟩ := ih hdefined hrest
    refine ⟨best, by rw [List.foldl_cons, hnext, hbest], ?_, ?_⟩
    · simp only [List.mem_cons, List.not_mem_nil, or_false] at hm hmem ⊢
      rcases hm with rfl | hm
      · tauto
      · exact .inr (.inr hm)
    · have hfirst := hreaches next (by simp)
      intro other ho
      rcases List.mem_cons.mp ho with rfl | ho
      · exact hfirst.trans hboth.1
      rcases List.mem_cons.mp ho with rfl | ho
      · exact hfirst.trans hboth.2
      · exact hreaches other (by simp [ho])

theorem extremum_eq (hd : space.Defined) (largest feasibleOnly : Bool) :
    (∃ best ∈ space.table.toList.filter (fun u => !feasibleOnly || !isInfinite u),
      space.extremum largest feasibleOnly = some best ∧
      ∀ entry ∈ space.table.toList.filter (fun u => !feasibleOnly || !isInfinite u),
        Reaches largest best entry) ∨
    space.table.toList.filter (fun u => !feasibleOnly || !isInfinite u) = [] ∧
      space.extremum largest feasibleOnly = none := by
  have hall : undefined ∉ space.table.toList.filter fun u => !feasibleOnly || !isInfinite u :=
    fun hm => hd (List.mem_of_mem_filter hm)
  unfold extremum
  generalize space.table.toList.filter (fun u => !feasibleOnly || !isInfinite u) = entries at hall ⊢
  cases entries with
  | nil => exact .inr ⟨rfl, rfl⟩
  | cons first rest =>
    obtain ⟨best, hbest, hm, hreaches⟩ := foldl_keepExtreme largest
      (show first ≠ undefined from fun he => hall (by simp [he]))
      (show undefined ∉ rest from fun hr => hall (by simp [hr]))
    exact .inl ⟨best, hm, hbest, hreaches⟩

end CostSpace

namespace Range

open CostSpace

/-- The greatest cost of a space, or nothing if there is none. -/
def crest (substitute : Option (Exact F)) (space : CostSpace (Exact F)) : Exact F :=
  (extent? substitute space).elim (ofNat 0) Extent.high

theorem mem_feasible {space : CostSpace (Exact F)} (hd : space.Defined) {entry : Exact F} :
    entry ∈ space.table.toList.filter (fun u => !true || !isInfinite u)
      ↔ entry ∈ space.table.toList ∧ ∃ x, entry = number x := by
  rw [List.mem_filter]
  refine and_congr_right fun hm => ?_
  cases entry with
  | number x => simp
  | undefined => exact absurd hm hd
  | _ => simp [isInfinite, CostArithmetic.eq, CostArithmetic.le, Exact.le, CostArithmetic.infinity,
      Neg.neg, neg]

theorem finiteOr_eq (penalty : F) {entry : Exact F} (he : entry ≠ undefined) :
    finiteOr (number penalty) (some entry) = number (entry.numberOr penalty) := by
  cases entry <;> simp_all [finiteOr, numberOr, isFinite, isInfinite, CostArithmetic.eq,
    CostArithmetic.le, Exact.le, CostArithmetic.infinity, Neg.neg, neg]

theorem least_number (a b : F) : least (number a) (number b) = number (min a b) := by
  unfold least
  rcases lt_or_ge b a with h | h
  · simp [CostArithmetic.lt, CostArithmetic.eq, CostArithmetic.le, Exact.lt, Exact.le, h,
      min_eq_right h.le]
  · simp [CostArithmetic.lt, CostArithmetic.eq, CostArithmetic.le, Exact.lt, Exact.le, not_lt.mpr h,
      min_eq_left h]

theorem greatest_number (a b : F) : greatest (number a) (number b) = number (max a b) := by
  unfold greatest
  rcases lt_or_ge a b with h | h
  · simp [CostArithmetic.lt, CostArithmetic.eq, CostArithmetic.le, Exact.lt, Exact.le, h,
      max_eq_right h.le]
  · simp [CostArithmetic.lt, CostArithmetic.eq, CostArithmetic.le, Exact.lt, Exact.le, not_lt.mpr h,
      max_eq_left h]

/-- What normalization takes for the least and the greatest cost. -/
theorem exists_spread {space : CostSpace (Exact F)} (hd : space.Defined)
    (hfull : space.table.toList ≠ []) {substitute : Option (Exact F)}
    (hs : ∀ penalty, substitute = some penalty → ∃ a, penalty = number a) :
    ∃ low high, space.Spread substitute low high ∧ low ≤ high ∧
      shift substitute space = number low ∧ crest substitute space = number high := by
  cases hsub : substitute with
  | none =>
    have hleast := extremum_eq hd false true
    have hgreatest := extremum_eq hd true true
    rcases hleast with ⟨least, hl, hleast, hlower⟩ | ⟨hnone, hleast⟩
    · rcases hgreatest with ⟨greatest, hg, hgreatest, hupper⟩ | ⟨hnone, -⟩
      · obtain ⟨hlm, low, rfl⟩ := (mem_feasible hd).mp hl
        obtain ⟨hgm, high, rfl⟩ := (mem_feasible hd).mp hg
        have hbetween : ∀ x, number x ∈ space.table.toList → low ≤ x ∧ x ≤ high := by
          intro x hx
          have hm := (mem_feasible hd).mpr ⟨hx, x, rfl⟩
          simpa [Reaches, CostArithmetic.le, Exact.le] using And.intro (hlower _ hm) (hupper _ hm)
        exact ⟨low, high, .feasible hlm hgm hbetween, (hbetween high hgm).1,
          by simp [shift, extent?, hleast, hgreatest], by simp [crest, extent?, hleast, hgreatest]⟩
      · rw [hnone] at hl
        cases hl
    · have hblocked : ∀ x, number x ∉ space.table.toList := by
        intro x hx
        have hm := (mem_feasible hd).mpr ⟨hx, x, rfl⟩
        rw [hnone] at hm
        cases hm
      have hzero : (ofNat 0 : Exact F) = number 0 := Exact.zero_eq.symm
      exact ⟨0, 0, .blocked hblocked, le_refl 0, by simp [shift, extent?, hleast, hzero],
        by simp [crest, extent?, hleast, hzero]⟩
  | some penalty =>
    obtain ⟨p, rfl⟩ := hs penalty hsub
    have hall : ∀ largest, ∃ best ∈ space.table.toList, space.extremum largest false = some best ∧
        ∀ entry ∈ space.table.toList, Reaches largest best entry := by
      intro largest
      have hextremum := extremum_eq hd largest false
      simp only [Bool.not_false, Bool.true_or, List.filter_true, hfull, false_and, or_false]
        at hextremum
      exact hextremum
    obtain ⟨least, hl, hleast, hlower⟩ := hall false
    obtain ⟨greatest, hg, hgreatest, hupper⟩ := hall true
    have hld : finiteOr (number p) (some least) = number (least.numberOr p) :=
      finiteOr_eq p fun he => hd (he ▸ hl)
    have hgd : finiteOr (number p) (some greatest) = number (greatest.numberOr p) :=
      finiteOr_eq p fun he => hd (he ▸ hg)
    refine ⟨_, _, .substituted hl hg fun entry he => ⟨?_, ?_⟩, min_le_max, ?_, ?_⟩
    · simpa [Reaches] using hlower entry he
    · simpa [Reaches] using hupper entry he
    · simp [shift, extent?, hleast, hgreatest, hld, hgd, least_number]
    · simp [crest, extent?, hleast, hgreatest, hld, hgd, greatest_number]

end Range

end DcopSearch
