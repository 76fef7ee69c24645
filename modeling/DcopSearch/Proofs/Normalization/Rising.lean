import DcopSearch.Proofs.Protocol.Divisor

/-! The ends of a range, whatever the tables hold.  They are two numbers of which the lower one is not
the larger one, or the lower end is undefined; both are kept when ranges are added.  So the divisor of a
range is always a positive number. -/

namespace DcopSearch

open CostArithmetic Exact

variable {F : Type} [Field F] [LinearOrder F]

/-- Two numbers in order, or a lower end that is undefined. -/
def Exact.Rising (ends : Exact F × Exact F) : Prop :=
  (∃ lower upper, ends = (number lower, number upper) ∧ lower ≤ upper) ∨ ends.1 = undefined

namespace Exact.Rising

theorem zero : Rising (0 : Exact F × Exact F) := .inl ⟨0, 0, rfl, le_rfl⟩

theorem add [IsStrictOrderedRing F] {first second : Exact F × Exact F} (h : Rising first)
    (h' : Rising second) : Rising (first + second) := by
  have hundefined : ∀ x : Exact F, undefined + x = undefined ∧ x + undefined = undefined := by
    intro x
    cases x <;> exact ⟨rfl, rfl⟩
  rcases h with ⟨a, b, rfl, hab⟩ | hfirst
  · rcases h' with ⟨c, d, rfl, hcd⟩ | hsecond
    · exact .inl ⟨a + c, b + d, rfl, add_le_add hab hcd⟩
    · refine .inr ?_
      rw [Prod.fst_add, hsecond]
      exact (hundefined _).2
  · refine .inr ?_
    rw [Prod.fst_add, hfirst]
    exact (hundefined _).1

theorem list_sum [IsStrictOrderedRing F] {A : Type} {entries : List A} {f g : A → Exact F}
    (h : ∀ entry ∈ entries, Rising (f entry, g entry)) :
    Rising ((entries.map f).sum, (entries.map g).sum) := by
  induction entries with
  | nil => exact zero
  | cons entry rest ih =>
    have hrest := ih fun other ho => h other (by simp [ho])
    simpa using (h entry (by simp)).add hrest

end Exact.Rising

variable [LnSqrt F]

/-- What is not infinite is a number or undefined. -/
theorem Exact.number_or_undefined {x : Exact F} (h : isInfinite x = false) :
    (∃ a, x = number a) ∨ x = undefined := by
  cases x with
  | number a => exact .inl ⟨a, rfl⟩
  | undefined => exact .inr rfl
  | high => cases h
  | low => cases h

namespace CostSpace

/-- From a number on the fold keeps a number that lies as far on its side. -/
theorem foldl_keepExtreme_number (largest : Bool) {entries : List (Exact F)} (a : F)
    (h : ∀ entry ∈ entries, isInfinite entry = false) :
    ∃ b, entries.foldl (keepExtreme largest) (some (number a)) = some (number b) ∧
      if largest then a ≤ b else b ≤ a := by
  induction entries generalizing a with
  | nil => exact ⟨a, rfl, by cases largest <;> exact le_rfl⟩
  | cons entry rest ih =>
    have hkept : ∃ b, keepExtreme largest (some (number a)) entry = some (number b) ∧
        if largest then a ≤ b else b ≤ a := by
      by_cases hlt : (if largest then CostArithmetic.lt (number a) entry
          else CostArithmetic.lt entry (number a)) = true
      · rcases number_or_undefined (h entry (by simp)) with ⟨b, rfl⟩ | rfl
        · refine ⟨b, if_pos hlt, ?_⟩
          cases largest <;> simp [CostArithmetic.lt, Exact.lt] at hlt <;> exact hlt.le
        · cases largest <;> cases hlt
      · exact ⟨a, if_neg hlt, by cases largest <;> exact le_rfl⟩
    obtain ⟨b, hb, hab⟩ := hkept
    obtain ⟨c, hc, hbc⟩ := ih b fun other ho => h other (by simp [ho])
    refine ⟨c, by rw [List.foldl_cons, hb, hc], ?_⟩
    cases largest
    · exact le_trans hbc hab
    · exact le_trans hab hbc

/-- From an undefined cost on the fold keeps it. -/
theorem foldl_keepExtreme_undefined (largest : Bool) (entries : List (Exact F)) :
    entries.foldl (keepExtreme largest) (some undefined) = some undefined := by
  induction entries with
  | nil => rfl
  | cons entry rest ih =>
    have hkept : keepExtreme largest (some undefined) entry = some undefined := by
      cases largest <;> cases entry <;> rfl
    rw [List.foldl_cons, hkept, ih]

end CostSpace

namespace Range

open CostSpace

theorem exists_finiteOr (penalty : F) (extremum : Option (Exact F)) :
    ∃ a, finiteOr (number penalty) extremum = number a := by
  unfold finiteOr
  split
  · split
    next hu => exact Exact.exists_number hu
    · exact ⟨penalty, rfl⟩
  · exact ⟨penalty, rfl⟩

/-- The least and the greatest cost of a space. -/
theorem rising_extent {substitute : Option (Exact F)}
    (hs : ∀ penalty, substitute = some penalty → ∃ a, penalty = number a)
    (space : CostSpace (Exact F)) : Rising (shift substitute space, crest substitute space) := by
  unfold shift crest extent?
  cases substitute with
  | some penalty =>
    obtain ⟨p, rfl⟩ := hs penalty rfl
    obtain ⟨a, ha⟩ := exists_finiteOr p (space.extremum false false)
    obtain ⟨b, hb⟩ := exists_finiteOr p (space.extremum true false)
    exact .inl ⟨min a b, max a b, by simp [ha, hb, least_number, greatest_number], min_le_max⟩
  | none =>
    have hfeasible : ∀ entry ∈ space.table.toList.filter (fun u => !true || !isInfinite u),
        isInfinite entry = false := by
      intro entry hm
      simpa using (List.mem_filter.mp hm).2
    unfold extremum
    generalize space.table.toList.filter (fun u => !true || !isInfinite u) = entries at hfeasible ⊢
    cases entries with
    | nil => exact .inl ⟨0, 0, by simp [← zero_eq]; rfl, le_rfl⟩
    | cons first rest =>
      have hrest : ∀ entry ∈ rest, isInfinite entry = false :=
        fun entry he => hfeasible entry (by simp [he])
      have hfirst : ∀ largest, (first :: rest).foldl (keepExtreme largest) none
          = rest.foldl (keepExtreme largest) (some first) := fun _ => rfl
      rcases number_or_undefined (hfeasible first (by simp)) with ⟨a, rfl⟩ | rfl
      · obtain ⟨low, hlow, hla⟩ := foldl_keepExtreme_number false a hrest
        obtain ⟨high, hhigh, hah⟩ := foldl_keepExtreme_number true a hrest
        exact .inl ⟨low, high, by simp [hfirst, hlow, hhigh], le_trans hla hah⟩
      · exact .inr (by simp [hfirst, foldl_keepExtreme_undefined])

/-- Between ends in order there is a positive number to divide by. -/
theorem exists_pos_divisor [IsStrictOrderedRing F] {range : Range (Exact F)}
    (h : Rising range.ends) : ∃ d, 0 < d ∧ range.divisor = number d := by
  rcases h with ⟨lower, upper, hends, hle⟩ | hundefined
  · exact ⟨_, scale_pos hle, divisor_eq (congrArg Prod.fst hends) (congrArg Prod.snd hends)⟩
  · have hl : range.lower = undefined := hundefined
    have hwidth : range.upper - range.lower = undefined := by
      rw [hl]
      cases range.upper <;> rfl
    refine ⟨1, one_pos, ?_⟩
    simp only [Range.divisor, hwidth]
    simp [isZero, CostArithmetic.eq, CostArithmetic.le, Exact.le, isFinite, CostArithmetic.ofNat]

end Range

namespace Setup

variable {setup : Setup (Exact F)}

/-- The ends of a subtree's range. -/
theorem rising_ends [IsStrictOrderedRing F]
    (hpenalty : ∃ p, setup.config.penaltyFor setup.problem.objective = number p) (name : String) :
    Rising (setup.ends name) :=
  Finset.sum_induction _ Rising (fun _ _ => Rising.add) Rising.zero fun _ _ =>
    Rising.list_sum fun space _ => Range.rising_extent (exists_substitute hpenalty) space

end Setup

end DcopSearch
