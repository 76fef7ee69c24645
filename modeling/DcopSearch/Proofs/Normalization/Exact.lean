import DcopSearch.Proofs.Cost.Exact
import DcopSearch.Proofs.Normalization.Range

/-! Normalization of exact costs.  The shift of a space is a number and the divisor one other than
zero, so that a rescaled table has numbers where the table had numbers; an infinite entry is either
replaced by a number or stays as it is. -/

namespace DcopSearch

open CostArithmetic Exact

variable {F : Type} [Field F] [LinearOrder F] [LnSqrt F]

namespace CostSpace

/-- Every entry is a number or the worst cost. -/
def Priced (objective : Objective) (space : CostSpace (Exact F)) : Prop :=
  ∀ entry ∈ space.table.toList, Exact.Priced objective entry

variable {space : CostSpace (Exact F)} {objective : Objective}

omit [Field F] [LinearOrder F] [LnSqrt F] in
theorem mem_table_of_lookup {value? : String → Option Value} {entry : Exact F}
    (h : space.lookup? value? = some entry) : entry ∈ space.table.toList := by
  obtain ⟨i, _, hi⟩ := Option.bind_eq_some_iff.mp h
  exact List.mem_of_getElem? (by simpa using hi)

theorem mem_of_foldl_keepExtreme {K : Type} [CostArithmetic K] {largest : Bool} {entries : List K}
    {held : Option K} {kept : K} (h : entries.foldl (keepExtreme largest) held = some kept) :
    kept ∈ entries ∨ held = some kept := by
  induction entries generalizing held with
  | nil => exact .inr h
  | cons entry rest ih =>
    rcases ih h with hm | hkeep
    · exact .inl (List.mem_cons_of_mem _ hm)
    cases held with
    | none =>
      obtain rfl := Option.some.inj hkeep
      exact .inl List.mem_cons_self
    | some best =>
      rcases ite_eq_or_eq ((if largest then lt best entry else lt entry best) = true)
        (some entry) (some best) with hk | hk
      · obtain rfl := Option.some.inj (hk.symm.trans hkeep)
        exact .inl List.mem_cons_self
      · exact .inr (hk.symm.trans hkeep)

theorem exists_number_extremum (h : space.Priced objective) {largest : Bool} {u : Exact F}
    (hu : space.extremum largest true = some u) : ∃ a, u = number a := by
  obtain ⟨hm, hf⟩ := List.mem_filter.mp ((mem_of_foldl_keepExtreme hu).resolve_right nofun)
  exact (h u hm).exists_number (by simpa using hf)

/-- Rescaling leaves a number or the worst cost, and the latter only if there is no substitute. -/
theorem rescaleEntry_priced (shift : F) {divisor : F} (hd : divisor ≠ 0) {substitute : Option (Exact F)}
    (hs : ∀ penalty, substitute = some penalty → ∃ a, penalty = number a) {entry : Exact F}
    (h : Exact.Priced objective entry) :
    Exact.Priced objective (rescaleEntry (number shift) (number divisor) substitute entry) ∧
      isInfinite (rescaleEntry (number shift) (number divisor) substitute entry)
        = (isInfinite entry && substitute.isNone) := by
  have hnumber : ∀ a : F, (number a - number shift) / number divisor
      = number ((a + -shift) / divisor) := fun a => if_neg hd
  unfold rescaleEntry
  rcases h with ⟨a, rfl⟩ | rfl
  · rw [isInfinite_number, if_neg Bool.false_ne_true, hnumber]
    exact ⟨.inl ⟨_, rfl⟩, rfl⟩
  · rw [isInfinite_worst, if_pos rfl]
    cases hsub : substitute with
    | none => exact ⟨.inr rfl, by simp⟩
    | some penalty =>
      obtain ⟨a, rfl⟩ := hs penalty hsub
      simp only [hnumber]
      exact ⟨.inl ⟨_, rfl⟩, rfl⟩

end CostSpace

namespace Range

theorem exists_shift {objective : Objective} {space : CostSpace (Exact F)}
    (h : space.Priced objective) {substitute : Option (Exact F)}
    (hs : ∀ penalty, substitute = some penalty → ∃ a, penalty = number a) :
    ∃ a, shift substitute space = number a := by
  have hfinite : ∀ (penalty : F) (extremum : Option (Exact F)),
      ∃ a, finiteOr (number penalty) extremum = number a := by
    intro penalty extremum
    unfold finiteOr
    split
    · split
      next hu => exact Exact.exists_number hu
      · exact ⟨penalty, rfl⟩
    · exact ⟨penalty, rfl⟩
  unfold shift extent?
  cases hsub : substitute with
  | none =>
    simp only
    split
    next least _ hleast _ => exact CostSpace.exists_number_extremum h hleast
    next => exact ⟨_, rfl⟩
  | some penalty =>
    obtain ⟨p, rfl⟩ := hs penalty hsub
    obtain ⟨a, ha⟩ := hfinite p (space.extremum false false)
    obtain ⟨b, hb⟩ := hfinite p (space.extremum true false)
    simp only [ha, hb, least, Option.elim_some]
    split
    · exact ⟨b, rfl⟩
    · exact ⟨a, rfl⟩

theorem exists_divisor (range : Range (Exact F)) : ∃ d : F, d ≠ 0 ∧ range.divisor = number d := by
  have hchoice : ∀ x : Exact F, ∃ d : F, d ≠ 0 ∧
      (if isZero x || !isFinite x then ofNat 1 else x) = number d := by
    intro x
    split
    · exact ⟨((1 : Nat) : F), by simp, rfl⟩
    next hx =>
      simp only [Bool.or_eq_true, not_or, Bool.not_eq_true', Bool.not_eq_false] at hx
      obtain ⟨hzero, hfinite⟩ := hx
      obtain ⟨d, rfl⟩ := Exact.exists_number hfinite
      refine ⟨d, ?_, rfl⟩
      rintro rfl
      simp [isZero, CostArithmetic.eq, CostArithmetic.le, Exact.le, CostArithmetic.ofNat] at hzero
  exact hchoice _

end Range

end DcopSearch
