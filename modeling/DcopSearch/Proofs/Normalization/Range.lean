import DcopSearch.Normalization.Range

/-! What the steps of normalization leave of a range.  Taking in spaces changes its ends and adds the
spaces, each beside its shift, and nothing else. -/

namespace DcopSearch.Range

open CostArithmetic

variable {K : Type}

theorem isComplete_iff {range : Range K} {view : View} :
    range.isComplete view = true
      ↔ range.reported = false ∧ view.children.length + 1 ≤ range.received := by
  simp [isComplete]

variable [CostArithmetic K]

/-- What moves the smallest cost of a space to zero. -/
def shift (substitute : Option K) (space : CostSpace K) : K :=
  (extent? substitute space).elim (ofNat 0) Extent.low

theorem addSpace_eq (substitute : Option K) (range : Range K) (space : CostSpace K) :
    addSpace substitute range space
      = { range with
          lower := (addSpace substitute range space).lower
          upper := (addSpace substitute range space).upper
          spaces := range.spaces ++ [(space, shift substitute space)] } := by
  unfold addSpace shift
  cases extent? substitute space <;> rfl

theorem foldl_addSpace_eq (substitute : Option K) (spaces : List (CostSpace K)) (range : Range K) :
    spaces.foldl (addSpace substitute) range
      = { range with
          lower := (spaces.foldl (addSpace substitute) range).lower
          upper := (spaces.foldl (addSpace substitute) range).upper
          spaces := range.spaces ++ spaces.map fun space => (space, shift substitute space) } := by
  induction spaces generalizing range with
  | nil => simp
  | cons space rest ih =>
    rw [List.foldl_cons, ih, addSpace_eq]
    simp

/-- The view and the spaces come in; the ends of the range, the counts and the size change too. -/
theorem addView_eq (substitute : Option K) (view : View) (spaces : List (CostSpace K))
    (values : Nat) (range : Range K) :
    range.addView substitute view spaces values
      = { view := some view
          received := range.received + 1
          lower := (spaces.foldl (addSpace substitute) range).lower
          upper := (spaces.foldl (addSpace substitute) range).upper
          spaceCount := range.spaceCount + spaces.length
          size := max range.size values
          separator := range.separator ∪ view.separator
          spaces := range.spaces ++ spaces.map fun space => (space, shift substitute space)
          reported := range.reported
          done := range.done } := by
  rw [addView, foldl_addSpace_eq]

end DcopSearch.Range
