import DcopSearch.Normalization.Normalizer
import DcopSearch.Proofs.Normalization.Extents
import Mathlib.Algebra.BigOperators.Group.Finset.Basic
import Mathlib.Data.Finset.Lattice.Fold
import Mathlib.Order.Lattice.Nat

/-! What a range adds up to: the ends of the range, and its shape, which is the number of the spaces, the
size measure and the ancestors.  Each is combined by an operation that is commutative and associative,
so that the order in which a variable hears from its children leaves no trace. -/

namespace DcopSearch

open CostArithmetic

/-- The part of a range that is not about costs. -/
structure Shape where
  spaceCount : Nat
  size : Nat
  separator : NameSet

theorem NameSet.ext {s t : NameSet} (h : ∀ name, name ∈ s ↔ name ∈ t) : s = t :=
  Std.ExtTreeSet.ext_mem h

namespace Shape

instance : Add Shape where
  add s t :=
    { spaceCount := s.spaceCount + t.spaceCount
      size := max s.size t.size
      separator := s.separator ∪ t.separator }

instance : Zero Shape where
  zero := { spaceCount := 0, size := 0, separator := ∅ }

theorem add_def (s t : Shape) : s + t
    = { spaceCount := s.spaceCount + t.spaceCount
        size := max s.size t.size
        separator := s.separator ∪ t.separator } := rfl

theorem zero_def : (0 : Shape) = { spaceCount := 0, size := 0, separator := ∅ } := rfl

instance : AddCommMonoid Shape where
  add_assoc s t u := by
    simp only [add_def, Nat.add_assoc, max_assoc, mk.injEq, true_and]
    exact NameSet.ext fun name => by simp [or_assoc]
  zero_add s := by
    simp only [add_def, zero_def, Nat.zero_add, Nat.zero_max]
    have he : (∅ : NameSet) ∪ s.separator = s.separator := NameSet.ext fun name => by simp
    rw [he]
  add_zero s := by
    simp only [add_def, zero_def, Nat.add_zero, Nat.max_zero]
    have he : s.separator ∪ (∅ : NameSet) = s.separator := NameSet.ext fun name => by simp
    rw [he]
  add_comm s t := by
    simp only [add_def, mk.injEq]
    exact ⟨Nat.add_comm _ _, max_comm _ _, NameSet.ext fun name => by simp [or_comm]⟩
  nsmul := nsmulRec

section Sum

variable {ι : Type} (names : Finset ι) (f : ι → Shape)

theorem spaceCount_sum : (∑ i ∈ names, f i).spaceCount = ∑ i ∈ names, (f i).spaceCount :=
  map_sum ({ toFun := spaceCount, map_zero' := rfl, map_add' := fun _ _ => rfl } : Shape →+ Nat) f
    names

theorem size_sum [DecidableEq ι] : (∑ i ∈ names, f i).size = names.sup fun i => (f i).size := by
  induction names using Finset.induction_on with
  | empty => rfl
  | insert i rest hi ih => rw [Finset.sum_insert hi, Finset.sup_insert, ← ih]; rfl

theorem mem_separator_sum [DecidableEq ι] {name : String} :
    name ∈ (∑ i ∈ names, f i).separator ↔ ∃ i ∈ names, name ∈ (f i).separator := by
  induction names using Finset.induction_on with
  | empty => simp [zero_def]
  | insert i rest hi ih => simp [Finset.sum_insert hi, add_def, ih]

end Sum

/-- The shape as it is reported by a variable with children, or by a leaf. -/
def close (name : String) (leaf : Bool) (s : Shape) : Shape :=
  { s with size := if leaf then s.size else s.size + 1, separator := s.separator.erase name }

end Shape

namespace Range

/-- The shape of a range. -/
def shape {K : Type} (range : Range K) : Shape where
  spaceCount := range.spaceCount
  size := range.size
  separator := range.separator

theorem shape_addView {K : Type} [CostArithmetic K] (substitute : Option K) (view : View)
    (spaces : List (CostSpace K)) (values : Nat) (range : Range K) :
    (range.addView substitute view spaces values).shape = range.shape
      + { spaceCount := spaces.length, size := values, separator := view.separator } := by
  rw [addView_eq]
  rfl

variable {F : Type} [Field F] [LinearOrder F] [LnSqrt F]

/-- The two ends of a range. -/
def ends (range : Range (Exact F)) : Exact F × Exact F := (range.lower, range.upper)

theorem ends_empty : (empty : Range (Exact F)).ends = 0 := by
  rw [ends, empty, ← Exact.zero_eq]
  rfl

theorem ends_foldl (substitute : Option (Exact F)) (spaces : List (CostSpace (Exact F)))
    (range : Range (Exact F)) : (spaces.foldl (addSpace substitute) range).ends = range.ends
      + ((spaces.map (shift substitute)).sum, (spaces.map (crest substitute)).sum) := by
  have hspace : ∀ (range : Range (Exact F)) space, (addSpace substitute range space).ends
      = range.ends + (shift substitute space, crest substitute space) := by
    intro range space
    unfold addSpace shift crest
    cases extent? substitute space with
    | none => simp [ends, ← Exact.zero_eq]
    | some extent => rfl
  induction spaces generalizing range with
  | nil => simp [ends]
  | cons space rest ih =>
    rw [List.foldl_cons, ih (addSpace substitute range space), hspace, add_assoc]
    rfl

theorem ends_addView (substitute : Option (Exact F)) (view : View)
    (spaces : List (CostSpace (Exact F))) (values : Nat) (range : Range (Exact F)) :
    (range.addView substitute view spaces values).ends = range.ends
      + ((spaces.map (shift substitute)).sum, (spaces.map (crest substitute)).sum) := by
  rw [← ends_foldl, addView_eq]
  rfl

end Range

end DcopSearch
