import DcopSearch.Normalization.Range
import DcopSearch.Proofs.Cost.Ordered
import Mathlib.Algebra.BigOperators.Group.List.Basic
import Mathlib.Algebra.Field.Rat
import Mathlib.Algebra.Order.Field.Basic
import Mathlib.Algebra.Order.Ring.Rat
import Mathlib.Data.Rat.Sqrt
import Mathlib.Order.WithBot

/-! Exact costs.  A cost is a number of an ordered field, one of the two infinite costs, or undefined;
the operations round nothing and treat what is not a number as doubles do.  Sums do not depend on the
order of their terms, and a sum of numbers and the worst cost is infinite just if it has the worst
cost among its terms. -/

namespace DcopSearch

open CostArithmetic

namespace CostArithmetic

/-- Costs that come to the same total in whatever order and groups they are added. -/
structure OrderFree (K : Type) [CostArithmetic K] : Prop where
  assoc : ∀ x y z : K, x + y + z = x + (y + z)
  comm : ∀ x y : K, x + y = y + x
  zero_add : ∀ x : K, ofNat 0 + x = x

namespace OrderFree

variable {K : Type} [CostArithmetic K] (h : OrderFree K)
include h

theorem foldl_add (costs : List K) (start : K) :
    costs.foldl (· + ·) start = start + total costs := by
  induction costs generalizing start with
  | nil => rw [total, List.foldl_nil, List.foldl_nil, h.comm, h.zero_add]
  | cons cost rest ih => rw [total, List.foldl_cons, List.foldl_cons, ih, ih, h.zero_add, h.assoc]

theorem total_cons (cost : K) (rest : List K) : total (cost :: rest) = cost + total rest := by
  rw [total, List.foldl_cons, h.foldl_add, h.zero_add]

theorem total_append (costs more : List K) : total (costs ++ more) = total costs + total more := by
  rw [total, List.foldl_append, h.foldl_add]
  rfl

theorem total_perm {costs other : List K} (hp : costs.Perm other) : total costs = total other := by
  induction hp with
  | nil => rfl
  | cons cost _ ih => rw [h.total_cons, h.total_cons, ih]
  | swap first second rest =>
    rw [h.total_cons, h.total_cons, h.total_cons, h.total_cons, ← h.assoc, h.comm second, h.assoc]
  | trans _ _ ih ih' => exact ih.trans ih'

theorem total_flatMap {A : Type} (groups : List A) (costs : A → List K) :
    total (groups.flatMap costs) = total (groups.map fun group => total (costs group)) := by
  induction groups with
  | nil => rfl
  | cons group rest ih => rw [List.flatMap_cons, h.total_append, ih, List.map_cons, h.total_cons]

end OrderFree

end CostArithmetic

/-- A logarithm and a square root.  Nothing that is stated of exact costs depends on which they are. -/
class LnSqrt (F : Type) where
  ln : F → F
  sqrt : F → F

/-- Rational stand-ins to run examples with. -/
instance : LnSqrt ℚ where
  ln x := x - 1
  sqrt := Rat.sqrt

inductive Exact (F : Type) where
  | number (x : F)
  | high
  | low
  | undefined
deriving DecidableEq

namespace Exact

variable {F : Type}

/-- The infinite cost on the side of a number, which is undefined for zero. -/
def endless [Zero F] [LT F] [DecidableLT F] (x : F) : Exact F :=
  if 0 < x then high else if x < 0 then low else undefined

def add [Add F] : Exact F → Exact F → Exact F
  | number x, number y => number (x + y)
  | number _, high | high, number _ | high, high => high
  | number _, low | low, number _ | low, low => low
  | high, low | low, high | undefined, _ | _, undefined => undefined

def neg [Neg F] : Exact F → Exact F
  | number x => number (-x)
  | high => low
  | low => high
  | undefined => undefined

section

variable [Field F] [LinearOrder F]

def mul : Exact F → Exact F → Exact F
  | number x, number y => number (x * y)
  | number x, high | high, number x => endless x
  | number x, low | low, number x => endless (-x)
  | high, high | low, low => high
  | high, low | low, high => low
  | undefined, _ | _, undefined => undefined

/-- Zero counts as a small positive number when something infinite is divided by it. -/
def div : Exact F → Exact F → Exact F
  | number x, number y => if y = 0 then endless x else number (x / y)
  | number _, high | number _, low => number 0
  | high, number y => if 0 ≤ y then high else low
  | low, number y => if 0 ≤ y then low else high
  | high, high | high, low | low, high | low, low => undefined
  | undefined, _ | _, undefined => undefined

def ln [LnSqrt F] : Exact F → Exact F
  | number x => if 0 < x then number (LnSqrt.ln x) else if x = 0 then low else undefined
  | high => high
  | low | undefined => undefined

def sqrt [LnSqrt F] : Exact F → Exact F
  | number x => if 0 ≤ x then number (LnSqrt.sqrt x) else undefined
  | high => high
  | low | undefined => undefined

def lt : Exact F → Exact F → Bool
  | number x, number y => decide (x < y)
  | number _, high | low, number _ | low, high => true
  | _, _ => false

def le : Exact F → Exact F → Bool
  | number x, number y => decide (x ≤ y)
  | number _, high | low, number _ | low, high | high, high | low, low => true
  | _, _ => false

instance : Add (Exact F) := ⟨add⟩

instance [LnSqrt F] : CostArithmetic (Exact F) where
  sub x y := add x (neg y)
  mul := mul
  div := div
  neg := neg
  ofNat n := number n
  infinity := high
  lt := lt
  le := le
  ln := ln
  sqrt := sqrt

instance : Zero (Exact F) := ⟨number 0⟩

/-- Sums of exact costs do not depend on the order of the terms. -/
instance : AddCommMonoid (Exact F) where
  add_assoc x y z := by
    show add (add x y) z = add x (add y z)
    cases x <;> cases y <;> cases z <;> simp [add, add_assoc]
  zero_add x := by
    show add (number 0) x = x
    cases x <;> simp [add]
  add_zero x := by
    show add x (number 0) = x
    cases x <;> simp [add]
  add_comm x y := by
    show add x y = add y x
    cases x <;> cases y <;> simp [add, add_comm]
  nsmul := nsmulRec

variable [LnSqrt F]

@[simp] theorem isInfinite_number (x : F) : isInfinite (number x) = false := rfl

@[simp] theorem isFinite_number (x : F) : isFinite (number x) = true := by
  simp [isFinite, CostArithmetic.eq, CostArithmetic.le, le]

@[simp] theorem isInfinite_worst (objective : Objective) :
    isInfinite (objective.worst : Exact F) = true := by
  cases objective <;> rfl

/-- Where a cost stands in the order of all.  An undefined one stands nowhere; it is put lowest. -/
def place {F : Type} : Exact F → WithBot (WithTop F)
  | number x => ((x : WithTop F) : WithBot (WithTop F))
  | high => ((⊤ : WithTop F) : WithBot (WithTop F))
  | low | undefined => ⊥

theorem lt_eq {x y : Exact F} (hx : x ≠ undefined) (hy : y ≠ undefined) :
    CostArithmetic.lt x y = decide (x.place < y.place) := by
  cases x <;> cases y <;> simp [CostArithmetic.lt, lt, place, -WithBot.coe_top] at hx hy ⊢

theorem le_eq {x y : Exact F} (hx : x ≠ undefined) (hy : y ≠ undefined) :
    CostArithmetic.le x y = decide (x.place ≤ y.place) := by
  cases x <;> cases y <;> simp [CostArithmetic.le, le, place, -WithBot.coe_top] at hx hy ⊢

theorem le_iff_not_lt {x y : Exact F} (hx : x ≠ undefined) (hy : y ≠ undefined) :
    CostArithmetic.le x y = true ↔ ¬CostArithmetic.lt y x = true := by
  rw [le_eq hx hy, lt_eq hy hx, decide_eq_true_eq, decide_eq_true_eq, not_lt]

/-- Costs none of which is undefined are ordered by their places. -/
theorem ordered {costs : List (Exact F)} (h : undefined ∉ costs) : Ordered costs :=
  .of_place place fun _ hx _ hy => lt_eq (ne_of_mem_of_not_mem hx h) (ne_of_mem_of_not_mem hy h)

theorem exists_number {x : Exact F} (h : isFinite x = true) : ∃ a, x = number a := by
  cases x with
  | number a => exact ⟨a, rfl⟩
  | high => cases h
  | low => cases h
  | undefined => cases h

omit [LinearOrder F] [LnSqrt F] in
@[simp] theorem number_add (x y : F) : number x + number y = number (x + y) := rfl

theorem zero_eq : (0 : Exact F) = ofNat 0 := by
  show number 0 = number ((0 : Nat) : F)
  rw [Nat.cast_zero]

theorem orderFree : OrderFree (Exact F) where
  assoc := add_assoc
  comm := add_comm
  zero_add := by
    rw [← zero_eq]
    exact zero_add

theorem total_eq_sum (costs : List (Exact F)) : total costs = costs.sum := by
  induction costs with
  | nil => exact zero_eq.symm
  | cons cost rest ih => rw [orderFree.total_cons, ih, List.sum_cons]

/-- A number, or the worst cost. -/
def Priced (objective : Objective) (x : Exact F) : Prop :=
  (∃ a, x = number a) ∨ x = objective.worst

namespace Priced

variable {objective : Objective} {x y : Exact F}

theorem zero : Priced objective (0 : Exact F) := .inl ⟨0, rfl⟩

/-- A sum is infinite just if one of the terms is. -/
theorem add (hx : Priced objective x) (hy : Priced objective y) :
    Priced objective (x + y) ∧ isInfinite (x + y) = (isInfinite x || isInfinite y) := by
  rcases hx with ⟨a, rfl⟩ | rfl <;> rcases hy with ⟨b, rfl⟩ | rfl
  · exact ⟨.inl ⟨a + b, rfl⟩, rfl⟩
  · exact ⟨.inr (by cases objective <;> rfl), by cases objective <;> rfl⟩
  · exact ⟨.inr (by cases objective <;> rfl), by cases objective <;> rfl⟩
  · exact ⟨.inr (by cases objective <;> rfl), by cases objective <;> rfl⟩

theorem sum {costs : List (Exact F)} (h : ∀ cost ∈ costs, Priced objective cost) :
    Priced objective costs.sum ∧ isInfinite costs.sum = costs.any isInfinite := by
  induction costs with
  | nil => exact ⟨zero, rfl⟩
  | cons cost rest ih =>
    obtain ⟨hrest, hinfinite⟩ := ih fun other ho => h other (by simp [ho])
    obtain ⟨hsum, hboth⟩ := (h cost (by simp)).add hrest
    rw [List.sum_cons, List.any_cons, ← hinfinite]
    exact ⟨hsum, hboth⟩

theorem exists_number (h : Priced objective x) (hx : isInfinite x = false) :
    ∃ a, x = number a := by
  rcases h with h | rfl
  · exact h
  · simp at hx

theorem improves (hx : Priced objective x) (hy : Priced objective y) :
    (isInfinite x = true → objective.improves x y = false) ∧
      (isInfinite x = false → isInfinite y = true → objective.improves x y = true) := by
  rcases hx with ⟨a, rfl⟩ | rfl <;> rcases hy with ⟨b, rfl⟩ | rfl <;> cases objective <;>
    simp [Objective.improves, Objective.worst, CostArithmetic.lt, CostArithmetic.infinity, lt,
      isInfinite, CostArithmetic.eq, CostArithmetic.le, le, Neg.neg, neg]

theorem ne_undefined (h : Priced objective x) : x ≠ undefined := by
  rintro rfl
  rcases h with ⟨a, ha⟩ | hworst
  · cases ha
  · cases objective <;> cases hworst

/-- If the best cost is infinite then all are. -/
theorem isInfinite_of_earliestBest {entries : List (Nat × Exact F)} {best : Nat × Exact F}
    (h : ∀ entry ∈ entries, Priced objective entry.2)
    (hbest : objective.earliestBest entries = some best) (hb : isInfinite best.2 = true) :
    ∀ entry ∈ entries, isInfinite entry.2 = true := by
  intro entry he
  have hordered : Ordered (entries.map (·.2)) := by
    refine ordered fun hm => ?_
    obtain ⟨other, ho, hundefined⟩ := List.mem_map.mp hm
    exact (h other ho).ne_undefined hundefined
  cases hx : isInfinite entry.2 with
  | true => rfl
  | false =>
    have himproves :=
      ((h entry he).improves (h best (Objective.mem_of_earliestBest hbest))).2 hx hb
    rw [Objective.not_improves_earliestBest hordered hbest entry he] at himproves
    cases himproves

end Priced

/-- The radius after some samples, which is no number if the root is taken of a negative one. -/
theorem confidenceRadius_eq [IsStrictOrderedRing F] {visits : Nat} {δ : F} (hδ : 0 < δ)
    (hvisits : visits ≠ 0) : confidenceRadius visits (number δ)
      = if 0 ≤ LnSqrt.ln (2 / δ) / (2 * visits) then
          number (LnSqrt.sqrt (LnSqrt.ln (2 / δ) / (2 * visits))) else undefined := by
  have hratio : (ofNat 2 / number δ : Exact F) = number (2 / δ) := by
    show div (number ((2 : Nat) : F)) (number δ) = _
    rw [div, if_neg hδ.ne', Nat.cast_ofNat]
  have hln : CostArithmetic.ln (number (2 / δ)) = number (LnSqrt.ln (2 / δ)) :=
    if_pos (div_pos two_pos hδ)
  have htwice : (ofNat 2 * ofNat visits : Exact F) = number (2 * (visits : F)) := by
    show number (((2 : Nat) : F) * (visits : F)) = _
    rw [Nat.cast_ofNat]
  have hpos : 2 * (visits : F) ≠ 0 := mul_ne_zero two_ne_zero (Nat.cast_ne_zero.mpr hvisits)
  rw [confidenceRadius, if_neg hvisits, hratio, hln, htwice]
  show Exact.sqrt (div (number (LnSqrt.ln (2 / δ))) (number (2 * (visits : F)))) = _
  rw [div, if_neg hpos]
  rfl

/-- The radius of a value that was visited is finite. -/
theorem isFinite_confidenceRadius [IsStrictOrderedRing F] (hln : ∀ x : F, 1 ≤ x → 0 ≤ LnSqrt.ln x)
    {visits : Nat} (hvisits : visits ≠ 0) {delta : F} (hpos : 0 < delta) (hle : delta ≤ 1) :
    isFinite (confidenceRadius visits (number delta)) = true := by
  have hratio : 1 ≤ 2 / delta := (one_le_div hpos).mpr (hle.trans one_le_two)
  have hnonneg : 0 ≤ LnSqrt.ln (2 / delta) / (2 * visits) :=
    div_nonneg (hln _ hratio) (mul_nonneg two_pos.le (Nat.cast_nonneg visits))
  rw [confidenceRadius_eq hpos hvisits, if_pos hnonneg, isFinite_number]

/-- The root of a quotient, both parts of which are on the right side of zero, is a number. -/
theorem isFinite_sqrt_div [IsStrictOrderedRing F] {x y : F} (hx : 0 ≤ x) (hy : 0 < y) :
    isFinite (CostArithmetic.sqrt (number x / number y)) = true := by
  have hdiv : (number x / number y : Exact F) = number (x / y) := if_neg hy.ne'
  have hroot : CostArithmetic.sqrt (number (x / y)) = number (LnSqrt.sqrt (x / y)) :=
    if_pos (div_nonneg hx hy.le)
  rw [hdiv, hroot, isFinite_number]

end

end Exact

end DcopSearch
