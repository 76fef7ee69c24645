import DcopSearch.Proofs.Cost.Exact
import Mathlib.Algebra.BigOperators.Group.Finset.Basic

/-! Which of two numbers is the better cost.  Sums of better costs are better, and the earliest best of
a list is at least as good as all of it. -/

namespace DcopSearch

open CostArithmetic Exact

variable {F : Type} [LinearOrder F]

namespace Objective

/-- Both costs are numbers, of which the first is at least as good. -/
inductive Prefers : Objective → Exact F → Exact F → Prop where
  | minimize {x y : F} : x ≤ y → Prefers .minimize (number x) (number y)
  | maximize {x y : F} : y ≤ x → Prefers .maximize (number x) (number y)

variable {objective : Objective} {x y z x' y' : Exact F}

@[simp] theorem prefers_minimize {a b : F} :
    Prefers .minimize (number a) (number b) ↔ a ≤ b :=
  ⟨fun h => by cases h; assumption, .minimize⟩

@[simp] theorem prefers_maximize {a b : F} :
    Prefers .maximize (number a) (number b) ↔ b ≤ a :=
  ⟨fun h => by cases h; assumption, .maximize⟩

theorem prefers_self (objective : Objective) (a : F) :
    objective.Prefers (number a) (number a) := by
  cases objective
  · exact .minimize le_rfl
  · exact .maximize le_rfl

namespace Prefers

theorem trans (h : objective.Prefers x y) (h' : objective.Prefers y z) : objective.Prefers x z := by
  cases h with
  | minimize hxy =>
    cases h' with
    | minimize hyz => exact .minimize (hxy.trans hyz)
  | maximize hyx =>
    cases h' with
    | maximize hzy => exact .maximize (hzy.trans hyx)

theorem antisymm (h : objective.Prefers x y) (h' : objective.Prefers y x) : x = y := by
  cases h with
  | minimize hxy =>
    cases h' with
    | minimize hyx => rw [le_antisymm hxy hyx]
  | maximize hyx =>
    cases h' with
    | maximize hxy => rw [le_antisymm hxy hyx]

variable [Field F]

theorem add [IsStrictOrderedRing F] (h : objective.Prefers x y) (h' : objective.Prefers x' y') :
    objective.Prefers (x + x') (y + y') := by
  cases h with
  | minimize hxy =>
    cases h' with
    | minimize hxy' => exact .minimize (add_le_add hxy hxy')
  | maximize hyx =>
    cases h' with
    | maximize hyx' => exact .maximize (add_le_add hyx hyx')

theorem sum [IsStrictOrderedRing F] {names : Finset String} {f g : String → Exact F}
    (h : ∀ name ∈ names, objective.Prefers (f name) (g name)) :
    objective.Prefers (∑ name ∈ names, f name) (∑ name ∈ names, g name) := by
  induction names using Finset.induction_on with
  | empty => exact prefers_self objective 0
  | insert name rest hn ih =>
    rw [Finset.sum_insert hn, Finset.sum_insert hn]
    exact (h name (by simp)).add (ih fun other ho => h other (by simp [ho]))

/-- A common shift and scaling keep what is preferred. -/
theorem rescaled_iff [IsStrictOrderedRing F] {a b shift divisor : F} (hd : 0 < divisor) :
    objective.Prefers (number ((a - shift) / divisor)) (number ((b - shift) / divisor))
      ↔ objective.Prefers (number a) (number b) := by
  have hle : ∀ {a b : F}, (a - shift) / divisor ≤ (b - shift) / divisor ↔ a ≤ b := by
    intro a b
    rw [div_le_div_iff_of_pos_right hd, sub_le_sub_iff_right]
  cases objective with
  | minimize => rw [prefers_minimize, prefers_minimize, hle]
  | maximize => rw [prefers_maximize, prefers_maximize, hle]

end Prefers

variable [Field F] [LnSqrt F]

@[simp] theorem improves_minimize (a b : F) :
    improves .minimize (number a) (number b) = decide (a < b) := rfl

@[simp] theorem improves_maximize (a b : F) :
    improves .maximize (number a) (number b) = decide (b < a) := rfl

theorem prefers_iff (objective : Objective) (a b : F) :
    objective.Prefers (number a) (number b) ↔ objective.improves (number b) (number a) = false := by
  cases objective with
  | minimize =>
    rw [prefers_minimize, improves_minimize, decide_eq_false_iff_not, not_lt]
  | maximize =>
    rw [prefers_maximize, improves_maximize, decide_eq_false_iff_not, not_lt]

/-- The earliest best is at least as good as every entry. -/
theorem earliestBest_prefers {entries : List (Nat × Exact F)} {best : Nat × Exact F}
    (h : ∀ entry ∈ entries, ∃ a, entry.2 = number a)
    (hbest : objective.earliestBest entries = some best) :
    ∀ entry ∈ entries, objective.Prefers best.2 entry.2 := by
  intro entry he
  have hordered : Ordered (entries.map (·.2)) := by
    refine ordered fun hm => ?_
    obtain ⟨other, ho, hundefined⟩ := List.mem_map.mp hm
    obtain ⟨a, ha⟩ := h other ho
    rw [ha] at hundefined
    cases hundefined
  have hnot := not_improves_earliestBest hordered hbest entry he
  obtain ⟨a, ha⟩ := h best (mem_of_earliestBest hbest)
  obtain ⟨b, hb⟩ := h entry he
  rw [ha, hb] at hnot ⊢
  exact (prefers_iff objective a b).mpr hnot

/-- The best of the costs. -/
def best (objective : Objective) (costs : List (Exact F)) : Exact F :=
  (objective.earliestBest ((List.range costs.length).zip costs)).elim objective.worst (·.2)

theorem best_prefers {costs : List (Exact F)} (hne : costs ≠ [])
    (h : ∀ cost ∈ costs, ∃ a, cost = number a) :
    objective.best costs ∈ costs ∧ ∀ cost ∈ costs, objective.Prefers (objective.best costs) cost := by
  obtain ⟨entry, hentry⟩ : ∃ entry,
      objective.earliestBest ((List.range costs.length).zip costs) = some entry := by
    rw [← Option.isSome_iff_exists, Option.isSome_iff_ne_none, ne_eq, earliestBest_eq_none,
      ← List.length_eq_zero_iff]
    simpa using hne
  have hnumbers : ∀ entry ∈ (List.range costs.length).zip costs, ∃ a, entry.2 = number a :=
    fun entry he => h entry.2 (List.of_mem_zip he).2
  have hbest : objective.best costs = entry.2 := by rw [best, hentry]; rfl
  rw [hbest]
  refine ⟨(List.of_mem_zip (mem_of_earliestBest hentry)).2, fun cost hc => ?_⟩
  obtain ⟨i, hlt, rfl⟩ := List.mem_iff_getElem.mp hc
  refine earliestBest_prefers hnumbers hentry (i, costs[i]) (List.mem_iff_getElem?.mpr ⟨i, ?_⟩)
  rw [List.getElem?_zip_eq_some]
  simp [hlt]

theorem best_eq {costs : List (Exact F)} {cost : Exact F} (hm : cost ∈ costs)
    (h : ∀ other ∈ costs, objective.Prefers cost other) : objective.best costs = cost := by
  have hnumbers : ∀ other ∈ costs, ∃ a, other = number a := by
    intro other ho
    cases h other ho <;> exact ⟨_, rfl⟩
  obtain ⟨hbest, hprefers⟩ := objective.best_prefers (List.ne_nil_of_mem hm) hnumbers
  exact (hprefers cost hm).antisymm (h _ hbest)

/-- The best of one cost more. -/
theorem best_cons {cost : Exact F} {costs : List (Exact F)} (hcost : ∃ a, cost = number a)
    (h : ∀ other ∈ costs, ∃ a, other = number a) : objective.best (cost :: costs)
      = if objective.improves cost (objective.best costs) then cost else objective.best costs := by
  obtain ⟨a, rfl⟩ := hcost
  have hself := objective.prefers_self a
  by_cases hne : costs = []
  · have himproves : objective.improves (number a) (objective.best costs) = true := by
      rw [hne]
      cases objective <;> rfl
    rw [if_pos himproves, hne]
    exact best_eq (by simp) (by simpa using hself)
  obtain ⟨hbest, hprefers⟩ := objective.best_prefers hne h
  obtain ⟨b, hb⟩ := h _ hbest
  rw [hb] at hbest hprefers ⊢
  split
  next himproves =>
    have hover : objective.Prefers (number a) (number b) := by
      rw [prefers_iff]
      cases objective with
      | minimize => simpa using (of_decide_eq_true himproves).le
      | maximize => simpa using (of_decide_eq_true himproves).le
    exact best_eq (by simp) (List.forall_mem_cons.mpr
      ⟨hself, fun other ho => hover.trans (hprefers other ho)⟩)
  next hkept =>
    have hover : objective.Prefers (number b) (number a) :=
      (prefers_iff objective b a).mpr (Bool.eq_false_of_not_eq_true hkept)
    exact best_eq (List.mem_cons_of_mem _ hbest) (List.forall_mem_cons.mpr ⟨hover, hprefers⟩)

end Objective

end DcopSearch
