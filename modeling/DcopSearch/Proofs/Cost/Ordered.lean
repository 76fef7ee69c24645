import DcopSearch.Cost.Objective
import Mathlib.Data.List.Induction
import Mathlib.Order.Lattice

/-! The earliest best of several costs.  Among costs that compare as in a linear order, equal ones allowed,
no cost improves on the best, and none that comes before it is as good. -/

namespace DcopSearch

open CostArithmetic

variable {K : Type} [CostArithmetic K]

/-- Costs that compare as in a linear order, in which some may be equal: no two of them come before each
other, and where one comes before another, any third one comes after the first or before the second.  What
is not a number does neither. -/
structure Ordered (costs : List K) : Prop where
  asymm : ∀ x ∈ costs, ∀ y ∈ costs, lt x y = true → lt y x = false
  apart : ∀ x ∈ costs, ∀ y ∈ costs, ∀ z ∈ costs, lt x z = true → lt x y = true ∨ lt y z = true

/-- Costs that have places in a linear order, by which they compare. -/
theorem Ordered.of_place {L : Type} [LinearOrder L] {costs : List K} (place : K → L)
    (h : ∀ x ∈ costs, ∀ y ∈ costs, lt x y = decide (place x < place y)) : Ordered costs where
  asymm x hx y hy hlt := by
    rw [h x hx y hy, decide_eq_true_eq] at hlt
    rw [h y hy x hx, decide_eq_false_iff_not]
    exact lt_asymm hlt
  apart x hx y hy z hz hlt := by
    rw [h x hx z hz, decide_eq_true_eq] at hlt
    rw [h x hx y hy, h y hy z hz, decide_eq_true_eq, decide_eq_true_eq]
    exact (lt_or_ge (place x) (place y)).imp_right fun hle => lt_of_le_of_lt hle hlt

namespace Ordered

variable {costs : List K} {x y z : K}

theorem subset {others : List K} (h : Ordered costs) (hs : others ⊆ costs) : Ordered others where
  asymm x hx y hy := h.asymm x (hs hx) y (hs hy)
  apart x hx y hy z hz := h.apart x (hs hx) y (hs hy) z (hs hz)

theorem improves_asymm (h : Ordered costs) {objective : Objective} (hx : x ∈ costs) (hy : y ∈ costs)
    (himproves : objective.improves x y = true) : objective.improves y x = false := by
  cases objective with
  | minimize => exact h.asymm x hx y hy himproves
  | maximize => exact h.asymm y hy x hx himproves

theorem improves_self (h : Ordered costs) (objective : Objective) (hx : x ∈ costs) :
    objective.improves x x = false := by
  cases hself : objective.improves x x with
  | false => rfl
  | true => exact hself ▸ h.improves_asymm hx hx hself

theorem improves_apart (h : Ordered costs) {objective : Objective} (hx : x ∈ costs) (hy : y ∈ costs)
    (hz : z ∈ costs) (himproves : objective.improves x z = true) :
    objective.improves x y = true ∨ objective.improves y z = true := by
  cases objective with
  | minimize => exact h.apart x hx y hy z hz himproves
  | maximize => exact (h.apart z hz y hy x hx himproves).symm

end Ordered

namespace Objective

/-- The entry improves on those before it, and none after it improves on it. -/
def FirstBest (objective : Objective) (entries : List (Nat × K)) (best : Nat × K) : Prop :=
  ∃ before after, entries = before ++ best :: after ∧
    (∀ entry ∈ before, objective.improves best.2 entry.2 = true) ∧
    ∀ entry ∈ after, objective.improves entry.2 best.2 = false

variable {objective : Objective} {entries : List (Nat × K)} {best : Nat × K}

theorem FirstBest.mem (h : objective.FirstBest entries best) : best ∈ entries := by
  obtain ⟨before, after, rfl, -, -⟩ := h
  simp

/-- No entry improves on it at all. -/
theorem FirstBest.not_improves (h : objective.FirstBest entries best)
    (hordered : Ordered (entries.map (·.2))) :
    ∀ entry ∈ entries, objective.improves entry.2 best.2 = false := by
  intro entry he
  have hcost : entry.2 ∈ entries.map (·.2) := List.mem_map_of_mem he
  have hbest : best.2 ∈ entries.map (·.2) := List.mem_map_of_mem h.mem
  obtain ⟨before, after, hsplit, hbefore, hafter⟩ := h
  rw [hsplit, List.mem_append, List.mem_cons] at he
  rcases he with he | rfl | he
  · exact hordered.improves_asymm hbest hcost (hbefore entry he)
  · exact hordered.improves_self objective hcost
  · exact hafter entry he

/-- The earliest best is the first of those on which no entry improves.  By induction from the right: the
last entry improves on the best of the others, and so on all of them, or is passed over. -/
theorem firstBest_of_earliestBest (hordered : Ordered (entries.map (·.2)))
    (h : objective.earliestBest entries = some best) : objective.FirstBest entries best := by
  induction entries using List.reverseRecOn generalizing best with
  | nil => cases h
  | append_singleton entries last ih =>
    have hothers : Ordered (entries.map (·.2)) := hordered.subset (by simp)
    rw [earliestBest, List.foldl_append] at h
    change objective.keepBetter (objective.earliestBest entries) last = some best at h
    cases hheld : objective.earliestBest entries with
    | none =>
      rw [hheld] at h
      obtain rfl := earliestBest_eq_none.mp hheld
      obtain rfl := Option.some.inj h
      exact ⟨[], [], rfl, by simp, by simp⟩
    | some held =>
      have hfirst := ih hothers hheld
      rw [hheld, keepBetter] at h
      split at h
      next himproves =>
        obtain rfl := Option.some.inj h
        refine ⟨entries, [], rfl, fun entry he => ?_, by simp⟩
        have hm : ∀ other ∈ last :: entries, other.2 ∈ (entries ++ [last]).map (·.2) :=
          fun other ho => List.mem_map_of_mem (by simpa [or_comm] using ho)
        rcases hordered.improves_apart (hm last (by simp)) (hm entry (by simp [he]))
          (hm held (by simp [hfirst.mem])) himproves with hlast | hbetter
        · exact hlast
        · rw [hfirst.not_improves hothers entry he] at hbetter
          cases hbetter
      next hkept =>
        obtain rfl := Option.some.inj h
        obtain ⟨before, after, rfl, hbefore, hafter⟩ := hfirst
        refine ⟨before, after ++ [last], by simp, hbefore, fun entry he => ?_⟩
        rcases List.mem_append.mp he with he | he
        · exact hafter entry he
        · rw [List.mem_singleton.mp he]
          simpa using hkept

/-- No entry improves on the earliest best. -/
theorem not_improves_earliestBest (hordered : Ordered (entries.map (·.2)))
    (h : objective.earliestBest entries = some best) :
    ∀ entry ∈ entries, objective.improves entry.2 best.2 = false :=
  (firstBest_of_earliestBest hordered h).not_improves hordered

end Objective

end DcopSearch
