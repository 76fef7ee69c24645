import DcopSearch.Cost.Arithmetic

/-! The direction of the search.  An `Objective` says whether a smaller or a larger total is better,
and with it which of two costs improves on the other, which is the worst of all and what it means to
look at an estimate in a favourable light. -/

namespace DcopSearch

open CostArithmetic

inductive Objective where
  | minimize
  | maximize
deriving DecidableEq, Repr

namespace Objective

variable {K : Type} [CostArithmetic K]

/-- The worst cost there is.  It marks an infeasible assignment and is what a search for the best
starts from. -/
def worst : Objective → K
  | minimize => infinity
  | maximize => -infinity

/-- Strictly better, so that of equal costs the earlier one is kept. -/
def improves : Objective → K → K → Bool
  | minimize, candidate, incumbent => lt candidate incumbent
  | maximize, candidate, incumbent => lt incumbent candidate

def optimistic : Objective → K → K → K
  | minimize, estimate, bound => estimate - bound
  | maximize, estimate, bound => estimate + bound

def gain : Objective → K → K → K
  | minimize, candidate, reference => reference - candidate
  | maximize, candidate, reference => candidate - reference

/-- The better of the entry held so far and the next one; the held one stays when they are equal. -/
def keepBetter (objective : Objective) (held : Option (Nat × K)) (entry : Nat × K) :
    Option (Nat × K) :=
  match held with
  | none => some entry
  | some best => if objective.improves entry.2 best.2 then some entry else some best

/-- The earliest of the entries whose score no other improves on; `none` of no entries. -/
def earliestBest (objective : Objective) (entries : List (Nat × K)) : Option (Nat × K) :=
  entries.foldl objective.keepBetter none

theorem keepBetter_some (objective : Objective) (best entry : Nat × K) :
    objective.keepBetter (some best) entry = some best ∨
      objective.keepBetter (some best) entry = some entry := by
  unfold keepBetter
  by_cases h : objective.improves entry.2 best.2 = true
  · exact .inr (if_pos h)
  · exact .inl (if_neg h)

theorem mem_of_foldl_keepBetter (objective : Objective) (entries : List (Nat × K))
    (best : Nat × K) :
    ∃ entry ∈ best :: entries, entries.foldl objective.keepBetter (some best) = some entry := by
  induction entries generalizing best with
  | nil => exact ⟨best, by simp, rfl⟩
  | cons first rest ih =>
    rw [List.foldl_cons]
    rcases keepBetter_some objective best first with h | h
    · obtain ⟨entry, hm, he⟩ := ih best
      exact ⟨entry, by grind, by rw [h, he]⟩
    · obtain ⟨entry, hm, he⟩ := ih first
      exact ⟨entry, List.mem_cons_of_mem _ hm, by rw [h, he]⟩

theorem earliestBest_nil (objective : Objective) :
    objective.earliestBest ([] : List (Nat × K)) = none := rfl

theorem earliestBest_cons (objective : Objective) (first : Nat × K) (rest : List (Nat × K)) :
    objective.earliestBest (first :: rest) = rest.foldl objective.keepBetter (some first) := rfl

theorem mem_of_earliestBest {objective : Objective} {entries : List (Nat × K)} {best : Nat × K}
    (h : objective.earliestBest entries = some best) : best ∈ entries := by
  cases entries with
  | nil => simp [earliestBest_nil] at h
  | cons first rest =>
    obtain ⟨entry, hm, he⟩ := mem_of_foldl_keepBetter objective rest first
    rw [earliestBest_cons, he] at h
    exact Option.some.inj h ▸ hm

theorem earliestBest_eq_none {objective : Objective} {entries : List (Nat × K)} :
    objective.earliestBest entries = none ↔ entries = [] := by
  cases entries with
  | nil => simp [earliestBest_nil]
  | cons first rest =>
    obtain ⟨entry, _, he⟩ := mem_of_foldl_keepBetter objective rest first
    simp [earliestBest_cons, he]

end Objective

/-- The radius around the mean of `visits` samples from the unit interval that holds the true mean
with probability `1 - delta`, after Hoeffding: `sqrt (ln (2 / delta) / (2 visits))`.  Without samples
it is infinite. -/
def confidenceRadius {K : Type} [CostArithmetic K] (visits : Nat) (delta : K) : K :=
  if visits = 0 then infinity
  else sqrt (ln (ofNat 2 / delta) / (ofNat 2 * ofNat visits))

end DcopSearch
