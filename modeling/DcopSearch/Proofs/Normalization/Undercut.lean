import DcopSearch.Proofs.Normalization.Settled

/-! Where feasible costs lie once they are moved and divided.  The extent of a space holds its
feasible costs, except that the substitute takes the place of the worst cost at one end: a feasible
cost beyond the substitute is left outside if the space has infeasible costs and a better feasible
one. -/

namespace DcopSearch

open CostArithmetic Exact

variable {F : Type} [Field F] [LinearOrder F] [LnSqrt F]

namespace Exact

omit [Field F] [LnSqrt F] in
theorem eq_high_of_le {y : Exact F} (h : Exact.le high y = true) : y = high := by
  cases y with
  | high => rfl
  | number _ => cases h
  | low => cases h
  | undefined => cases h

omit [Field F] [LnSqrt F] in
theorem eq_low_of_le {y : Exact F} (h : Exact.le y low = true) : y = low := by
  cases y with
  | low => rfl
  | number _ => cases h
  | high => cases h
  | undefined => cases h

end Exact

namespace CostSpace

/-- The substitute is better than a feasible cost of a space that has infeasible costs and a better
feasible one. -/
def Undercut (space : CostSpace (Exact F)) (objective : Objective) (substitute : Option (Exact F))
    (x : F) : Prop :=
  ∃ p, substitute = some (number p) ∧
    (∃ entry ∈ space.table.toList, isInfinite entry = true) ∧
    objective.improves (number p) (number x) = true ∧
    ∃ y, number y ∈ space.table.toList ∧ objective.improves (number y) (number x) = true

variable {space : CostSpace (Exact F)} {objective : Objective} {substitute : Option (Exact F)}
  {low high x : F}

/-- The extent of a space holds a feasible cost, or reaches from its best feasible cost to the
substitute. -/
theorem Spread.between_or (h : space.Spread substitute low high) (priced : space.Priced objective)
    (hx : number x ∈ space.table.toList) :
    (low ≤ x ∧ x ≤ high ∧ ¬space.Undercut objective substitute x) ∨
    ∃ p best, substitute = some (number p) ∧
      (∃ entry ∈ space.table.toList, isInfinite entry = true) ∧
      number best ∈ space.table.toList ∧
      (∀ y, number y ∈ space.table.toList → objective.Prefers (number best) (number y)) ∧
      low = min best p ∧ high = max best p := by
  cases h with
  | feasible _ _ hbetween =>
    obtain ⟨hlow, hhigh⟩ := hbetween x hx
    exact .inl ⟨hlow, hhigh, fun ⟨_, hs, _⟩ => nomatch hs⟩
  | blocked hnone => exact absurd hx (hnone x)
  | @substituted penalty least greatest hl hg hall =>
    obtain ⟨hleast, hgreatest⟩ := hall (number x) hx
    by_cases hinfinite : ∃ entry ∈ space.table.toList, isInfinite entry = true
    · obtain ⟨entry, he, hi⟩ := hinfinite
      obtain rfl : entry = objective.worst := by
        rcases priced entry he with ⟨a, rfl⟩ | rfl
        · cases hi
        · rfl
      -- the worst cost is one end of the table, and the best feasible cost the other one
      obtain ⟨hlower, hupper⟩ := hall _ he
      refine .inr ?_
      cases objective with
      | minimize =>
        obtain rfl : greatest = high := eq_high_of_le hupper
        rcases priced least hl with ⟨a, rfl⟩ | rfl
        · exact ⟨penalty, a, rfl, ⟨_, he, hi⟩, hl,
            fun y hy => .minimize (of_decide_eq_true (hall _ hy).1), rfl, rfl⟩
        · cases hleast
      | maximize =>
        obtain rfl : least = low := eq_low_of_le hlower
        rcases priced greatest hg with ⟨a, rfl⟩ | rfl
        · exact ⟨penalty, a, rfl, ⟨_, he, hi⟩, hg,
            fun y hy => .maximize (of_decide_eq_true (hall _ hy).2), min_comm _ _, max_comm _ _⟩
        · cases hgreatest
    · have hnumber : ∀ entry ∈ space.table.toList, ∃ a, entry = number a := by
        intro entry he
        refine (priced entry he).exists_number (Bool.eq_false_of_not_eq_true fun hi => ?_)
        exact hinfinite ⟨entry, he, hi⟩
      obtain ⟨a, rfl⟩ := hnumber least hl
      obtain ⟨b, rfl⟩ := hnumber greatest hg
      have ha : a ≤ x := of_decide_eq_true hleast
      have hb : x ≤ b := of_decide_eq_true hgreatest
      exact .inl ⟨min_le_of_left_le ha, le_max_of_le_right hb, fun ⟨_, _, hi, _⟩ => hinfinite hi⟩

/-- Where the extent reaches from the best feasible cost to the substitute, a feasible cost is
undercut if it lies beyond both. -/
theorem undercut_iff {p best : F} (hs : substitute = some (number p))
    (hi : ∃ entry ∈ space.table.toList, isInfinite entry = true)
    (hbest : number best ∈ space.table.toList)
    (hprefers : ∀ y, number y ∈ space.table.toList → objective.Prefers (number best) (number y)) :
    space.Undercut objective substitute x ↔ objective.improves (number p) (number x) = true ∧
      objective.improves (number best) (number x) = true := by
  subst hs
  constructor
  · rintro ⟨q, hq, -, hp, y, hy, hyx⟩
    obtain rfl := number.inj (Option.some.inj hq)
    refine ⟨hp, ?_⟩
    have hbetter := hprefers y hy
    cases hbetter with
    | minimize hle => exact decide_eq_true (hle.trans_lt (of_decide_eq_true hyx))
    | maximize hle => exact decide_eq_true ((of_decide_eq_true hyx : x < y).trans_le hle)
  · rintro ⟨hp, hx⟩
    exact ⟨p, rfl, hi, hp, best, hbest, hx⟩

/-- The lower end of the extent is not above a feasible cost, unless this is undercut and large
costs are good. -/
theorem Spread.low_le_iff (h : space.Spread substitute low high) (priced : space.Priced objective)
    (hx : number x ∈ space.table.toList) :
    low ≤ x ↔ ¬(objective = .maximize ∧ space.Undercut objective substitute x) := by
  rcases h.between_or priced hx with ⟨hlow, -, hnot⟩ | ⟨p, best, hs, hi, hm, hbest, rfl, rfl⟩
  · exact iff_of_true hlow fun ⟨_, hu⟩ => hnot hu
  rw [undercut_iff hs hi hm hbest]
  cases objective with
  | minimize =>
    have hle : best ≤ x := Objective.prefers_minimize.mp (hbest x hx)
    exact iff_of_true (min_le_of_left_le hle) nofun
  | maximize =>
    simp only [Objective.improves_maximize, decide_eq_true_eq, true_and, min_le_iff, not_and_or,
      not_lt]
    exact or_comm

/-- The upper end of the extent is not below a feasible cost, unless this is undercut and small
costs are good. -/
theorem Spread.le_high_iff (h : space.Spread substitute low high) (priced : space.Priced objective)
    (hx : number x ∈ space.table.toList) :
    x ≤ high ↔ ¬(objective = .minimize ∧ space.Undercut objective substitute x) := by
  rcases h.between_or priced hx with ⟨-, hhigh, hnot⟩ | ⟨p, best, hs, hi, hm, hbest, rfl, rfl⟩
  · exact iff_of_true hhigh fun ⟨_, hu⟩ => hnot hu
  rw [undercut_iff hs hi hm hbest]
  cases objective with
  | minimize =>
    simp only [Objective.improves_minimize, decide_eq_true_eq, true_and, le_max_iff, not_and_or,
      not_lt]
    exact or_comm
  | maximize =>
    have hle : x ≤ best := Objective.prefers_maximize.mp (hbest x hx)
    exact iff_of_true (le_max_of_le_left hle) nofun

end CostSpace

end DcopSearch
