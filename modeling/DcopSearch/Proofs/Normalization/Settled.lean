import DcopSearch.Proofs.Constraint.WellFormed
import DcopSearch.Proofs.Cost.Preferred
import DcopSearch.Proofs.Normalization.Extents

/-! Totals before and after normalization.  An infinite cost is settled by the substitute, if there
is one.  Where the settled costs of spaces are numbers, the total of the rescaled spaces is the
total of the settled ones, less what the spaces are moved by and divided; where one is infinite, so
is its rescaled cost.  So the ranking of the values that meet no infinite cost is the same. -/

namespace DcopSearch

open CostArithmetic Exact

section

variable {K : Type} [CostArithmetic K]

/-- A cost, or the substitute for an infinite one. -/
def settle (substitute : Option K) (entry : K) : K :=
  if isInfinite entry then substitute.getD entry else entry

namespace CostSpace

/-- The space with each infinite cost replaced by the substitute. -/
def settled (substitute : Option K) (space : CostSpace K) : CostSpace K :=
  { space with table := space.table.map (settle substitute) }

/-- A look-up in a settled space finds the settled entry. -/
theorem lookup?_settled (substitute : Option K) (space : CostSpace K)
    (value? : String → Option Value) : (space.settled substitute).lookup? value?
      = (space.lookup? value?).map (settle substitute) := by
  cases h : position? value? space.axes 0 with
  | none => simp [lookup?, settled, h]
  | some i => simp [lookup?, settled, h]

/-- The values meet an infinite cost in one of the spaces. -/
def Meets (spaces : List (CostSpace K)) (value? : String → Option Value) : Prop :=
  ∃ space ∈ spaces, ∃ entry, space.lookup? value? = some entry ∧ isInfinite entry = true

/-- The total over spaces at the values; there is none unless every space has an entry. -/
def totalAt? (spaces : List (CostSpace K)) (value? : String → Option Value) : Option K :=
  if spaces.all fun space => (space.lookup? value?).isSome then
    some (total (spaces.filterMap (·.lookup? value?)))
  else none

/-- Where spaces are changed entry by entry, an infinite cost is met in a changed entry. -/
theorem meets_map {spaces : List (CostSpace K)} {change : CostSpace K → CostSpace K}
    {value? : String → Option Value} {entry : CostSpace K → K → K}
    (h : ∀ space, (change space).lookup? value? = (space.lookup? value?).map (entry space)) :
    Meets (spaces.map change) value? ↔ ∃ space ∈ spaces, ∃ old, space.lookup? value? = some old ∧
      isInfinite (entry space old) = true := by
  simp only [Meets, List.mem_map, exists_exists_and_eq_and, h, Option.map_eq_some_iff]

/-- With a substitute that is not infinite no infinite cost is left. -/
theorem not_meets_settled {penalty : K} (h : isInfinite penalty = false)
    {spaces : List (CostSpace K)} {value? : String → Option Value} :
    ¬Meets (spaces.map (settled (some penalty))) value? := by
  rw [meets_map fun space => lookup?_settled (some penalty) space value?]
  rintro ⟨space, -, entry, -, hinfinite⟩
  unfold settle at hinfinite
  split at hinfinite
  · simp [h] at hinfinite
  next hfinite => exact hfinite hinfinite

/-- Without a substitute nothing is settled. -/
theorem map_settled_none (spaces : List (CostSpace K)) : spaces.map (settled none) = spaces := by
  have hentry : settle (none : Option K) = id := by
    funext entry
    simp [settle]
  refine (List.map_congr_left fun space _ => ?_).trans (List.map_id spaces)
  rw [settled, hentry, Array.map_id]
  rfl

theorem Meets.perm {spaces spaces' : List (CostSpace K)} (hp : spaces.Perm spaces')
    {value? : String → Option Value} : Meets spaces value? ↔ Meets spaces' value? :=
  exists_congr fun _ => and_congr_left' hp.mem_iff

end CostSpace

end

variable {F : Type} [Field F] [LinearOrder F] [LnSqrt F]

namespace Exact

omit [LinearOrder F] [LnSqrt F] in
/-- A sum that is a number has numbers for its terms. -/
theorem exists_number_of_sum {costs : List (Exact F)} {a : F} (h : costs.sum = number a) :
    ∀ cost ∈ costs, ∃ b, cost = number b := by
  induction costs generalizing a with
  | nil => simp
  | cons cost rest ih =>
    rw [List.sum_cons] at h
    have hboth : (∃ b, cost = number b) ∧ ∃ c, rest.sum = number c := by
      cases cost <;> cases hsum : rest.sum <;> rw [hsum] at h <;>
        first | exact ⟨⟨_, rfl⟩, _, rfl⟩ | cases h
    obtain ⟨hcost, c, hc⟩ := hboth
    exact List.forall_mem_cons.mpr ⟨hcost, ih hc⟩

/-- A cost that is neither undefined nor infinite is a number. -/
theorem exists_number_of_defined {x : Exact F} (hx : x ≠ undefined) (h : isInfinite x = false) :
    ∃ a, x = number a := by
  cases x with
  | number a => exact ⟨a, rfl⟩
  | undefined => exact absurd rfl hx
  | high => cases h
  | low => cases h

end Exact

namespace CostSpace

variable {spaces spaces' : List (CostSpace (Exact F))} {value? : String → Option Value}

theorem totalAt?_eq (h : ∀ space ∈ spaces, ∃ entry, space.lookup? value? = some entry) :
    totalAt? spaces value? = some (spaces.filterMap (·.lookup? value?)).sum := by
  rw [totalAt?, if_pos, total_eq_sum]
  rw [List.all_eq_true]
  intro space hs
  exact Option.isSome_iff_exists.mpr (h space hs)

theorem totalAt?_perm (h : spaces.Perm spaces') (value? : String → Option Value) :
    totalAt? spaces value? = totalAt? spaces' value? := by
  rw [totalAt?, totalAt?, h.all_eq, total_eq_sum, total_eq_sum, (h.filterMap _).sum_eq]

/-- Values with a number for their total meet no infinite cost. -/
theorem not_meets_of_total {a : F} (h : totalAt? spaces value? = some (number a)) :
    ¬Meets spaces value? := by
  rintro ⟨space, hs, entry, he, hinfinite⟩
  unfold totalAt? at h
  split at h
  · rw [total_eq_sum] at h
    obtain ⟨b, rfl⟩ := exists_number_of_sum (Option.some.inj h) entry
      (List.mem_filterMap.mpr ⟨space, hs, he⟩)
    cases hinfinite
  · cases h

section Rescaled

variable (low : CostSpace (Exact F) → F) {divisor : F} {substitute : Option (Exact F)}
  (hd : divisor ≠ 0) (hs : ∀ penalty, substitute = some penalty → ∃ a, penalty = number a)
include hd hs

omit hs in
/-- A number is moved and divided. -/
theorem rescaleEntry_number (shift x : F) (substitute : Option (Exact F)) :
    rescaleEntry (number shift) (number divisor) substitute (number x)
      = number ((x - shift) / divisor) := by
  rw [sub_eq_add_neg x]
  exact if_neg hd

/-- A settled cost that is a number is moved and divided; one that is infinite stays. -/
theorem rescaleEntry_settle (shift : F) {entry : Exact F} (he : entry ≠ undefined) :
    (∃ a, settle substitute entry = number a ∧
      rescaleEntry (number shift) (number divisor) substitute entry
        = number ((a - shift) / divisor)) ∨
    (isInfinite (settle substitute entry) = true ∧
      rescaleEntry (number shift) (number divisor) substitute entry = settle substitute entry) := by
  cases hi : isInfinite entry with
  | false =>
    obtain ⟨a, rfl⟩ := exists_number_of_defined he hi
    exact .inl ⟨a, rfl, rescaleEntry_number hd shift a substitute⟩
  | true =>
    unfold settle rescaleEntry
    rw [hi, if_pos rfl, if_pos rfl]
    cases hsub : substitute with
    | none => exact .inr ⟨hi, rfl⟩
    | some penalty =>
      obtain ⟨p, rfl⟩ := hs penalty hsub
      exact .inl ⟨p, rfl, rescaleEntry_number hd shift p none⟩

theorem isInfinite_rescaleEntry (shift : F) {entry : Exact F} (he : entry ≠ undefined) :
    isInfinite (rescaleEntry (number shift) (number divisor) substitute entry)
      = isInfinite (settle substitute entry) := by
  rcases rescaleEntry_settle hd hs shift he with ⟨a, ha, hrescaled⟩ | ⟨-, hkept⟩
  · rw [ha, hrescaled]
    rfl
  · rw [hkept]

variable (hdefined : ∀ space ∈ spaces, space.Defined)
include hdefined

/-- Rescaled spaces meet an infinite cost where the settled ones do. -/
theorem meets_rescaled : Meets (spaces.map fun space =>
      space.rescale (number (low space)) (number divisor) substitute) value?
    ↔ Meets (spaces.map (settled substitute)) value? := by
  rw [meets_map fun space => lookup?_rescale space _ _ _ value?,
    meets_map fun space => lookup?_settled substitute space value?]
  refine exists_congr fun space => and_congr_right fun hspace => ?_
  refine exists_congr fun entry => and_congr_right fun he => ?_
  rw [isInfinite_rescaleEntry hd hs _ fun h =>
    hdefined space hspace (h ▸ mem_table_of_lookup he)]

variable (hentries : ∀ space ∈ spaces, ∃ entry, space.lookup? value? = some entry)
  (hfeasible : ¬Meets (spaces.map (settled substitute)) value?)
include hentries hfeasible

/-- Where no infinite cost is met, the sum of the rescaled costs is the one of the settled costs,
moved and divided. -/
theorem exists_sum_rescaled :
    ∃ cost, ((spaces.map (settled substitute)).filterMap (·.lookup? value?)).sum = number cost ∧
      ((spaces.map fun space => space.rescale (number (low space)) (number divisor)
        substitute).filterMap (·.lookup? value?)).sum
        = number ((cost - (spaces.map low).sum) / divisor) := by
  induction spaces with
  | nil => exact ⟨0, rfl, by simp only [List.map_nil, List.sum_nil, sub_zero, zero_div]; rfl⟩
  | cons space rest ih =>
    obtain ⟨entry, he⟩ := hentries space (by simp)
    have hdef : entry ≠ undefined := by
      rintro rfl
      exact hdefined space (by simp) (mem_table_of_lookup he)
    obtain ⟨cost, hcost, hrescaled⟩ := ih (fun other ho => hdefined other (by simp [ho]))
      (fun other ho => hentries other (by simp [ho]))
      fun ⟨other, ho, hmet⟩ => hfeasible ⟨other, List.mem_cons_of_mem _ ho, hmet⟩
    have hsettled : (space.settled substitute).lookup? value? = some (settle substitute entry) := by
      rw [lookup?_settled, he, Option.map_some]
    obtain ⟨a, ha, hentry⟩ := (rescaleEntry_settle hd hs (low space) hdef).resolve_right
      fun h => hfeasible ⟨_, List.mem_cons_self, _, hsettled, h.1⟩
    have hmoved : (space.rescale (number (low space)) (number divisor) substitute).lookup? value?
        = some (number ((a - low space) / divisor)) := by
      rw [lookup?_rescale, he, Option.map_some, hentry]
    refine ⟨a + cost, ?_, ?_⟩
    · simp only [List.map_cons, List.filterMap_cons, hsettled, List.sum_cons, hcost, ha, number_add]
    · simp only [List.map_cons, List.filterMap_cons, hmoved, List.sum_cons, hrescaled, number_add]
      rw [← add_div, sub_add_sub_comm]

/-- Where no infinite cost is met, the total of the rescaled spaces is the one of the settled
spaces, moved and divided. -/
theorem exists_total_rescaled :
    ∃ cost, totalAt? (spaces.map (settled substitute)) value? = some (number cost) ∧
      totalAt? (spaces.map fun space => space.rescale (number (low space)) (number divisor)
        substitute) value? = some (number ((cost - (spaces.map low).sum) / divisor)) := by
  obtain ⟨cost, hcost, hrescaled⟩ := exists_sum_rescaled low hd hs hdefined hentries hfeasible
  refine ⟨cost, ?_, ?_⟩
  · rw [totalAt?_eq, hcost]
    refine List.forall_mem_map.mpr fun space hspace => ?_
    obtain ⟨entry, he⟩ := hentries space hspace
    exact ⟨_, by rw [lookup?_settled, he, Option.map_some]⟩
  · rw [totalAt?_eq, hrescaled]
    refine List.forall_mem_map.mpr fun space hspace => ?_
    obtain ⟨entry, he⟩ := hentries space hspace
    exact ⟨_, by rw [lookup?_rescale, he, Option.map_some]⟩

end Rescaled

end CostSpace

namespace Problem

/-- Of all values for the names that have a number for their total the given ones have the best. -/
def Best (problem : Problem (Exact F)) (names : Set String) (spaces : List (CostSpace (Exact F)))
    (value? : String → Option Value) : Prop :=
  problem.Assigns names value? ∧ ∃ cost, CostSpace.totalAt? spaces value? = some (number cost) ∧
    ∀ other? x, problem.Assigns names other? → CostSpace.totalAt? spaces other? = some (number x) →
      problem.objective.Prefers (number cost) (number x)

/-- Totals that are moved and divided by a positive number have the same best values. -/
theorem best_rescaled [IsStrictOrderedRing F] {problem : Problem (Exact F)} {names : Set String}
    {spaces rescaled : List (CostSpace (Exact F))} {divisor : F} (shift : F) (hd : 0 < divisor)
    (htotals : ∀ value?, problem.Assigns names value? →
      (∃ cost, CostSpace.totalAt? spaces value? = some (number cost) ∧
        CostSpace.totalAt? rescaled value? = some (number ((cost - shift) / divisor))) ∨
      CostSpace.Meets spaces value? ∧ CostSpace.Meets rescaled value?)
    (value? : String → Option Value) :
    problem.Best names rescaled value? ↔ problem.Best names spaces value? := by
  have hnumber : ∀ {value? : String → Option Value}, problem.Assigns names value? →
      ∀ {x : F}, CostSpace.totalAt? spaces value? = some (number x) →
        CostSpace.totalAt? rescaled value? = some (number ((x - shift) / divisor)) := by
    intro value? hv x hx
    rcases htotals value? hv with ⟨cost, hcost, hrescaled⟩ | ⟨hmeets, -⟩
    · obtain rfl := number.inj (Option.some.inj (hx.symm.trans hcost))
      exact hrescaled
    · exact absurd hmeets (CostSpace.not_meets_of_total hx)
  have hback : ∀ {value? : String → Option Value}, problem.Assigns names value? →
      ∀ {y : F}, CostSpace.totalAt? rescaled value? = some (number y) →
        ∃ x, CostSpace.totalAt? spaces value? = some (number x) ∧ y = (x - shift) / divisor := by
    intro value? hv y hy
    rcases htotals value? hv with ⟨cost, hcost, hrescaled⟩ | ⟨-, hmeets⟩
    · exact ⟨cost, hcost, number.inj (Option.some.inj (hy.symm.trans hrescaled))⟩
    · exact absurd hmeets (CostSpace.not_meets_of_total hy)
  refine and_congr_right fun hv => ⟨?_, ?_⟩
  · rintro ⟨y, hy, hbest⟩
    obtain ⟨x, hx, rfl⟩ := hback hv hy
    exact ⟨x, hx, fun other? z ho hz =>
      (Objective.Prefers.rescaled_iff hd).mp (hbest other? _ ho (hnumber ho hz))⟩
  · rintro ⟨x, hx, hbest⟩
    refine ⟨_, hnumber hv hx, fun other? z ho hz => ?_⟩
    obtain ⟨y, hy, rfl⟩ := hback ho hz
    exact (Objective.Prefers.rescaled_iff hd).mpr (hbest other? y ho hy)

end Problem

end DcopSearch
