import DcopSearch.Proofs.Cost.Preferred
import DcopSearch.Bandit.Node
import Mathlib.Data.List.ReduceOption
import Mathlib.Tactic.Linarith
import Mathlib.Tactic.Ring

/-! The statistics of one value.  What is known of a value is determined by the reports for this value
alone: their number, their mean, and the best total that they came to with the value's own cost.  Once
there is one, all that is looked at in the value is finite. -/

namespace DcopSearch

open CostArithmetic Exact

section

variable {K : Type} [CostArithmetic K]

namespace Arm

/-- The arm after a visit of the node, which counted `more` visits of the value. -/
def visited (arm : Arm K) (formula : BoundFormula) (frequency more : Nat) : Arm K :=
  { arm with
    visits := arm.visits + more
    bound := formula.value (arm.visits + more) frequency }

/-- The arm after a report for the value, or after the value has been given up. -/
def credited (arm : Arm K) (objective : Objective) (report : Option K) : Arm K :=
  if arm.isFeasible then
    match report with
    | some cost => arm.store objective cost
    | none => { arm with localCost := objective.worst }
  else arm

end Arm

end

variable {F : Type}

theorem length_reduceOption {reports : List (Option F)} (h : none ∉ reports) :
    reports.reduceOption.length = reports.length := by
  refine List.reduceOption_length_eq_iff.mpr fun report hm => ?_
  cases report with
  | none => exact absurd hm h
  | some x => rfl

variable [Field F] [LinearOrder F] [LnSqrt F]

/-- The bound of a value that was visited is finite. -/
theorem BoundFormula.isFinite_value [IsStrictOrderedRing F] (hln : ∀ x : F, 1 ≤ x → 0 ≤ LnSqrt.ln x)
    (formula : BoundFormula) {visits frequency : Nat} (hvisits : visits ≠ 0) (hfrequency : frequency ≠ 0) :
    isFinite (formula.value visits frequency : Exact F) = true := by
  have hone : (1 : F) ≤ frequency := by exact_mod_cast Nat.one_le_iff_ne_zero.mpr hfrequency
  have htwice : (1 : F) ≤ 2 * frequency := by linarith
  have hlog : CostArithmetic.ln (ofNat 2 * ofNat frequency : Exact F)
      = number (LnSqrt.ln (2 * (frequency : F))) := by
    show Exact.ln (number (((2 : Nat) : F) * frequency)) = _
    rw [Nat.cast_ofNat, Exact.ln, if_pos (by linarith)]
  have hpos : (0 : F) < visits := Nat.cast_pos.mpr (Nat.pos_of_ne_zero hvisits)
  cases formula with
  | log =>
    rw [BoundFormula.value, if_neg hvisits, hlog]
    exact isFinite_sqrt_div (hln _ htwice) hpos
  | logSize size =>
    rw [BoundFormula.value, if_neg hvisits, hlog]
    exact isFinite_sqrt_div (mul_nonneg (Nat.cast_nonneg (size + 1)) (hln _ htwice)) hpos

namespace Arm

/-- What is known of a value, in view of the reports for it, the latest first.  Of an infeasible one no
statistics are kept. -/
structure Accounts (objective : Objective) (cost : Exact F) (reports : List (Option F))
    (arm : Arm (Exact F)) : Prop where
  visits : arm.visits = reports.length
  localCost : none ∉ reports → arm.localCost = cost
  pruned : none ∈ reports → arm.isFeasible = false
  average : arm.isFeasible = true →
    arm.average = number (reports.reduceOption.sum / reports.reduceOption.length)
  best : arm.isFeasible = true →
    arm.best = objective.best (reports.reduceOption.map fun x => number x + arm.localCost)
  bound : arm.visits ≠ 0 → isFinite arm.bound = true

/-- All that is looked at in a value is finite. -/
structure Measured (arm : Arm (Exact F)) : Prop where
  mean : isFinite arm.mean = true
  best : isFinite arm.best = true
  bound : isFinite arm.bound = true
  radius : ∀ delta : F, 0 < delta → delta ≤ 1 → isFinite (arm.radius (number delta)) = true

variable {objective : Objective} {cost : Exact F} {reports : List (Option F)} {arm : Arm (Exact F)}

theorem accounts_unsampled (objective : Objective) (cost : Exact F) :
    (unsampled objective cost).Accounts objective cost [] where
  visits := rfl
  localCost _ := rfl
  pruned := by simp
  average _ := by
    show (ofNat 0 : Exact F) = _
    simp [← zero_eq]
    rfl
  best _ := rfl
  bound h := absurd rfl h

/-- The cost of a feasible value is a number. -/
theorem Accounts.exists_number (h : arm.Accounts objective cost reports) (hcost : cost ≠ undefined)
    (hf : arm.isFeasible = true) : none ∉ reports ∧ ∃ c, arm.localCost = number c := by
  have hnone : none ∉ reports := by
    intro hm
    rw [h.pruned hm] at hf
    cases hf
  refine ⟨hnone, ?_⟩
  rw [isFeasible, h.localCost hnone, Bool.not_eq_true'] at hf
  rw [h.localCost hnone]
  cases cost with
  | number c => exact ⟨c, rfl⟩
  | high => cases hf
  | low => cases hf
  | undefined => exact absurd rfl hcost

/-- A visit of the node in which another value was drawn. -/
theorem Accounts.visited [IsStrictOrderedRing F] (hln : ∀ x : F, 1 ≤ x → 0 ≤ LnSqrt.ln x)
    (h : arm.Accounts objective cost reports) (formula : BoundFormula) {frequency : Nat}
    (hfrequency : frequency ≠ 0) :
    (arm.visited formula frequency 0).Accounts objective cost reports :=
  ⟨h.visits, h.localCost, h.pruned, h.average, h.best,
    fun hvisits => formula.isFinite_value hln hvisits hfrequency⟩

/-- The average moves to the mean of one report more. -/
theorem average_store [IsStrictOrderedRing F] (arm : Arm (Exact F)) {reports : List F}
    (h : arm.average = number (reports.sum / reports.length)) (hvisits : arm.visits = reports.length + 1)
    (objective : Objective) (x : F) : (arm.store objective (number x)).average
      = number ((x :: reports).sum / (x :: reports).length) := by
  have htotal : reports.sum / reports.length * reports.length = reports.sum := by
    cases reports with
    | nil => simp
    | cons first rest => exact div_mul_cancel₀ _ (Nat.cast_ne_zero.mpr (by simp))
  have hmax : max arm.visits 1 = reports.length + 1 := by omega
  have hne : ((reports.length + 1 : Nat) : F) ≠ 0 := Nat.cast_ne_zero.mpr (by omega)
  have hmove : ((number x - arm.average) / ofNat (max arm.visits 1) : Exact F)
      = number ((x + -(reports.sum / reports.length)) / (reports.length + 1 : Nat)) := by
    rw [h, hmax]
    exact if_neg hne
  show arm.average + (number x - arm.average) / ofNat (max arm.visits 1) = _
  rw [hmove, h, number_add, List.sum_cons, List.length_cons]
  generalize reports.sum / reports.length = mean at htotal ⊢
  congr 1
  rw [← htotal, eq_div_iff hne, add_mul, div_mul_cancel₀ _ hne, Nat.cast_add, Nat.cast_one]
  ring

/-- The best total is the best of one total more. -/
theorem best_store (arm : Arm (Exact F)) {reports : List F} {c : F} (hc : arm.localCost = number c)
    (h : arm.best = objective.best (reports.map fun x => number x + arm.localCost)) (x : F) :
    (arm.store objective (number x)).best
      = objective.best ((x :: reports).map fun x => number x + arm.localCost) := by
  have hnumbers : ∀ other ∈ reports.map fun x => number x + arm.localCost, ∃ a, other = number a := by
    simp [hc]
  rw [List.map_cons, Objective.best_cons ⟨x + c, by rw [hc, number_add]⟩ hnumbers, ← h]
  rfl

/-- A round of the value: its visit was counted, and the report for it is credited. -/
theorem Accounts.credited [IsStrictOrderedRing F] (hln : ∀ x : F, 1 ≤ x → 0 ≤ LnSqrt.ln x)
    (h : arm.Accounts objective cost reports) (hcost : cost ≠ undefined) (formula : BoundFormula)
    {frequency : Nat} (hfrequency : frequency ≠ 0) (report : Option F) :
    ((arm.visited formula frequency 1).credited objective (report.map number)).Accounts objective cost
      (report :: reports) := by
  have hvisits : arm.visits + 1 = (report :: reports).length := by rw [h.visits, List.length_cons]
  have hbound : isFinite (formula.value (arm.visits + 1) frequency : Exact F) = true :=
    formula.isFinite_value hln (by omega) hfrequency
  have hfeasible : (arm.visited formula frequency 1).isFeasible = arm.isFeasible := rfl
  cases hf : arm.isFeasible with
  | false =>
    unfold Arm.credited
    rw [hfeasible, if_neg (by simp [hf])]
    exact ⟨hvisits, fun hnone => h.localCost fun hm => hnone (List.mem_cons_of_mem _ hm), fun _ => hf,
      fun htrue => absurd htrue (by simp [hfeasible, hf]),
      fun htrue => absurd htrue (by simp [hfeasible, hf]), fun _ => hbound⟩
  | true =>
    obtain ⟨hnone, c, hc⟩ := h.exists_number hcost hf
    unfold Arm.credited
    rw [hfeasible, if_pos hf]
    cases report with
    | none =>
      have hexcluded : isFeasible { arm.visited formula frequency 1 with
          localCost := (objective.worst : Exact F) } = false := by
        rw [isFeasible, isInfinite_worst]
        rfl
      exact ⟨hvisits, fun hm => absurd List.mem_cons_self hm, fun _ => hexcluded,
        fun htrue => absurd htrue (by simp [hexcluded]),
        fun htrue => absurd htrue (by simp [hexcluded]), fun _ => hbound⟩
    | some x =>
      have hlength := length_reduceOption hnone
      have haverage := average_store (arm.visited formula frequency 1) (h.average hf)
        (by rw [hlength, ← h.visits]; rfl) objective x
      have hbest := best_store (arm.visited formula frequency 1) hc (h.best hf) x
      exact ⟨hvisits, fun _ => h.localCost hnone, fun hm => absurd hm (by simp [hnone]),
        fun _ => haverage, fun _ => hbest, fun _ => hbound⟩

/-- A feasible value that was drawn before has had a report, and all that is looked at in it is finite. -/
theorem Accounts.measured [IsStrictOrderedRing F] (hln : ∀ x : F, 1 ≤ x → 0 ≤ LnSqrt.ln x)
    (h : arm.Accounts objective cost reports) (hcost : cost ≠ undefined) (hsome : reports ≠ [])
    (hf : arm.isFeasible = true) : reports.reduceOption ≠ [] ∧ arm.Measured := by
  obtain ⟨hnone, c, hc⟩ := h.exists_number hcost hf
  have hvisits : arm.visits ≠ 0 := by simpa [h.visits] using hsome
  have hstored : reports.reduceOption ≠ [] := by
    intro hnil
    have hlength := length_reduceOption hnone
    rw [hnil] at hlength
    exact hsome (List.length_eq_zero_iff.mp hlength.symm)
  have hnumbers : ∀ total ∈ reports.reduceOption.map fun x => number x + arm.localCost,
      ∃ a, total = number a := by
    simp [hc]
  obtain ⟨best, hbest⟩ := hnumbers _ (objective.best_prefers (by simpa using hstored) hnumbers).1
  exact ⟨hstored, by rw [Arm.mean, h.average hf, hc, number_add, isFinite_number],
    by rw [h.best hf, hbest, isFinite_number], h.bound hvisits,
    fun delta hpos hle => isFinite_confidenceRadius hln hvisits hpos hle⟩

end Arm

end DcopSearch
