import DcopSearch.Proofs.Bandit.Counted
import DcopSearch.Proofs.Bandit.Draws
import DcopSearch.Random.ChaCha
import Mathlib.Analysis.Real.Sqrt
import Mathlib.Analysis.SpecialFunctions.Log.Basic

/-! The radius of confidence over the life of a node.  A call counts a visit just of the value that it
returns, and no call takes a visit back.  With a true logarithm and root the radius of a value becomes
smaller with each of its visits, beginning from infinity, so that it only ever shrinks, and it is within an
error from a certain number of visits on. -/

namespace DcopSearch

open CostArithmetic Exact

/-- What may be called of a node: an operation, or setting leader and next value from outside. -/
inductive Call (K G : Type) where
  | operate (operation : BanditNode.Operation K G)
  | setLeaders (leader next : Option (Nat × K))

section

variable {K G : Type} [CostArithmetic K] [Generator G]

namespace Call

def perform (node : BanditNode K) : Call K G → BanditNode K
  | .operate operation => node.perform operation
  | .setLeaders leader next => { node with leader, next }

/-- The value that the call returns; only a draw returns one. -/
def drawn (node : BanditNode K) : Call K G → Option Nat
  | .operate (.draw method generator) => (node.draw method generator).chosen
  | _ => none

end Call

namespace BanditNode

/-- The node after calls in turn. -/
def called (node : BanditNode K) (calls : List (Call K G)) : BanditNode K :=
  calls.foldl Call.perform node

/-- The values that the calls return. -/
def drawn (node : BanditNode K) : List (Call K G) → List Nat
  | [] => []
  | call :: rest => (call.drawn node).toList ++ (call.perform node).drawn rest

theorem length_arms_draw (node : BanditNode K) (method : SamplingMethod) (generator : G) :
    (node.draw method generator).node.arms.length = node.arms.length := by
  rw [(drawsOnce_draw node method generator).arms]
  cases (node.draw method generator).chosen with
  | none => rfl
  | some index => exact length_arms_countVisit node index

theorem length_arms_call (node : BanditNode K) (call : Call K G) :
    (call.perform node).arms.length = node.arms.length := by
  cases call with
  | operate operation =>
    cases operation with
    | draw method generator => exact length_arms_draw node method generator
    | recordVisit formula => exact length_arms_recordVisit node formula
    | storeCost index report => exact length_arms_storeCost node index report
    | prune index => exact length_arms_prune node index
    | process method => rfl
  | setLeaders leader next => rfl

/-- A call counts a visit of the value that it returns, and no other one. -/
theorem visits_call (node : BanditNode K) (call : Call K G) {i : Nat} (hi : i < node.arms.length) :
    (call.perform node).visits i = node.visits i + if call.drawn node = some i then 1 else 0 := by
  cases call with
  | operate operation =>
    cases operation with
    | draw method generator => exact (drawsOnce_draw node method generator).visits hi
    | recordVisit formula => exact visits_recordVisit node formula i
    | storeCost index report => exact visits_storeCost node index report i
    | prune index => exact visits_prune node index i
    | process method => rfl
  | setLeaders leader next => rfl

theorem length_arms_called (node : BanditNode K) (calls : List (Call K G)) :
    (node.called calls).arms.length = node.arms.length := by
  induction calls generalizing node with
  | nil => rfl
  | cons call rest ih => exact (ih (call.perform node)).trans (length_arms_call node call)

/-- So calls count how often they returned a value. -/
theorem visits_called (node : BanditNode K) (calls : List (Call K G)) {i : Nat}
    (hi : i < node.arms.length) :
    (node.called calls).visits i = node.visits i + (node.drawn calls).count i := by
  induction calls generalizing node with
  | nil => rfl
  | cons call rest ih =>
    have hcount : (call.drawn node).toList.count i = if call.drawn node = some i then 1 else 0 := by
      cases call.drawn node with
      | none => rfl
      | some index => simp [List.count_singleton]
    rw [drawn, List.count_append, hcount, ← Nat.add_assoc, ← visits_call node call hi]
    exact ih (call.perform node) ((length_arms_call node call).symm ▸ hi)

omit [Generator G] in
theorem radius_eq (node : BanditNode K) (index : Nat) (delta : K) :
    node.radius index delta = confidenceRadius (node.visits index) delta := by
  unfold radius visits
  cases node.arms[index]? with
  | none => exact (if_pos rfl).symm
  | some arm => rfl

end BanditNode

end

/-- The logarithm and the root of the reals. -/
noncomputable instance : LnSqrt ℝ where
  ln := Real.log
  sqrt := Real.sqrt

namespace Exact

variable {δ : ℝ}

theorem log_two_div_pos (hpos : 0 < δ) (hlt : δ < 1) : 0 < Real.log (2 / δ) :=
  Real.log_pos ((one_lt_div hpos).mpr (hlt.trans one_lt_two))

theorem confidenceRadius_real (hpos : 0 < δ) (hlt : δ < 1) {visits : Nat} (hvisits : visits ≠ 0) :
    confidenceRadius visits (number δ) = number √(Real.log (2 / δ) / (2 * visits)) := by
  have hlog := log_two_div_pos hpos hlt
  rw [confidenceRadius_eq hpos hvisits]
  exact if_pos (by positivity)

theorem confidenceRadius_ne_undefined (hpos : 0 < δ) (hlt : δ < 1) (visits : Nat) :
    confidenceRadius visits (number δ) ≠ undefined := by
  by_cases hvisits : visits = 0
  · rw [confidenceRadius, if_pos hvisits]
    intro hundefined
    cases hundefined
  · rw [confidenceRadius_real hpos hlt hvisits]
    intro hundefined
    cases hundefined

/-- More visits make a smaller radius. -/
theorem confidenceRadius_lt_iff (hpos : 0 < δ) (hlt : δ < 1) (many few : Nat) :
    CostArithmetic.lt (confidenceRadius many (number δ)) (confidenceRadius few (number δ)) = true
      ↔ few < many := by
  have hlog := log_two_div_pos hpos hlt
  by_cases hmany : many = 0
  · -- an infinite radius is not smaller than any other one
    rw [hmany, confidenceRadius, if_pos rfl]
    refine iff_of_false (fun hless => ?_) (Nat.not_lt_zero few)
    cases hradius : confidenceRadius few (number δ) <;> rw [hradius] at hless <;> cases hless
  · have hmany' : 0 < (many : ℝ) := Nat.cast_pos.mpr (Nat.pos_of_ne_zero hmany)
    rw [confidenceRadius_real hpos hlt hmany]
    by_cases hfew : few = 0
    · rw [hfew]
      exact iff_of_true rfl (Nat.pos_of_ne_zero hmany)
    · have hfew' : 0 < (few : ℝ) := Nat.cast_pos.mpr (Nat.pos_of_ne_zero hfew)
      rw [confidenceRadius_real hpos hlt hfew]
      calc CostArithmetic.lt (number √(Real.log (2 / δ) / (2 * many)))
            (number √(Real.log (2 / δ) / (2 * few))) = true
        _ ↔ √(Real.log (2 / δ) / (2 * many)) < √(Real.log (2 / δ) / (2 * few)) := decide_eq_true_iff
        _ ↔ Real.log (2 / δ) / (2 * many) < Real.log (2 / δ) / (2 * few) :=
          Real.sqrt_lt_sqrt_iff (by positivity)
        _ ↔ (2 * few : ℝ) < 2 * many := div_lt_div_iff_of_pos_left hlog (by positivity) (by positivity)
        _ ↔ few < many := by rw [mul_lt_mul_iff_right₀ two_pos, Nat.cast_lt]

/-- How many visits it takes to bring the radius within an error. -/
theorem confidenceRadius_le_iff (hpos : 0 < δ) (hlt : δ < 1) (visits : Nat) {ε : ℝ} (hε : 0 < ε) :
    CostArithmetic.le (confidenceRadius visits (number δ)) (number ε) = true
      ↔ Real.log (2 / δ) / (2 * ε ^ 2) ≤ visits := by
  have hlog := log_two_div_pos hpos hlt
  by_cases hvisits : visits = 0
  · have hneeded : 0 < Real.log (2 / δ) / (2 * ε ^ 2) := by positivity
    rw [confidenceRadius, if_pos hvisits, hvisits]
    exact iff_of_false (fun hle => by cases hle) (by simpa using hneeded)
  · have hvisits' : 0 < (visits : ℝ) := Nat.cast_pos.mpr (Nat.pos_of_ne_zero hvisits)
    have hcomm : ε ^ 2 * (2 * visits) = visits * (2 * ε ^ 2) := by ring
    rw [confidenceRadius_real hpos hlt hvisits]
    calc CostArithmetic.le (number √(Real.log (2 / δ) / (2 * visits))) (number ε) = true
      _ ↔ √(Real.log (2 / δ) / (2 * visits)) ≤ ε := decide_eq_true_iff
      _ ↔ Real.log (2 / δ) / (2 * visits) ≤ ε ^ 2 := Real.sqrt_le_left hε.le
      _ ↔ Real.log (2 / δ) ≤ ε ^ 2 * (2 * visits) := div_le_iff₀ (by positivity)
      _ ↔ Real.log (2 / δ) ≤ visits * (2 * ε ^ 2) := by rw [hcomm]
      _ ↔ Real.log (2 / δ) / (2 * ε ^ 2) ≤ visits := (div_le_iff₀ (by positivity)).symm

end Exact

namespace BanditNode

variable {G : Type} [Generator G] {δ : ℝ}

/-- Over any calls of any node no radius grows, and those become smaller whose values were returned; of a
single call this is the value that it returns.  A radius is within an error when the visits of the value
are as many as the error asks for. -/
theorem radii_shrink (hpos : 0 < δ) (hlt : δ < 1) (node : BanditNode (Exact ℝ))
    (calls : List (Call (Exact ℝ) G)) {i : Nat} (hi : i < node.arms.length) :
    let later := node.called calls
    CostArithmetic.le (later.radius i (number δ)) (node.radius i (number δ)) = true ∧
      (CostArithmetic.lt (later.radius i (number δ)) (node.radius i (number δ)) = true
        ↔ i ∈ node.drawn calls) ∧
      (∀ call : Call (Exact ℝ) G,
        CostArithmetic.lt ((call.perform later).radius i (number δ)) (later.radius i (number δ)) = true
          ↔ call.drawn later = some i) ∧
      ∀ ε : ℝ, 0 < ε →
        (CostArithmetic.le (later.radius i (number δ)) (number ε) = true
          ↔ Real.log (2 / δ) / (2 * ε ^ 2) ≤ later.visits i) := by
  intro later
  have hvisits : later.visits i = node.visits i + (node.drawn calls).count i :=
    visits_called node calls hi
  have hilater : i < later.arms.length := (length_arms_called node calls).symm ▸ hi
  simp only [radius_eq]
  refine ⟨?_, ?_, fun call => ?_, fun ε hε => confidenceRadius_le_iff hpos hlt _ hε⟩
  · rw [le_iff_not_lt (confidenceRadius_ne_undefined hpos hlt _)
      (confidenceRadius_ne_undefined hpos hlt _), confidenceRadius_lt_iff hpos hlt]
    omega
  · rw [confidenceRadius_lt_iff hpos hlt, ← List.count_pos_iff]
    omega
  · rw [confidenceRadius_lt_iff hpos hlt, visits_call later call hilater]
    by_cases hdrawn : call.drawn later = some i
    · simp [hdrawn]
    · simp [hdrawn]

/-- Two values are drawn, so that their radii are no longer infinite.  When the one with the lower index
is drawn once more, its radius becomes smaller again, and that of the other one stays. -/
theorem radii_shrink_drawn :
    let node : BanditNode (Exact ℝ) := ofCosts [number 0, number 0] .minimize true
    let draw (seed : UInt64) : Call (Exact ℝ) ChaCha.Stream :=
      .operate (.draw .random (Generator.ofSeed seed))
    let calls := [draw 1, .setLeaders none none, draw 2]
    let later := node.called calls
    let last := (draw 3).perform later
    node.arms.length = 2 ∧ node.drawn calls = [1, 0] ∧ (draw 3).drawn later = some 0 ∧
      (∀ i < 2, CostArithmetic.lt (later.radius i (number (1 / 2)))
        (node.radius i (number (1 / 2))) = true) ∧
      CostArithmetic.lt (last.radius 0 (number (1 / 2))) (later.radius 0 (number (1 / 2))) = true ∧
      ¬CostArithmetic.lt (last.radius 1 (number (1 / 2))) (later.radius 1 (number (1 / 2))) = true := by
  intro node draw calls later last
  have hlength : node.arms.length = 2 := rfl
  have hdrawn : node.drawn calls = [1, 0] := by decide +kernel
  have hagain : (draw 3).drawn later = some 0 := by decide +kernel
  have hless (i : Nat) (hi : i < 2) : CostArithmetic.lt (later.radius i (number (1 / 2)))
      (node.radius i (number (1 / 2))) = true := by
    obtain ⟨-, hless, -⟩ := radii_shrink one_half_pos one_half_lt_one node calls (hlength ▸ hi)
    have hmem : i ∈ [1, 0] := by
      obtain rfl | rfl : i = 0 ∨ i = 1 := by omega
      · decide
      · decide
    exact hless.mpr (hdrawn ▸ hmem)
  have hcall (i : Nat) (hi : i < 2) : CostArithmetic.lt (last.radius i (number (1 / 2)))
      (later.radius i (number (1 / 2))) = true ↔ some 0 = some i := by
    obtain ⟨-, -, hcall, -⟩ := radii_shrink one_half_pos one_half_lt_one node calls (hlength ▸ hi)
    exact hagain ▸ hcall (draw 3)
  refine ⟨hlength, hdrawn, hagain, hless, (hcall 0 Nat.two_pos).mpr rfl, fun hone => ?_⟩
  have := (hcall 1 Nat.one_lt_two).mp hone
  simp at this

end BanditNode

end DcopSearch
