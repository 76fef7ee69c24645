import DcopSearch.Random.Seed
import Mathlib.Algebra.Group.Units.Equiv
import Mathlib.Data.UInt
import Mathlib.Logic.Function.Iterate
import Mathlib.RingTheory.Nilpotent.Basic

/-! Mixing loses nothing of a run's seed.  A fold is undone by folding on: twice as many folds shift
twice as far, so that after `64` of them every bit that was joined is shifted out again.  A multiplication
by an odd number is undone by another one, since odd numbers are units modulo `2^64`.  So scrambling only
rearranges the words, and with an agent's name joined to it a seed is still told apart from every other. -/

namespace DcopSearch.Seed

open Function
open scoped UInt64.CommRing

/-! ### Folds -/

theorem toNat_fold (shift word : UInt64) :
    (fold shift word).toNat = word.toNat ^^^ word.toNat >>> (shift.toNat % 64) := by
  rw [fold, UInt64.toNat_xor, UInt64.toNat_shiftRight]

/-- `2^k` folds are one fold by `2^k` times the shift.  By induction on `k`: a fold of a fold joins four
words, and the two in the middle are the same. -/
theorem toNat_iterate_fold (shift : UInt64) (k : ℕ) (word : UInt64) :
    ((fold shift)^[2 ^ k] word).toNat =
      word.toNat ^^^ word.toNat >>> (2 ^ k * (shift.toNat % 64)) := by
  induction k generalizing word with
  | zero => rw [pow_zero, iterate_one, one_mul, toNat_fold]
  | succ k ih =>
    rw [pow_succ, mul_two, iterate_add_apply, ih, ih, add_mul]
    generalize word.toNat = n
    generalize 2 ^ k * (shift.toNat % 64) = far
    calc (n ^^^ n >>> far) ^^^ (n ^^^ n >>> far) >>> far
        = n ^^^ (n >>> far ^^^ n >>> far) ^^^ n >>> far >>> far := by
          rw [Nat.shiftRight_xor_distrib, ← Nat.xor_assoc, Nat.xor_assoc n]
      _ = n ^^^ n >>> (far + far) := by
          rw [Nat.xor_self, Nat.xor_zero, Nat.shiftRight_add]

/-- A fold by any shift at all is back at the word after `64` turns. -/
theorem iterate_fold_64 {shift : UInt64} (h : shift % 64 ≠ 0) (word : UInt64) :
    (fold shift)^[64] word = word := by
  have hpos : 0 < shift.toNat % 64 := by
    apply Nat.pos_of_ne_zero
    intro hzero
    apply h
    apply UInt64.toNat_inj.mp
    rw [UInt64.toNat_mod]
    exact hzero
  have hout : word.toNat >>> (2 ^ 6 * (shift.toNat % 64)) = 0 := by
    rw [Nat.shiftRight_eq_div_pow]
    apply Nat.div_eq_of_lt
    calc word.toNat < 2 ^ 64 := word.toNat_lt
      _ ≤ 2 ^ (2 ^ 6 * (shift.toNat % 64)) := Nat.pow_le_pow_right (by omega) (by omega)
  apply UInt64.toNat_inj.mp
  rw [show 64 = 2 ^ 6 by rfl, toNat_iterate_fold, hout, Nat.xor_zero]

/-- A fold by no shift makes every word zero; a fold by any other one loses nothing. -/
theorem fold_bijective_iff (shift : UInt64) : Bijective (fold shift) ↔ shift % 64 ≠ 0 := by
  constructor
  · intro hfold hzero
    have hnone (word : UInt64) : fold shift word = 0 := by
      apply UInt64.toNat_inj.mp
      have hshift : shift.toNat % 64 = 0 := congrArg UInt64.toNat hzero
      rw [toNat_fold, hshift, Nat.shiftRight_zero, Nat.xor_self, UInt64.toNat_zero]
    have hone : (0 : UInt64) = 1 := hfold.injective ((hnone 0).trans (hnone 1).symm)
    exact absurd hone (by decide)
  · intro h
    refine bijective_iff_has_inverse.mpr ⟨(fold shift)^[63], fun word => ?_, fun word => ?_⟩
    · exact (iterate_succ_apply (fold shift) 63 word).symm.trans (iterate_fold_64 h word)
    · exact (iterate_succ_apply' (fold shift) 63 word).symm.trans (iterate_fold_64 h word)

/-! ### Multiplications -/

theorem isNilpotent_two : IsNilpotent (2 : UInt64) := ⟨64, by decide +kernel⟩

/-- An odd number is one more than an even one, which has a power that is zero. -/
theorem isUnit_of_odd {factor : UInt64} (h : Odd factor) : IsUnit factor := by
  obtain ⟨half, rfl⟩ := h
  have heven : IsNilpotent (2 * half) := (Commute.all 2 half).isNilpotent_mul_right isNilpotent_two
  exact heven.isUnit_add_one

/-! ### The seed of an agent -/

/-- A fold and a multiplication, as scrambling has it twice. -/
theorem round_bijective {shift factor : UInt64} (hshift : shift % 64 ≠ 0) (hfactor : Odd factor) :
    Bijective fun word => fold shift word * factor := by
  have hmul : Bijective (· * factor) := (isUnit_of_odd hfactor).unit.mulRight_bijective
  exact hmul.comp ((fold_bijective_iff shift).mpr hshift)

theorem scramble_bijective : Bijective scramble := by
  have hadd : Bijective fun word : UInt64 => word + 0x9E3779B97F4A7C15 :=
    AddGroup.addRight_bijective _
  have hfirst : Bijective fun word => fold 30 word * 0xBF58476D1CE4E5B9 :=
    round_bijective (by decide) ⟨0x5FAC23B68E7272DC, by decide⟩
  have hsecond : Bijective fun word => fold 27 word * 0x94D049BB133111EB :=
    round_bijective (by decide) ⟨0x4A6824DD899888F5, by decide⟩
  have hlast : Bijective (fold 31) := (fold_bijective_iff 31).mpr (by decide)
  exact hlast.comp (hsecond.comp (hfirst.comp hadd))

/-- Runs with different seeds give an agent different seeds, and every word is its seed in some run. -/
theorem ofAgent_bijective (agent : String) : Bijective fun seed => ofAgent seed agent := by
  have hjoin : Involutive fun seed => seed ^^^ hashName agent := by
    intro seed
    show seed ^^^ hashName agent ^^^ hashName agent = seed
    rw [UInt64.xor_assoc, UInt64.xor_self, UInt64.xor_zero]
  exact scramble_bijective.comp hjoin.bijective

end DcopSearch.Seed
