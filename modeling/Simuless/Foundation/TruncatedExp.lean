import Mathlib.Algebra.Algebra.Basic
import Mathlib.Algebra.BigOperators.Intervals
import Mathlib.Algebra.BigOperators.Ring.Finset
import Mathlib.Algebra.GroupWithZero.Action.Units
import Mathlib.Data.Nat.Cast.Field
import Mathlib.Data.Nat.Factorial.Basic

/-! The exponential series of a nilpotent element.

It has finitely many terms that are not zero, and a shorter sum is the whole sum
only if all terms behind it are zero.
-/

set_option autoImplicit false

namespace Simuless.Foundation

variable (K : Type) {R : Type} [Field K] [Ring R] [Algebra K R] (A : R)

def expTerm (k : Nat) : R := (k.factorial : K)⁻¹ • A ^ k

/-- The first terms. -/
def expSum (count : Nat) : R := ∑ k ∈ Finset.range count, expTerm K A k

theorem expSum_succ (count : Nat) : expSum K A (count + 1) = expSum K A count + expTerm K A count :=
  Finset.sum_range_succ _ _

theorem expTerm_zero : expTerm K A 0 = 1 := by
  rw [expTerm, Nat.factorial_zero, Nat.cast_one, inv_one, one_smul, pow_zero]

theorem expTerm_succ (k : Nat) :
    expTerm K A (k + 1) = ((k + 1 : Nat) : K)⁻¹ • (A * expTerm K A k) := by
  rw [expTerm, expTerm, Nat.factorial_succ, Nat.cast_mul, mul_inv, mul_smul, pow_succ', mul_smul_comm]

variable [CharZero K]

theorem expTerm_eq_zero (k : Nat) : expTerm K A k = 0 ↔ A ^ k = 0 := by
  have unit : (k.factorial : K)⁻¹ ≠ 0 := inv_ne_zero (Nat.cast_ne_zero.mpr k.factorial_ne_zero)
  exact (IsUnit.mk0 _ unit).smul_eq_zero

variable {A}

theorem pow_vanishes {m k : Nat} (zero : A ^ m = 0) (behind : m ≤ k) : A ^ k = 0 := by
  obtain ⟨rest, rfl⟩ := Nat.exists_eq_add_of_le behind
  rw [pow_add, zero, zero_mul]

/-- A sum that stops early is the whole sum if and only if it stops at a power of zero. -/
theorem expSum_eq_iff {m n : Nat} (nilpotent : A ^ n = 0) (early : m ≤ n) :
    expSum K A m = expSum K A n ↔ A ^ m = 0 := by
  have tail : expSum K A n = expSum K A m + ∑ k ∈ Finset.Ico m n, expTerm K A k :=
    (Finset.sum_range_add_sum_Ico _ early).symm
  rw [tail, left_eq_add]
  constructor
  · intro vanishes
    -- the powers from `p` on vanish, down to `m`
    have descent : ∀ p, m ≤ p → A ^ (p + 1) = 0 → A ^ p = 0 := by
      intro p behind next
      have shifted := congrArg (A ^ (p - m) * ·) vanishes
      simp only [Finset.mul_sum, mul_zero] at shifted
      by_cases inside : m < n
      · rw [Finset.sum_eq_single_of_mem m (Finset.left_mem_Ico.mpr inside)] at shifted
        · rw [expTerm, mul_smul_comm, ← pow_add, Nat.sub_add_cancel behind] at shifted
          have unit : (m.factorial : K)⁻¹ ≠ 0 := inv_ne_zero (Nat.cast_ne_zero.mpr m.factorial_ne_zero)
          exact (IsUnit.mk0 _ unit).smul_eq_zero.mp shifted
        · intro k member other
          have later : m < k := lt_of_le_of_ne (Finset.mem_Ico.mp member).1 (Ne.symm other)
          rw [expTerm, mul_smul_comm, ← pow_add, pow_vanishes next (by omega), smul_zero]
      · exact pow_vanishes nilpotent (by omega)
    have down (gap : Nat) : A ^ (m + gap) = 0 → A ^ m = 0 := by
      induction gap with
      | zero => exact id
      | succ gap ih => exact fun zero => ih (descent (m + gap) (Nat.le_add_right _ _) zero)
    exact down (n - m) (by rwa [Nat.add_sub_cancel' early])
  · intro zero
    refine Finset.sum_eq_zero fun k member => ?_
    rw [expTerm_eq_zero]
    exact pow_vanishes zero (Finset.mem_Ico.mp member).1

end Simuless.Foundation
