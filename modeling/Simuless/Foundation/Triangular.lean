import Mathlib.LinearAlgebra.Matrix.Block
import Simuless.Foundation.Elimination

/-! The triangular factors of a packed matrix.

The lower factor has ones on its diagonal and the multipliers below, the upper
one is the rest. Substitution solves a system with either, and the product of
the pivots decides whether the whole system can be solved.
-/

set_option autoImplicit false

namespace Simuless.Foundation

open Matrix

variable {K : Type} [Field K] {n : Nat}

def lowerMatrix (n : Nat) (packed : Nat → Nat → K) : Matrix (Fin n) (Fin n) K :=
  fun i k => if (i : Nat) < k then 0 else lowerEntry packed i k

def upperMatrix (n : Nat) (packed : Nat → Nat → K) : Matrix (Fin n) (Fin n) K :=
  fun k j => if (j : Nat) < k then 0 else packed k j

/-! Sums over one side of a diagonal. -/

theorem sum_up_to {last : Nat} (inside : last < n) (term : Nat → K) :
    ∑ k : Fin n, (if last < (k : Nat) then 0 else term k) =
      ∑ k ∈ Finset.range (last + 1), term k := by
  have whole := Finset.sum_range (n := n) fun k => if last < k then 0 else term k
  rw [← whole]
  have cut : Finset.range (last + 1) ⊆ Finset.range n := Finset.range_subset_range.mpr inside
  rw [← Finset.sum_subset cut]
  · apply Finset.sum_congr rfl
    intro k member
    have := Finset.mem_range.mp member
    rw [if_neg (by omega)]
  · intro k _ outside
    rw [Finset.mem_range] at outside
    rw [if_pos (by omega)]

theorem sum_from {first : Nat} (term : Nat → K) :
    ∑ k : Fin n, (if (k : Nat) < first then 0 else term k) = ∑ k ∈ Finset.Ico first n, term k := by
  have whole := Finset.sum_range (n := n) fun k => if k < first then 0 else term k
  rw [← whole]
  have cut : Finset.Ico first n ⊆ Finset.range n := by
    intro k member
    exact Finset.mem_range.mpr (Finset.mem_Ico.mp member).2
  rw [← Finset.sum_subset cut]
  · apply Finset.sum_congr rfl
    intro k member
    have := Finset.mem_Ico.mp member
    rw [if_neg (by omega)]
  · intro k member outside
    rw [Finset.mem_range] at member
    rw [Finset.mem_Ico] at outside
    rw [if_pos (by omega)]

/-! The factors. -/

section
variable (packed : Nat → Nat → K)

theorem lower_mul_upper (i j : Fin n) : (lowerMatrix n packed * upperMatrix n packed) i j =
    ∑ k ∈ Finset.range (min (i : Nat) j + 1), lowerEntry packed i k * packed k j := by
  have inside : min (i : Nat) j < n := (Nat.min_le_left _ _).trans_lt i.isLt
  rw [Matrix.mul_apply, ← sum_up_to inside fun k => lowerEntry packed i k * packed k j]
  apply Finset.sum_congr rfl
  intro k _
  rw [lowerMatrix, upperMatrix]
  by_cases left : (i : Nat) < k
  · have cut : min (i : Nat) j < k := (Nat.min_le_left _ _).trans_lt left
    rw [if_pos left, if_pos cut, zero_mul]
  · by_cases below : (j : Nat) < k
    · have cut : min (i : Nat) j < k := (Nat.min_le_right _ _).trans_lt below
      rw [if_pos below, if_pos cut, mul_zero]
    · have kept : ¬ min (i : Nat) j < k := by omega
      rw [if_neg left, if_neg below, if_neg kept]

theorem det_lowerMatrix : (lowerMatrix n packed).det = 1 := by
  have triangular : (lowerMatrix n packed).IsLowerTriangular := fun i k before =>
    if_pos (OrderDual.toDual_lt_toDual.mp before)
  rw [Matrix.det_of_isLowerTriangular _ triangular]
  apply Finset.prod_eq_one
  intro i _
  rw [lowerMatrix, if_neg (Nat.lt_irrefl _), lowerEntry, if_pos rfl]

theorem det_upperMatrix : (upperMatrix n packed).det = ∏ i : Fin n, packed i i := by
  have triangular : (upperMatrix n packed).IsUpperTriangular := fun k j before => if_pos before
  rw [Matrix.det_of_isUpperTriangular triangular]
  apply Finset.prod_congr rfl
  intro i _
  rw [upperMatrix, if_neg (Nat.lt_irrefl _)]

variable {packed}

/-- Forward substitution solves the system of the lower factor. -/
theorem lower_solved {b y : Nat → K}
    (solved : ∀ i < n, y i = b i - ∑ j ∈ Finset.Ico 0 i, packed i j * y j) :
    (lowerMatrix n packed *ᵥ fun i : Fin n => y i) = fun i : Fin n => b i := by
  funext i
  have row : (lowerMatrix n packed *ᵥ fun i : Fin n => y i) i =
      ∑ k ∈ Finset.range ((i : Nat) + 1), lowerEntry packed i k * y k := by
    rw [Matrix.mulVec, dotProduct, ← sum_up_to i.isLt fun k => lowerEntry packed i k * y k]
    apply Finset.sum_congr rfl
    intro k _
    rw [lowerMatrix, ite_mul, zero_mul]
  have left : ∑ k ∈ Finset.range (i : Nat), lowerEntry packed i k * y k =
      ∑ k ∈ Finset.Ico 0 (i : Nat), packed i k * y k := by
    rw [← Finset.range_eq_Ico]
    apply Finset.sum_congr rfl
    intro k member
    rw [lowerEntry, if_neg (Nat.ne_of_lt (Finset.mem_range.mp member))]
  rw [row, Finset.sum_range_succ, left, lowerEntry, if_pos rfl, one_mul, solved i i.isLt]
  ring

/-- Backward substitution solves the system of the upper factor. -/
theorem upper_solved {x y : Nat → K} (solved : ∀ i < n,
    packed i i * x i = y i - ∑ j ∈ Finset.Ico (i + 1) n, packed i j * x j) :
    (upperMatrix n packed *ᵥ fun i : Fin n => x i) = fun i : Fin n => y i := by
  funext i
  have row : (upperMatrix n packed *ᵥ fun i : Fin n => x i) i =
      ∑ k ∈ Finset.Ico (i : Nat) n, packed i k * x k := by
    rw [Matrix.mulVec, dotProduct, ← sum_from fun k => packed i k * x k]
    apply Finset.sum_congr rfl
    intro k _
    rw [upperMatrix, ite_mul, zero_mul]
  rw [row, Finset.sum_eq_sum_Ico_succ_bot i.isLt, solved i i.isLt]
  ring

end

/-! Systems whose rows are permuted and factored. -/

section
variable {matrix : Matrix (Fin n) (Fin n) K} {positions : Equiv.Perm (Fin n)} {packed : Nat → Nat → K}
  (factored : matrix.submatrix positions id = lowerMatrix n packed * upperMatrix n packed)
include factored

/-- The pivots multiply to the determinant, up to the sign of the permutation. -/
theorem factored_pivots :
    ((Equiv.Perm.sign positions : ℤ) : K) * matrix.det = ∏ i : Fin n, packed i i := by
  rw [← Matrix.det_permute, factored, Matrix.det_mul, det_lowerMatrix, det_upperMatrix, one_mul]

/-- A factored matrix is regular if and only if no pivot is zero. -/
theorem factored_regular : matrix.det ≠ 0 ↔ ∀ i < n, packed i i ≠ 0 := by
  have sign : ((Equiv.Perm.sign positions : ℤ) : K) ≠ 0 := by
    rcases Int.units_eq_one_or (Equiv.Perm.sign positions) with same | same
    · rw [same]
      simp
    · rw [same]
      simp
  have same : matrix.det ≠ 0 ↔ ∏ i : Fin n, packed i i ≠ 0 := by
    rw [← factored_pivots factored, mul_ne_zero_iff, and_iff_right sign]
  rw [same, Finset.prod_ne_zero_iff]
  constructor
  · intro nonzero i inside
    exact nonzero ⟨i, inside⟩ (Finset.mem_univ _)
  · intro nonzero i _
    exact nonzero i i.isLt

/-- Solving with one factor after the other solves the system. -/
theorem factored_solved {b x y : Fin n → K} (lower : lowerMatrix n packed *ᵥ y = b ∘ positions)
    (upper : upperMatrix n packed *ᵥ x = y) : matrix *ᵥ x = b := by
  have permuted : matrix.submatrix positions id *ᵥ x = b ∘ positions := by
    rw [factored, ← Matrix.mulVec_mulVec, upper, lower]
  funext i
  have row := congrFun permuted (positions.symm i)
  rw [Function.comp_apply, Equiv.apply_symm_apply] at row
  rw [← row]
  simp only [Matrix.mulVec, dotProduct, Matrix.submatrix_apply, Equiv.apply_symm_apply, id]

end

end Simuless.Foundation
