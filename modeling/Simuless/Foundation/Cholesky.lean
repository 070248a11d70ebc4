import Mathlib.LinearAlgebra.Matrix.PosDef
import Simuless.Foundation.RankOne
import Simuless.Foundation.RowOperations

/-! Positive definite matrices and their triangular factors.

The finished columns of a factor leave one number in the next corner, and the
sign of that number decides whether the leading part of the matrix up to there
is positive definite. A matrix has at most one factor with positive diagonal.
-/

set_option autoImplicit false

namespace Simuless.Foundation

open scoped Matrix

variable {K : Type} [Field K]

/-- Up to row and column `k` a matrix is the product of `k` columns of a factor with their
transpose, and a pivot on top of it in the last corner. -/
structure Bordered (k : Nat) (A L : Nat → Nat → K) (pivot : K) : Prop where
  lower : ∀ i ≤ k, ∀ j < k, i < j → L i j = 0
  entries : ∀ i ≤ k, ∀ j ≤ k,
    A i j = ∑ m ∈ Finset.range k, L i m * L j m + if i = k ∧ j = k then pivot else 0

/-- The columns of the factor, and the last unit vector. -/
def borderFactor (k : Nat) (L : Nat → Nat → K) : Matrix (Fin (k + 1)) (Fin (k + 1)) K :=
  fun i m => if (m : Nat) = k then if (i : Nat) = k then 1 else 0 else L i m

def borderWeights (k : Nat) (pivot : K) : Fin (k + 1) → K := fun m => if (m : Nat) = k then pivot else 1

namespace Bordered

variable {k : Nat} {A L : Nat → Nat → K} {pivot : K} (bordered : Bordered k A L pivot)
include bordered

theorem congruent : corner (k + 1) A =
    borderFactor k L * Matrix.diagonal (borderWeights k pivot) * (borderFactor k L)ᵀ := by
  ext i j
  rw [corner, bordered.entries i (Nat.lt_succ_iff.mp i.isLt) j (Nat.lt_succ_iff.mp j.isLt),
    Matrix.mul_apply, Fin.sum_univ_castSucc, Finset.sum_range]
  simp only [Matrix.mul_diagonal, Matrix.transpose_apply]
  congr 1
  · apply Finset.sum_congr rfl
    intro m _
    have inner : (m : Nat) ≠ k := Nat.ne_of_lt m.isLt
    simp only [borderFactor, borderWeights, Fin.val_castSucc, if_neg inner, mul_one]
  · simp only [borderFactor, borderWeights, Fin.val_last, if_true]
    by_cases row : (i : Nat) = k
    · by_cases column : (j : Nat) = k
      · rw [if_pos ⟨row, column⟩, if_pos row, if_pos column, one_mul, mul_one]
      · rw [if_neg fun both => column both.2, if_neg column, mul_zero]
    · rw [if_neg fun both => row both.1, if_neg row, zero_mul, zero_mul]

theorem unit (nonzero : ∀ j < k, L j j ≠ 0) : IsUnit (borderFactor k L) := by
  have triangular : (borderFactor k L).IsLowerTriangular := fun i m before => by
    have order : (i : Nat) < m := OrderDual.toDual_lt_toDual.mp before
    rw [borderFactor]
    split
    case isTrue last => exact if_neg (by omega)
    case isFalse inner => exact bordered.lower i (by omega) m (by omega) order
  rw [Matrix.isUnit_iff_isUnit_det, Matrix.det_of_isLowerTriangular _ triangular, isUnit_iff_ne_zero,
    Finset.prod_ne_zero_iff]
  intro m _
  rw [borderFactor]
  by_cases last : (m : Nat) = k
  · rw [if_pos last, if_pos last]
    exact one_ne_zero
  · rw [if_neg last]
    exact nonzero m (by omega)

variable [LinearOrder K] [StarRing K] [TrivialStar K]

/-- In a positive semidefinite matrix the pivot is not negative. -/
theorem pivot_nonneg (nonzero : ∀ j < k, L j j ≠ 0) (semidefinite : (corner (k + 1) A).PosSemidef) :
    0 ≤ pivot := by
  rw [bordered.congruent, ← Matrix.conjTranspose_eq_transpose_of_trivial,
    ← Matrix.star_eq_conjTranspose,
    Matrix.IsUnit.posSemidef_star_right_conjugate_iff (bordered.unit nonzero)] at semidefinite
  have last := semidefinite.diag_nonneg (i := Fin.last k)
  rwa [Matrix.diagonal_apply_eq, borderWeights, Fin.val_last, if_pos rfl] at last

variable [StarOrderedRing K]

/-- The leading part is positive definite if and only if the pivot is positive. -/
theorem posDef_iff (nonzero : ∀ j < k, L j j ≠ 0) : (corner (k + 1) A).PosDef ↔ 0 < pivot := by
  have conjugated : (borderFactor k L * Matrix.diagonal (borderWeights k pivot) *
      star (borderFactor k L)).PosDef ↔ (Matrix.diagonal (borderWeights k pivot)).PosDef :=
    Matrix.IsUnit.posDef_star_right_conjugate_iff (bordered.unit nonzero)
  rw [Matrix.star_eq_conjTranspose, Matrix.conjTranspose_eq_transpose_of_trivial,
    ← bordered.congruent] at conjugated
  rw [conjugated, Matrix.posDef_diagonal_iff]
  constructor
  · intro positive
    have last := positive (Fin.last k)
    rwa [borderWeights, Fin.val_last, if_pos rfl] at last
  · intro positive m
    rw [borderWeights]
    split
    · exact positive
    · exact one_pos

end Bordered

section
variable [LinearOrder K] [StarRing K] {n k : Nat} {A : Nat → Nat → K}

theorem posDef_empty [StarOrderedRing K] (A : Nat → Nat → K) : (corner 0 A).PosDef := by
  rw [Subsingleton.elim (corner 0 A) 1]
  exact Matrix.PosDef.one

theorem posDef_det (definite : (corner n A).PosDef) : (corner n A).det ≠ 0 :=
  ((Matrix.isUnit_iff_isUnit_det _).mp definite.isUnit).ne_zero

theorem posDef_corner (definite : (corner n A).PosDef) (inside : k ≤ n) : (corner k A).PosDef :=
  definite.submatrix (Fin.castLE_injective inside)

theorem posSemidef_corner (semidefinite : (corner n A).PosSemidef) (inside : k ≤ n) :
    (corner k A).PosSemidef := semidefinite.submatrix (Fin.castLE inside)

end

/-! Triangular factors. -/

section
variable {n : Nat} {L : Nat → Nat → K} (lower : ∀ i < n, ∀ j < n, i < j → L i j = 0)
include lower

/-- The columns behind an entry do not contribute to it. -/
theorem gram_cut {j : Nat} (inside : j < n) (i : Nat) :
    gram n L i j = ∑ m ∈ Finset.range j, L i m * L j m + L i j * L j j := by
  rw [gram, ← Finset.sum_range_succ fun m => L i m * L j m]
  symm
  apply Finset.sum_subset (Finset.range_subset_range.mpr inside)
  intro m member outside
  rw [Finset.mem_range] at member outside
  rw [lower j inside m member (by omega), mul_zero]

theorem gram_bordered {k : Nat} (inside : k < n) : Bordered k (gram n L) L (L k k * L k k) where
  lower := fun i above j before => lower i (by omega) j (by omega)
  entries := by
    intro i above j above'
    have whole : gram n L i j = ∑ m ∈ Finset.range (k + 1), L i m * L j m := by
      rw [gram]
      symm
      apply Finset.sum_subset (Finset.range_subset_range.mpr inside)
      intro m member outside
      rw [Finset.mem_range] at member outside
      rw [lower i (by omega) m member (by omega), zero_mul]
    rw [whole, Finset.sum_range_succ]
    congr 1
    split
    case isTrue last => rw [last.1, last.2]
    case isFalse inner =>
      rcases Nat.lt_or_eq_of_le above with before | rfl
      · rw [lower i (by omega) k inside before, zero_mul]
      · rw [lower j (by omega) i inside (by omega), mul_zero]

theorem gram_posDef [LinearOrder K] [StarRing K] [TrivialStar K] [StarOrderedRing K]
    (nonzero : ∀ i < n, L i i ≠ 0) : (corner n (gram n L)).PosDef := by
  cases n with
  | zero => exact posDef_empty _
  | succ k =>
    have last : k < k + 1 := Nat.lt_succ_self k
    rw [(gram_bordered lower last).posDef_iff fun j before => nonzero j (before.trans last)]
    exact mul_self_pos.mpr (nonzero k last)

variable [LinearOrder K] [IsStrictOrderedRing K] {L' : Nat → Nat → K}
  (lower' : ∀ i < n, ∀ j < n, i < j → L' i j = 0)
include lower'

/-- A matrix has at most one factor with positive diagonal. -/
theorem factor_unique (positive : ∀ i < n, 0 < L i i) (positive' : ∀ i < n, 0 < L' i i)
    (same : ∀ i < n, ∀ j < n, gram n L i j = gram n L' i j) : ∀ j < n, ∀ i < n, L i j = L' i j := by
  intro j
  induction j using Nat.strong_induction_on with
  | _ j ih =>
    intro inside
    have earlier (i : Nat) (inRow : i < n) : ∑ m ∈ Finset.range j, L i m * L j m =
        ∑ m ∈ Finset.range j, L' i m * L' j m := by
      apply Finset.sum_congr rfl
      intro m member
      have before := Finset.mem_range.mp member
      rw [ih m before (before.trans inside) i inRow, ih m before (before.trans inside) j inside]
    have last (i : Nat) (inRow : i < n) : L i j * L j j = L' i j * L' j j := by
      have both := same i inRow j inside
      rwa [gram_cut lower inside, gram_cut lower' inside, earlier i inRow, add_right_inj] at both
    have diagonal : L j j = L' j j :=
      (mul_self_inj (positive j inside).le (positive' j inside).le).mp (last j inside)
    intro i inRow
    have column := last i inRow
    rw [diagonal] at column
    exact mul_right_cancel₀ (positive' j inside).ne' column

end

end Simuless.Foundation
