import Mathlib.LinearAlgebra.Matrix.ToLinearEquiv
import Mathlib.LinearAlgebra.Matrix.Vec

/-! The discrete Lyapunov equation as a linear system.

The unknown is the matrix with its rows one after the other. The equation has
one solution alone if and only if the system is regular.
-/

set_option autoImplicit false

namespace Simuless.Foundation

open Matrix
open scoped Kronecker

variable {K : Type} [Field K] {n : Nat}

def Lyapunov (A Q X : Matrix (Fin n) (Fin n) K) : Prop := A * X * Aᵀ - X + Q = 0

instance [DecidableEq K] (A Q X : Matrix (Fin n) (Fin n) K) : Decidable (Lyapunov A Q X) :=
  inferInstanceAs (Decidable (A * X * Aᵀ - X + Q = 0))

/-- The rows of a matrix one after the other. -/
def rowMajor (X : Matrix (Fin n) (Fin n) K) : Fin (n * n) → K := vec Xᵀ ∘ finProdFinEquiv.symm

def lyapunovMatrix (A : Matrix (Fin n) (Fin n) K) : Matrix (Fin (n * n)) (Fin (n * n)) K :=
  (1 - A ⊗ₖ A).submatrix finProdFinEquiv.symm finProdFinEquiv.symm

variable {A Q X : Matrix (Fin n) (Fin n) K}

omit [Field K] in
theorem rowMajor_injective : Function.Injective (rowMajor : Matrix (Fin n) (Fin n) K → _) := by
  intro X Y same
  have vectors : vec Xᵀ = vec Yᵀ := finProdFinEquiv.symm.surjective.injective_comp_right same
  rwa [vec_inj, transpose_inj] at vectors

omit [Field K] in
theorem rowMajor_surjective : Function.Surjective (rowMajor : Matrix (Fin n) (Fin n) K → _) := by
  intro v
  refine ⟨fun i j => v (finProdFinEquiv (i, j)), ?_⟩
  funext s
  exact congrArg v (finProdFinEquiv.apply_symm_apply s)

theorem lyapunov_iff : lyapunovMatrix A *ᵥ rowMajor X = rowMajor Q ↔ Lyapunov A Q X := by
  have unfolded : rowMajor X ∘ finProdFinEquiv = vec Xᵀ := by
    rw [rowMajor, Function.comp_assoc, Equiv.symm_comp_self, Function.comp_id]
  have product : lyapunovMatrix A *ᵥ rowMajor X = rowMajor (X - A * X * Aᵀ) := by
    have transposed : Xᵀ - A * Xᵀ * Aᵀ = (X - A * X * Aᵀ)ᵀ := by
      rw [transpose_sub, transpose_mul, transpose_mul, transpose_transpose, Matrix.mul_assoc]
    rw [lyapunovMatrix, submatrix_mulVec_equiv, Equiv.symm_symm, unfolded, sub_mulVec, one_mulVec,
      kronecker_mulVec_vec, ← vec_sub, transposed]
    rfl
  rw [product, rowMajor_injective.eq_iff, Lyapunov, ← neg_sub X (A * X * Aᵀ), neg_add_eq_zero]

/-- A kernel vector of the system could be added to a solution. -/
theorem lyapunov_regular : (∃! X, Lyapunov A Q X) ↔ (lyapunovMatrix A).det ≠ 0 := by
  constructor
  · rintro ⟨X, solved, only⟩ singular
    obtain ⟨v, nonzero, kernel⟩ := exists_mulVec_eq_zero_iff.mpr singular
    obtain ⟨V, rfl⟩ := rowMajor_surjective v
    have other : Lyapunov A Q (X + V) := by
      rw [← lyapunov_iff] at solved ⊢
      have sum : rowMajor (X + V) = rowMajor X + rowMajor V := rfl
      rw [sum, mulVec_add, kernel, add_zero, solved]
    have same := only (X + V) other
    rw [add_eq_left] at same
    rw [same] at nonzero
    exact nonzero rfl
  · intro regular
    obtain ⟨X, inverted⟩ := rowMajor_surjective ((lyapunovMatrix A)⁻¹ *ᵥ rowMajor Q)
    have solved : lyapunovMatrix A *ᵥ rowMajor X = rowMajor Q := by
      rw [inverted, mulVec_mulVec, mul_nonsing_inv _ regular.isUnit, one_mulVec]
    refine ⟨X, lyapunov_iff.mp solved, fun Y other => rowMajor_injective ?_⟩
    exact mulVec_injective_of_det_ne_zero regular ((lyapunov_iff.mpr other).trans solved.symm)

theorem lyapunov_zero : Lyapunov 0 Q X ↔ X = Q := by
  rw [Lyapunov, Matrix.zero_mul, Matrix.zero_mul, zero_sub, neg_add_eq_zero]

end Simuless.Foundation
