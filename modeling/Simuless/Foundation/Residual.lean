import Mathlib.Analysis.Matrix.Normed
import Simuless.Foundation.Bulge

/-! How far a matrix is from another one.

The norm is the root of the sum of the squares of all entries, which orthogonal
matrices keep. An entry next to the diagonal stands in the matrix twice, so
that without it the matrix is changed by the root of two times this entry.
-/

set_option autoImplicit false

namespace Simuless.Foundation

open scoped Matrix Matrix.Norms.Frobenius

variable {n : Nat} {M Q : Matrix (Fin n) (Fin n) ℝ}

theorem norm_squared (M : Matrix (Fin n) (Fin n) ℝ) : ‖M‖ ^ 2 = ∑ i, ∑ j, M i j ^ 2 := by
  have nonneg : 0 ≤ ∑ i, ∑ j, ‖M i j‖ ^ 2 :=
    Finset.sum_nonneg fun _ _ => Finset.sum_nonneg fun _ _ => sq_nonneg _
  rw [Matrix.frobenius_norm_def, ← Real.sqrt_eq_rpow]
  simp only [Real.rpow_two]
  rw [Real.sq_sqrt nonneg]
  simp only [Real.norm_eq_abs, sq_abs]

theorem norm_trace (M : Matrix (Fin n) (Fin n) ℝ) : ‖M‖ ^ 2 = (Mᵀ * M).trace := by
  rw [norm_squared, Finset.sum_comm]
  simp only [pow_two]
  rfl

theorem norm_orthogonal_mul (orthogonal : Qᵀ * Q = 1) : ‖Q * M‖ = ‖M‖ := by
  have squares : ‖Q * M‖ ^ 2 = ‖M‖ ^ 2 := by
    rw [norm_trace, norm_trace, Matrix.transpose_mul, Matrix.mul_assoc, ← Matrix.mul_assoc Qᵀ, orthogonal,
      Matrix.one_mul]
  exact (pow_left_inj₀ (norm_nonneg _) (norm_nonneg _) two_ne_zero).mp squares

theorem norm_mul_orthogonal (orthogonal : Qᵀ * Q = 1) : ‖M * Q‖ = ‖M‖ := by
  have back : Qᵀᵀ * Qᵀ = 1 := by rw [Matrix.transpose_transpose, mul_eq_one_comm.mp orthogonal]
  rw [← Matrix.frobenius_norm_transpose, Matrix.transpose_mul, norm_orthogonal_mul back,
    Matrix.frobenius_norm_transpose]

/-! Entries next to the diagonal that are left out. -/

section
variable {K : Type} [CommRing K]

/-- The entries from this one on. -/
def keptFrom (l : Nat) (off : Nat → K) (t : Nat) : K := if t < l then 0 else off t

theorem keptFrom_zero (off : Nat → K) : keptFrom 0 off = off :=
  funext fun t => if_neg (Nat.not_lt_zero t)

/-- Without entries next to the diagonal. -/
theorem band_diagonal {diag off : Nat → K} (zeros : ∀ t < n, off t = 0) :
    band n diag off = Matrix.diagonal fun r : Fin n => diag r := by
  ext r c
  rw [band, bulged, Matrix.of_apply, Matrix.diagonal_apply, ite_self, zeros r r.isLt, zeros c c.isLt,
    ite_self, ite_self]
  exact if_congr Fin.ext_iff.symm rfl rfl

/-- One entry less. -/
theorem band_kept_sub (diag off : Nat → K) (l : Nat) (r c : Fin n) :
    (band n diag (keptFrom l off) - band n diag (keptFrom (l + 1) off)) r c =
      if (r : Nat) = l ∧ (c : Nat) = l + 1 ∨ (r : Nat) = l + 1 ∧ (c : Nat) = l then off l else 0 := by
  simp only [Matrix.sub_apply, band, bulged, Matrix.of_apply, keptFrom, ite_self]
  grind

end

/-- A number at one place, if it is in the matrix. -/
theorem sum_place (i j : Nat) {y : ℝ} (nonneg : 0 ≤ y) :
    ∑ r : Fin n, ∑ c : Fin n, (if (r : Nat) = i ∧ (c : Nat) = j then y else 0) ≤ y := by
  have once (i : Nat) : ∑ r : Fin n, (if (r : Nat) = i then y else 0) ≤ y := by
    rw [Fin.sum_univ_eq_sum_range (fun t => if t = i then y else 0), Finset.sum_ite_eq']
    split
    · exact le_rfl
    · exact nonneg
  refine le_trans (Finset.sum_le_sum fun r _ => ?_) (once i)
  by_cases here : (r : Nat) = i
  · simpa only [here, true_and, if_true] using once j
  · simp only [here, false_and, if_false, Finset.sum_const_zero, le_refl]

theorem norm_band_kept (diag off : Nat → ℝ) (l : Nat) :
    ‖band n diag (keptFrom l off) - band n diag (keptFrom (l + 1) off)‖ ≤ √2 * |off l| := by
  have places (r c : Fin n) : (band n diag (keptFrom l off) - band n diag (keptFrom (l + 1) off)) r c ^ 2 =
      (if (r : Nat) = l ∧ (c : Nat) = l + 1 then off l ^ 2 else 0) +
        if (r : Nat) = l + 1 ∧ (c : Nat) = l then off l ^ 2 else 0 := by
    rw [band_kept_sub]
    grind
  have twice : ‖band n diag (keptFrom l off) - band n diag (keptFrom (l + 1) off)‖ ^ 2 ≤
      off l ^ 2 + off l ^ 2 := by
    rw [norm_squared]
    simp only [places, Finset.sum_add_distrib]
    exact add_le_add (sum_place l (l + 1) (sq_nonneg _)) (sum_place (l + 1) l (sq_nonneg _))
  refine (sq_le_sq₀ (norm_nonneg _) (by positivity)).mp (twice.trans_eq ?_)
  rw [mul_pow, Real.sq_sqrt two_pos.le, sq_abs, two_mul]

/-! Residuals. -/

/-- Without its first entries next to the diagonal a decomposition is off by at most so much more. -/
theorem residual_next {diag off : Nat → ℝ} {l : Nat} {bound : ℝ} (orthogonal : Qᵀ * Q = 1)
    (close : ‖M - Q * band n diag (keptFrom l off) * Qᵀ‖ ≤ bound) :
    ‖M - Q * band n diag (keptFrom (l + 1) off) * Qᵀ‖ ≤ bound + √2 * |off l| := by
  have split : M - Q * band n diag (keptFrom (l + 1) off) * Qᵀ =
      M - Q * band n diag (keptFrom l off) * Qᵀ +
        Q * (band n diag (keptFrom l off) - band n diag (keptFrom (l + 1) off)) * Qᵀ := by
    rw [Matrix.mul_sub, Matrix.sub_mul]
    abel
  have back : Qᵀᵀ * Qᵀ = 1 := by rw [Matrix.transpose_transpose, mul_eq_one_comm.mp orthogonal]
  rw [split]
  refine (norm_add_le _ _).trans (add_le_add close ?_)
  rw [norm_mul_orthogonal back, norm_orthogonal_mul orthogonal]
  exact norm_band_kept diag off l

/-- A decomposition that is off by so much gives vectors that are off by as much. -/
theorem residual_vectors {D : Matrix (Fin n) (Fin n) ℝ} (orthogonal : Qᵀ * Q = 1) :
    ‖M * Q - Q * D‖ = ‖M - Q * D * Qᵀ‖ := by
  rw [← norm_mul_orthogonal (M := M - Q * D * Qᵀ) orthogonal, Matrix.sub_mul, Matrix.mul_assoc (Q * D),
    orthogonal, Matrix.mul_one]

end Simuless.Foundation
