import Simuless.Foundation.Pivoting
import Simuless.Foundation.RowOperations

/-! Matrices on which elimination with partial pivoting stalls.

Stages keep the determinant up to its sign. Where no entry of a column is left
but zeros, the determinant is zero.
-/

set_option autoImplicit false

namespace Simuless.Foundation

variable {K : Type} [Field K]

/-- What elimination has left of the matrix behind this many stages, without the multipliers. -/
def leftOver (n stage : Nat) (packed : Nat → Nat → K) : Matrix (Fin n) (Fin n) K :=
  fun i j => if (j : Nat) < min (i : Nat) stage then 0 else packed i j

section
variable {n stage : Nat} {packed : Nat → Nat → K}

/-- A stage whose pivot is in place adds multiples of the pivot row to those below it. -/
theorem det_leftOver_eliminate (inside : stage < n) (pivot : packed stage stage ≠ 0) :
    (leftOver n (stage + 1) (eliminate stage packed)).det = (leftOver n stage packed).det := by
  let factor (i : Fin n) : K := if (i : Nat) ≤ stage then 0 else -(packed i stage / packed stage stage)
  refine Matrix.det_eq_of_forall_row_eq_smul_add_const factor ⟨stage, inside⟩ (if_pos (Nat.le_refl stage))
    fun i j => ?_
  by_cases above : (i : Nat) ≤ stage
  · have same : min (i : Nat) (stage + 1) = min (i : Nat) stage := by omega
    rw [leftOver, same, eliminate_finished packed (Or.inl above)]
    simp only [factor, if_pos above, zero_mul, add_zero, leftOver]
  · have below : stage < (i : Nat) := Nat.lt_of_not_le above
    have width : min (i : Nat) (stage + 1) = stage + 1 := by omega
    have width' : min (i : Nat) stage = stage := by omega
    simp only [leftOver, factor, width, width', if_neg above, Nat.min_self]
    rcases Nat.lt_trichotomy (j : Nat) stage with before | same | behind
    · rw [if_pos (by omega), if_pos before, if_pos before, mul_zero, add_zero]
    · rw [if_pos (by omega), if_neg (by omega), if_neg (by omega), same, neg_mul,
        div_mul_cancel₀ _ pivot, add_neg_cancel]
    · rw [if_neg (by omega), if_neg (by omega), if_neg (by omega), eliminate_rest packed below behind,
        eliminate_column packed below]
      ring

/-- An exchange of rows that are not finished keeps the determinant up to its sign. -/
theorem det_leftOver_swap {other : Nat} (inside : stage < n) (inside' : other < n)
    (unfinished : stage ≤ other) : (leftOver n stage fun i => packed (Equiv.swap stage other i)).det = 0 ↔
      (leftOver n stage packed).det = 0 := by
  let exchange : Equiv.Perm (Fin n) := Equiv.swap ⟨stage, inside⟩ ⟨other, inside'⟩
  have index (i : Fin n) : (exchange i : Nat) = Equiv.swap stage other (i : Nat) := by
    rw [Equiv.swap_apply_def, Equiv.swap_apply_def]
    simp only [Fin.ext_iff]
    split_ifs <;> rfl
  have permuted : (leftOver n stage fun i => packed (Equiv.swap stage other i)) =
      (leftOver n stage packed).submatrix exchange id := by
    ext i j
    simp only [leftOver, Matrix.submatrix_apply, index, min_swap unfinished, id]
  rw [permuted, Matrix.det_permute]
  rcases Int.units_eq_one_or (Equiv.Perm.sign exchange) with sign | sign
  · simp [sign]
  · simp [sign]

end

section
variable [LinearOrder K] {n : Nat} {refused : K → Prop} {A : Nat → Nat → K}

theorem Pivoted.det_leftOver (refusal : Refusal refused) {stage : Nat} {order : Nat → Nat}
    {packed : Nat → Nat → K} (pivoted : Pivoted n refused A stage order packed) :
    (leftOver n stage packed).det = 0 ↔ (corner n A).det = 0 := by
  induction pivoted with
  | start =>
    have whole : leftOver n 0 A = corner n A := by
      ext i j
      exact if_neg (by omega)
    rw [whole]
  | @step stage best order packed reached inside pivot accepted ih =>
    have nonzero : packed (Equiv.swap stage best stage) stage ≠ 0 := by
      rw [Equiv.swap_apply_left]
      exact refusal.nonzero accepted
    rw [det_leftOver_eliminate inside nonzero, det_leftOver_swap inside pivot.inside pivot.behind]
    exact ih

/-- Where only zeros are refused, elimination stalls on no regular matrix. -/
theorem stalls_singular [IsStrictOrderedRing K] (stalls : StallsOn n (fun pivot => pivot = 0) A) :
    (corner n A).det = 0 := by
  obtain ⟨stage, inside, order, packed, pivoted, zeros⟩ := stalls
  rw [← pivoted.det_leftOver refusal_zero]
  have lower (i : Fin n) (below : ¬ (i : Nat) < stage) (j : Fin n) (left : (j : Nat) < stage) :
      leftOver n stage packed i j = 0 := if_pos (by omega)
  rw [Matrix.twoBlockTriangular_det _ (fun i : Fin n => (i : Nat) < stage) lower]
  -- the column of the stage is zero in the block that is left
  let column : { i : Fin n // ¬ (i : Nat) < stage } := ⟨⟨stage, by omega⟩, Nat.lt_irrefl stage⟩
  rw [Matrix.det_eq_zero_of_column_eq_zero column, mul_zero]
  rintro ⟨i, below⟩
  refine (if_neg ?_).trans (zeros i (Nat.not_lt.mp below) i.isLt)
  change ¬ stage < min (i : Nat) stage
  omega

end

end Simuless.Foundation
