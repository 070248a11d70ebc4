import Mathlib.LinearAlgebra.Matrix.NonsingularInverse
import Simuless.Foundation.Pivoting
import Simuless.Foundation.RowOperations

/-! Pivots of orthogonal matrices.

A vector that the finished rows send to zero is sent to the next column of what
elimination has left. An orthogonal matrix keeps its length, so that this column
has a large entry, whatever the stages before did.
-/

set_option autoImplicit false

namespace Simuless.Foundation

open scoped Matrix

variable {K : Type} [Field K] {n k : Nat} {packed : Nat → Nat → K}

/-- The finished rows send the vector to zero; its last entry that is not zero is a one. -/
structure SentToNext (n k : Nat) (packed : Nat → Nat → K) (x : Nat → K) : Prop where
  next : x k = 1
  behind : ∀ j, k < j → x j = 0
  rows : ∀ m < k, ∑ j ∈ Finset.Ico m n, packed m j * x j = 0

/-- Backward substitution finds one. -/
theorem exists_sentToNext (inside : k < n) (pivots : ∀ j < k, packed j j ≠ 0) :
    ∃ x, SentToNext n k packed x := by
  have regular : IsUnit (upperMatrix k packed).det := by
    rw [det_upperMatrix, isUnit_iff_ne_zero, Finset.prod_ne_zero_iff]
    intro j _
    exact pivots j j.isLt
  let y : Fin k → K := (upperMatrix k packed)⁻¹ *ᵥ fun m => -packed m k
  have solved : upperMatrix k packed *ᵥ y = fun m : Fin k => -packed m k := by
    rw [Matrix.mulVec_mulVec, Matrix.mul_nonsing_inv _ regular, Matrix.one_mulVec]
  let x (j : Nat) : K := if below : j < k then y ⟨j, below⟩ else if j = k then 1 else 0
  have early (j : Fin k) : x j = y j := dif_pos j.isLt
  have last : x k = 1 := by
    simp only [x, dif_neg (Nat.lt_irrefl k), if_true]
  have late (j : Nat) (after : k < j) : x j = 0 := by
    simp only [x, dif_neg (Nat.not_lt.mpr after.le), if_neg (Nat.ne_of_gt after)]
  refine ⟨x, last, late, fun m before => ?_⟩
  have row := congrFun solved ⟨m, before⟩
  rw [Matrix.mulVec, dotProduct] at row
  have terms : ∑ j : Fin k, upperMatrix k packed ⟨m, before⟩ j * y j =
      ∑ j : Fin k, if (j : Nat) < m then 0 else packed m j * x j := by
    apply Finset.sum_congr rfl
    intro j _
    rw [upperMatrix, ite_mul, zero_mul, early]
  rw [terms, sum_from fun j => packed m j * x j] at row
  have cut : ∑ j ∈ Finset.Ico m n, packed m j * x j = ∑ j ∈ Finset.Ico m (k + 1), packed m j * x j := by
    symm
    apply Finset.sum_subset (Finset.Ico_subset_Ico_right inside)
    intro j member outside
    rw [Finset.mem_Ico] at member outside
    rw [late j (by omega), mul_zero]
  rw [cut, Finset.sum_Ico_succ_top before.le, row, last, mul_one, neg_add_cancel]

/-- The factors send it to the next column of what is left. -/
theorem SentToNext.unpacked {x : Nat → K} (sent : SentToNext n k packed x) (inside : k < n) (i : Nat) :
    ∑ j : Fin n, unpacked k packed i j * x j = if i < k then 0 else packed i k := by
  have entry (j : Fin n) : Foundation.unpacked k packed i j * x j =
      ∑ m ∈ Finset.range (min i k), packed i m * (if (j : Nat) < m then 0 else packed m j * x j) +
        if (j : Nat) < min i k then 0 else packed i j * x j := by
    have cut : ∑ m ∈ Finset.range (min i k), packed i m * (if (j : Nat) < m then 0 else packed m j * x j) =
        ∑ m ∈ Finset.range (min (min i k) (j + 1)), packed i m * packed m j * x j := by
      symm
      refine (Finset.sum_congr rfl fun m member => ?_).trans (Finset.sum_subset
        (Finset.range_subset_range.mpr (Nat.min_le_left _ _)) fun m member outside => ?_)
      · rw [Finset.mem_range] at member
        rw [if_neg (by omega), mul_assoc]
      · rw [Finset.mem_range] at member outside
        rw [if_pos (by omega), mul_zero]
    rw [cut, Foundation.unpacked, add_mul, Finset.sum_mul, ite_mul, zero_mul]
  have whole : ∑ j : Fin n, Foundation.unpacked k packed i j * x j =
      ∑ m ∈ Finset.range (min i k), packed i m * ∑ j ∈ Finset.Ico m n, packed m j * x j +
        ∑ j ∈ Finset.Ico (min i k) n, packed i j * x j := by
    simp only [entry, Finset.sum_add_distrib]
    rw [Finset.sum_comm, sum_from fun j => packed i j * x j]
    congr 1
    apply Finset.sum_congr rfl
    intro m _
    rw [← Finset.mul_sum, sum_from fun j => packed m j * x j]
  have finished : ∑ m ∈ Finset.range (min i k), packed i m * ∑ j ∈ Finset.Ico m n, packed m j * x j = 0 := by
    apply Finset.sum_eq_zero
    intro m member
    rw [Finset.mem_range] at member
    rw [sent.rows m (by omega), mul_zero]
  rw [whole, finished, zero_add]
  split
  case isTrue before =>
    rw [Nat.min_eq_left before.le]
    exact sent.rows i before
  case isFalse after =>
    rw [Nat.min_eq_right (Nat.not_lt.mp after), Finset.sum_eq_sum_Ico_succ_bot inside, sent.next, mul_one]
    refine add_eq_left.mpr (Finset.sum_eq_zero fun j member => ?_)
    rw [sent.behind j (Finset.mem_Ico.mp member).1, mul_zero]

/-- An orthogonal matrix keeps the length of a vector. -/
theorem orthogonal_length {m : Nat} {B : Matrix (Fin m) (Fin n) K} (orthogonal : Bᵀ * B = 1)
    (v : Fin n → K) : (B *ᵥ v) ⬝ᵥ (B *ᵥ v) = v ⬝ᵥ v := by
  rw [Matrix.dotProduct_mulVec, ← Matrix.mulVec_transpose, Matrix.mulVec_mulVec, orthogonal,
    Matrix.one_mulVec]

section
variable [LinearOrder K] [IsStrictOrderedRing K]

/-- The next column of what is left of an orthogonal matrix is at least as long as a unit vector. -/
theorem orthogonal_column {B : Matrix (Fin n) (Fin n) K} (orthogonal : Bᵀ * B = 1)
    (factors : ∀ i j : Fin n, B i j = unpacked k packed i j) (inside : k < n)
    (pivots : ∀ j < k, packed j j ≠ 0) : 1 ≤ ∑ i ∈ Finset.Ico k n, packed i k * packed i k := by
  obtain ⟨x, sent⟩ := exists_sentToNext inside pivots
  have image : (B *ᵥ fun j : Fin n => x j) = fun i : Fin n => if (i : Nat) < k then 0 else packed i k := by
    funext i
    rw [← sent.unpacked inside i, Matrix.mulVec, dotProduct]
    exact Finset.sum_congr rfl fun j _ => by rw [factors]
  have length := orthogonal_length orthogonal fun j : Fin n => x j
  rw [image] at length
  have column : ∑ i ∈ Finset.Ico k n, packed i k * packed i k =
      (fun i : Fin n => if (i : Nat) < k then 0 else packed i k) ⬝ᵥ
        fun i : Fin n => if (i : Nat) < k then 0 else packed i k := by
    rw [← sum_from, dotProduct]
    apply Finset.sum_congr rfl
    intro i _
    split
    · rw [mul_zero]
    · rfl
  rw [column, length]
  have one : x k * x k = 1 := by rw [sent.next, mul_one]
  calc 1 = x (⟨k, inside⟩ : Fin n) * x (⟨k, inside⟩ : Fin n) := one.symm
    _ ≤ ∑ j : Fin n, x j * x j := Finset.single_le_sum (f := fun j : Fin n => x j * x j)
        (fun j _ => mul_self_nonneg (x j)) (Finset.mem_univ _)

end

/-! Elimination with partial pivoting on an orthogonal matrix. -/

namespace Pivoted

variable [LinearOrder K] {stage : Nat} {refused : K → Prop} {A : Nat → Nat → K} {order : Nat → Nat}

/-- The rows in their positions are a permutation. -/
theorem permutes (pivoted : Pivoted n refused A stage order packed) :
    ∃ positions : Equiv.Perm (Fin n), ∀ i, (positions i : Nat) = order i := by
  induction pivoted with
  | start => exact ⟨Equiv.refl _, fun _ => rfl⟩
  | @step stage best order packed reached inside pivot accepted ih =>
    obtain ⟨positions, same⟩ := ih
    refine ⟨(Equiv.swap ⟨stage, inside⟩ ⟨best, pivot.inside⟩).trans positions, fun i => ?_⟩
    rw [Equiv.trans_apply, same, Function.comp_apply]
    congr 1
    rw [Equiv.swap_apply_def, Equiv.swap_apply_def]
    simp only [Fin.ext_iff]
    split_ifs <;> rfl

variable [IsStrictOrderedRing K] (refusal : Refusal refused)
  (orthogonal : (corner n A)ᵀ * corner n A = 1)
include refusal orthogonal

/-- In every column that is reached an entry is larger than a small tolerance. -/
theorem exists_large (pivoted : Pivoted n refused A stage order packed) (inside : stage < n)
    {tolerance : K} (small : n * (tolerance * tolerance) < 1) :
    ∃ t, stage ≤ t ∧ t < n ∧ tolerance < |packed t stage| := by
  obtain ⟨positions, same⟩ := pivoted.permutes
  have permuted : ((corner n A).submatrix positions id)ᵀ * (corner n A).submatrix positions id = 1 := by
    rw [Matrix.transpose_submatrix, Matrix.submatrix_mul_equiv, orthogonal, Matrix.submatrix_id_id]
  have long : 1 ≤ ∑ i ∈ Finset.Ico stage n, packed i stage * packed i stage := by
    refine orthogonal_column permuted (fun i j => ?_) inside fun j before =>
      refusal.nonzero (pivoted.pivots before)
    rw [pivoted.product refusal i.isLt, ← same i]
    rfl
  by_contra none_large
  push Not at none_large
  have squares : ∑ i ∈ Finset.Ico stage n, packed i stage * packed i stage ≤
      (Finset.Ico stage n).card • (tolerance * tolerance) := by
    apply Finset.sum_le_card_nsmul
    intro i member
    obtain ⟨above, below⟩ := Finset.mem_Ico.mp member
    rw [← abs_mul_abs_self]
    exact mul_self_le_mul_self (abs_nonneg _) (none_large i above below)
  have fewer : ((Finset.Ico stage n).card : K) ≤ n := by
    rw [Nat.card_Ico]
    exact_mod_cast Nat.sub_le n stage
  rw [nsmul_eq_mul] at squares
  have bounded := mul_le_mul_of_nonneg_right fewer (mul_self_nonneg tolerance)
  exact absurd small (not_lt.mpr (long.trans (squares.trans bounded)))

/-- All pivots are larger than the tolerance. -/
theorem accepted_large (pivoted : Pivoted n refused A stage order packed) {tolerance : K}
    (small : n * (tolerance * tolerance) < 1) :
    Pivoted n (fun pivot => |pivot| ≤ tolerance) A stage order packed := by
  induction pivoted with
  | start => exact start
  | step reached inside pivot accepted ih =>
    refine step ih inside pivot (not_le.mpr ?_)
    obtain ⟨t, above, below, large⟩ := reached.exists_large refusal orthogonal inside small
    exact large.trans_le (pivot.largest t above below)

end Pivoted

/-- Elimination with partial pivoting stalls on no orthogonal matrix. -/
theorem orthogonal_not_stalls [LinearOrder K] [IsStrictOrderedRing K] {A : Nat → Nat → K}
    (orthogonal : (corner n A)ᵀ * corner n A = 1) {tolerance : K} (positive : 0 < tolerance)
    (small : n * (tolerance * tolerance) < 1) : ¬ Stalls n tolerance A := by
  rintro ⟨stage, inside, order, packed, pivoted, refused⟩
  obtain ⟨t, above, below, large⟩ :=
    pivoted.exists_large (refusal_tiny positive) orthogonal (by omega) small
  exact absurd (refused t above below) (not_lt.mpr large.le)

end Simuless.Foundation
