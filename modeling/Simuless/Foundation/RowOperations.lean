import Mathlib.LinearAlgebra.Matrix.DotProduct
import Mathlib.LinearAlgebra.Matrix.ToLinearEquiv
import Simuless.Foundation.Triangular

/-! Elimination in natural order.

A multiple of a row is only taken off rows below it. That leaves the solutions
of a system and all leading principal minors as they are, so that the minors of
the matrix at the start tell which pivots are zero.
-/

set_option autoImplicit false

namespace Simuless.Foundation

open scoped Matrix

variable {K : Type} [Field K]

/-- The first rows and columns. -/
def corner (k : Nat) (A : Nat → Nat → K) : Matrix (Fin k) (Fin k) K := fun t c => A t c

/-- A multiple of row `j` taken off row `i`. -/
def subtractRow (i j : Nat) (factor : K) (A : Nat → Nat → K) (t c : Nat) : K :=
  if t = i then A i c - factor * A j c else A t c

def subtractEntry (i j : Nat) (factor : K) (b : Nat → K) (t : Nat) : K :=
  if t = i then b i - factor * b j else b t

/-- The leading principal minors are not zero. -/
def RegularCorners (n : Nat) (A : Nat → Nat → K) : Prop := ∀ k ≤ n, (corner k A).det ≠ 0

instance [DecidableEq K] (n : Nat) (A : Nat → Nat → K) : Decidable (RegularCorners n A) :=
  inferInstanceAs (Decidable (∀ k ≤ n, (corner k A).det ≠ 0))

/-- The first columns are zero below the diagonal. -/
def Cleared (n count : Nat) (A : Nat → Nat → K) : Prop := ∀ t < n, ∀ c < count, c < t → A t c = 0

section
variable {n k i j : Nat} {A : Nat → Nat → K} {b : Nat → K}

omit [Field K] in
theorem corner_congr {A' : Nat → Nat → K} (same : ∀ t < k, ∀ c < k, A' t c = A t c) :
    corner k A' = corner k A := by
  ext t c
  exact same t t.isLt c c.isLt

theorem det_corner_subtractRow (before : j < i) (factor : K) :
    (corner k (subtractRow i j factor A)).det = (corner k A).det := by
  by_cases inside : i < k
  · let row : Fin k := ⟨i, inside⟩
    let other : Fin k := ⟨j, before.trans inside⟩
    have apart : row ≠ other := fun same => Nat.ne_of_gt before (Fin.mk.inj same)
    have changed : corner k (subtractRow i j factor A) =
        (corner k A).updateRow row (corner k A row + -factor • corner k A other) := by
      ext t c
      rw [Matrix.updateRow_apply, corner, subtractRow]
      by_cases here : t = row
      · have index : (t : Nat) = i := congrArg Fin.val here
        rw [if_pos here, if_pos index, Pi.add_apply, Pi.smul_apply, smul_eq_mul, neg_mul, sub_eq_add_neg]
        rfl
      · have index : (t : Nat) ≠ i := fun same => here (Fin.ext same)
        rw [if_neg here, if_neg index]
        rfl
    rw [changed, Matrix.det_updateRow_add_smul_self _ apart]
  · congr 1
    refine corner_congr fun t inRow c _ => if_neg ?_
    rintro rfl
    exact inside inRow

theorem solutions_subtractRow (before : j < i) (inside : i < n) (factor : K) (x : Fin n → K) :
    (corner n (subtractRow i j factor A) *ᵥ x = fun t : Fin n => subtractEntry i j factor b t) ↔
      corner n A *ᵥ x = fun t : Fin n => b t := by
  let other : Fin n := ⟨j, before.trans inside⟩
  have row (t : Fin n) : (corner n (subtractRow i j factor A) *ᵥ x) t =
      if (t : Nat) = i then (corner n A *ᵥ x) t - factor * (corner n A *ᵥ x) other
      else (corner n A *ᵥ x) t := by
    by_cases here : (t : Nat) = i
    · simp only [Matrix.mulVec, dotProduct, corner, subtractRow, here, if_true, sub_mul, mul_assoc,
        Finset.sum_sub_distrib, Finset.mul_sum, other]
    · simp only [Matrix.mulVec, dotProduct, corner, subtractRow, if_neg here]
  have kept : (other : Nat) ≠ i := Nat.ne_of_lt before
  constructor
  · intro solved
    have above := congrFun solved other
    rw [row, if_neg kept, subtractEntry, if_neg kept] at above
    funext t
    have equation := congrFun solved t
    rw [row, subtractEntry] at equation
    by_cases here : (t : Nat) = i
    · rw [if_pos here, if_pos here, above, sub_left_inj] at equation
      rw [equation, here]
    · rwa [if_neg here, if_neg here] at equation
  · intro solved
    funext t
    rw [row, solved, subtractEntry]
    by_cases here : (t : Nat) = i
    · simp only [here, if_true, other]
    · rw [if_neg here, if_neg here]

/-- Where the first columns are cleared, the pivots multiply to the minors. -/
theorem det_corner_cleared {count : Nat} (cleared : Cleared n count A) (inside : k ≤ n)
    (width : k ≤ count + 1) : (corner k A).det = ∏ t ∈ Finset.range k, A t t := by
  have triangular : (corner k A).IsUpperTriangular := fun t c before => by
    have order : (c : Nat) < t := before
    exact cleared t (t.isLt.trans_le inside) c (by omega) order
  rw [Matrix.det_of_isUpperTriangular triangular, Finset.prod_range]
  rfl

/-- A pivot is zero only where a minor is. -/
theorem pivot_of_corner {count : Nat} (cleared : Cleared n count A) (inside : k < n) (width : k ≤ count)
    (regular : (corner (k + 1) A).det ≠ 0) : A k k ≠ 0 := by
  rw [det_corner_cleared cleared inside (Nat.succ_le_succ width), Finset.prod_range_succ] at regular
  exact right_ne_zero_of_mul regular

/-- Behind minors that are not zero, a minor is zero only where the pivot is. -/
theorem corner_of_pivot {count : Nat} (cleared : Cleared n count A) (inside : k < n) (width : k ≤ count)
    (before : (corner k A).det ≠ 0) (singular : (corner (k + 1) A).det = 0) : A k k = 0 := by
  rw [det_corner_cleared cleared inside (Nat.succ_le_succ width), Finset.prod_range_succ,
    ← det_corner_cleared cleared inside.le (width.trans (Nat.le_succ _))] at singular
  exact (mul_eq_zero.mp singular).resolve_left before

/-- The first minor that is zero. -/
theorem first_singular (singular : ¬ RegularCorners n A) :
    ∃ k < n, (∀ t ≤ k, (corner t A).det ≠ 0) ∧ (corner (k + 1) A).det = 0 := by
  classical
  rw [RegularCorners] at singular
  push Not at singular
  obtain ⟨inside, zero⟩ := Nat.find_spec singular
  have smallest (t : Nat) (before : t < Nat.find singular) : (corner t A).det ≠ 0 := fun none =>
    Nat.find_min singular before ⟨before.le.trans inside, none⟩
  obtain ⟨k, same⟩ : ∃ k, Nat.find singular = k + 1 := by
    apply Nat.exists_eq_succ_of_ne_zero
    intro none
    rw [none, Matrix.det_isEmpty] at zero
    exact one_ne_zero zero
  rw [same] at inside zero smallest
  exact ⟨k, inside, fun t below => smallest t (Nat.lt_succ_of_le below), zero⟩

end

/-- A normal matrix is regular behind a positive shift of its diagonal. -/
theorem det_regularised_ne_zero [LinearOrder K] [IsStrictOrderedRing K] {m k : Nat}
    (B : Matrix (Fin m) (Fin k) K) {alpha : K} (positive : 0 < alpha) :
    (Bᵀ * B + alpha • (1 : Matrix (Fin k) (Fin k) K)).det ≠ 0 := by
  intro singular
  obtain ⟨v, nonzero, kernel⟩ := Matrix.exists_mulVec_eq_zero_iff.mpr singular
  have energy : v ⬝ᵥ ((Bᵀ * B + alpha • (1 : Matrix (Fin k) (Fin k) K)) *ᵥ v) =
      (B *ᵥ v) ⬝ᵥ (B *ᵥ v) + alpha * (v ⬝ᵥ v) := by
    rw [Matrix.add_mulVec, dotProduct_add, Matrix.smul_mulVec, Matrix.one_mulVec, dotProduct_smul,
      smul_eq_mul, ← Matrix.mulVec_mulVec, Matrix.dotProduct_mulVec, Matrix.vecMul_transpose]
  rw [kernel, dotProduct_zero] at energy
  have square (u : Fin k → K) : 0 ≤ u ⬝ᵥ u := Finset.sum_nonneg fun t _ => mul_self_nonneg (u t)
  have square' (u : Fin m → K) : 0 ≤ u ⬝ᵥ u := Finset.sum_nonneg fun t _ => mul_self_nonneg (u t)
  have vanishes : v ⬝ᵥ v = 0 := by
    by_contra other
    have more : 0 < alpha * (v ⬝ᵥ v) :=
      mul_pos positive (lt_of_le_of_ne (square v) (Ne.symm other))
    exact absurd energy (ne_of_lt (add_pos_of_nonneg_of_pos (square' _) more))
  exact nonzero (dotProduct_self_eq_zero.mp vanishes)

end Simuless.Foundation
