import Mathlib.Analysis.Real.Sqrt
import Mathlib.LinearAlgebra.Matrix.NonsingularInverse
import Mathlib.Tactic.LinearCombination

/-! Rotations that make two columns orthogonal.

The products of the columns with each other are the entries of a matrix of their own.
A rotation in the plane of two columns moves what the squares of its entries
add up to between the diagonal and the two entries of the pair only. So a
rotation after which the pair is orthogonal makes the rest smaller by what the
entries of the pair were.
-/

set_option autoImplicit false

namespace Simuless.Foundation

open scoped Matrix

variable {K : Type} [CommRing K] {m n : Nat} {M : Matrix (Fin m) (Fin n) K} {i j p q : Fin n}

/-- The products of the columns. -/
def products (M : Matrix (Fin m) (Fin n) K) : Matrix (Fin n) (Fin n) K := Mᵀ * M

theorem products_apply : products M p q = ∑ k, M k p * M k q := Matrix.mul_apply

theorem products_comm : products M p q = products M q p := by
  rw [products_apply, products_apply]
  exact Finset.sum_congr rfl fun k _ => mul_comm _ _

/-- The squares of the entries apart from the diagonal. -/
def offDiagonal (G : Matrix (Fin n) (Fin n) K) : K :=
  ∑ p, ∑ q, if p = q then 0 else G p q * G p q

theorem offDiagonal_eq (G : Matrix (Fin n) (Fin n) K) :
    offDiagonal G = (Gᵀ * G).trace - ∑ p, G p p * G p p := by
  have squares : (Gᵀ * G).trace = ∑ p, ∑ q, G p q * G p q := by
    rw [Finset.sum_comm]
    rfl
  rw [offDiagonal, squares, ← Finset.sum_sub_distrib]
  apply Finset.sum_congr rfl
  intro p _
  rw [← Finset.add_sum_erase _ _ (Finset.mem_univ p), if_pos rfl, zero_add,
    ← Finset.sum_erase_eq_sub (Finset.mem_univ p)]
  apply Finset.sum_congr rfl
  intro q other
  exact if_neg (Finset.ne_of_mem_erase other).symm

section
variable [LinearOrder K] [IsStrictOrderedRing K]

theorem offDiagonal_nonneg (G : Matrix (Fin n) (Fin n) K) : 0 ≤ offDiagonal G := by
  refine Finset.sum_nonneg fun p _ => Finset.sum_nonneg fun q _ => ?_
  split
  · exact le_rfl
  · exact mul_self_nonneg _

theorem offDiagonal_zero_iff (G : Matrix (Fin n) (Fin n) K) :
    offDiagonal G = 0 ↔ ∀ p q, p ≠ q → G p q = 0 := by
  have entries (p : Fin n) : ∀ q ∈ Finset.univ, 0 ≤ if p = q then 0 else G p q * G p q := by
    intro q _
    split
    · exact le_rfl
    · exact mul_self_nonneg _
  rw [offDiagonal, Finset.sum_eq_zero_iff_of_nonneg fun p _ => Finset.sum_nonneg (entries p)]
  constructor
  · intro zero p q apart
    have entry := (Finset.sum_eq_zero_iff_of_nonneg (entries p)).mp (zero p (Finset.mem_univ p)) q
      (Finset.mem_univ q)
    rw [if_neg apart] at entry
    exact mul_self_eq_zero.mp entry
  · intro zero p _
    refine Finset.sum_eq_zero fun q _ => ?_
    split
    case isTrue => rfl
    case isFalse apart => rw [zero p q apart, mul_zero]

end

/-- In another order the columns have the same products. -/
theorem offDiagonal_submatrix (M : Matrix (Fin m) (Fin n) K) (order : Equiv.Perm (Fin n)) :
    offDiagonal (products (M.submatrix id order)) = offDiagonal (products M) := by
  let square (p q : Fin n) : K := if p = q then 0 else products M p q * products M p q
  calc offDiagonal (products (M.submatrix id order)) = ∑ p, ∑ q, square (order p) (order q) := by
        refine Finset.sum_congr rfl fun p _ => Finset.sum_congr rfl fun q _ => ?_
        exact if_congr order.injective.eq_iff.symm rfl rfl
    _ = ∑ p, ∑ q, square (order p) q :=
        Finset.sum_congr rfl fun p _ => Equiv.sum_comp order (square (order p))
    _ = offDiagonal (products M) := Equiv.sum_comp order fun p => ∑ q, square p q

/-! One rotation. -/

/-- The matrix with two columns rotated. -/
def columnsRotated (M : Matrix (Fin m) (Fin n) K) (i j : Fin n) (cs sn : K) : Matrix (Fin m) (Fin n) K :=
  Matrix.of fun k q =>
    if q = i then cs * M k i - sn * M k j else if q = j then sn * M k i + cs * M k j else M k q

def planeRotation (i j : Fin n) (cs sn : K) : Matrix (Fin n) (Fin n) K := columnsRotated 1 i j cs sn

theorem mul_planeRotation (M : Matrix (Fin m) (Fin n) K) (cs sn : K) :
    M * planeRotation i j cs sn = columnsRotated M i j cs sn := by
  have unit (k : Fin m) (t : Fin n) : ∑ p, M k p * (1 : Matrix (Fin n) (Fin n) K) p t = M k t :=
    congrFun (congrFun (Matrix.mul_one M) k) t
  ext k q
  rw [Matrix.mul_apply]
  simp only [planeRotation, columnsRotated, Matrix.of_apply]
  rw [← unit k i, ← unit k j, ← unit k q]
  split
  · rw [Finset.mul_sum, Finset.mul_sum, ← Finset.sum_sub_distrib]
    exact Finset.sum_congr rfl fun p _ => by ring
  · split
    · rw [Finset.mul_sum, Finset.mul_sum, ← Finset.sum_add_distrib]
      exact Finset.sum_congr rfl fun p _ => by ring
    · rfl

/-- No rotation. -/
theorem rotated_zero (M : Matrix (Fin m) (Fin n) K) : columnsRotated M i j 1 0 = M := by
  ext k q
  rw [columnsRotated, Matrix.of_apply]
  split
  case isTrue same => rw [same, one_mul, zero_mul, sub_zero]
  case isFalse =>
    split
    case isTrue same => rw [same, one_mul, zero_mul, zero_add]
    case isFalse => rfl

section
variable {cs sn : K}

theorem planeRotation_orthogonal (apart : i ≠ j) (unit : cs * cs + sn * sn = 1) :
    (planeRotation i j cs sn)ᵀ * planeRotation i j cs sn = 1 := by
  ext p q
  rw [mul_planeRotation]
  simp only [columnsRotated, planeRotation, Matrix.transpose_apply, Matrix.of_apply, Matrix.one_apply]
  grind

/-- A product with a matrix whose inverse is its transpose keeps the columns of such a matrix. -/
theorem orthogonal_mul {V J : Matrix (Fin n) (Fin n) K} (orthogonal : Vᵀ * V = 1) (turns : Jᵀ * J = 1) :
    (V * J)ᵀ * (V * J) = 1 := by
  rw [Matrix.transpose_mul, Matrix.mul_assoc, ← Matrix.mul_assoc Vᵀ, orthogonal, Matrix.one_mul, turns]

theorem products_mul (M : Matrix (Fin m) (Fin n) K) (J : Matrix (Fin n) (Fin n) K) :
    products (M * J) = Jᵀ * products M * J := by
  simp only [products, Matrix.transpose_mul, Matrix.mul_assoc]

/-- The squares of all entries stay what they are together. -/
theorem products_total {J : Matrix (Fin n) (Fin n) K} (turns : Jᵀ * J = 1) (M : Matrix (Fin m) (Fin n) K) :
    ((products (M * J))ᵀ * products (M * J)).trace = ((products M)ᵀ * products M).trace := by
  have back : J * Jᵀ = 1 := mul_eq_one_comm.mp turns
  have product : (products (M * J))ᵀ * products (M * J) = Jᵀ * ((products M)ᵀ * products M * J) := by
    rw [products_mul]
    simp only [Matrix.transpose_mul, Matrix.transpose_transpose, Matrix.mul_assoc]
    rw [← Matrix.mul_assoc J, back, Matrix.one_mul]
  rw [product, Matrix.trace_mul_comm, Matrix.mul_assoc, back, Matrix.mul_one]

end

/-! The pair. -/

section
variable (M) (cs sn : K)

theorem rotated_first (k : Fin m) : columnsRotated M i j cs sn k i = cs * M k i - sn * M k j := if_pos rfl

theorem rotated_second (apart : i ≠ j) (k : Fin m) :
    columnsRotated M i j cs sn k j = sn * M k i + cs * M k j := (if_neg apart.symm).trans (if_pos rfl)

theorem rotated_other (first : q ≠ i) (second : q ≠ j) (k : Fin m) :
    columnsRotated M i j cs sn k q = M k q := (if_neg first).trans (if_neg second)

theorem rotated_firsts : products (columnsRotated M i j cs sn) i i =
    cs * cs * products M i i - 2 * (cs * sn * products M i j) + sn * sn * products M j j := by
  simp only [products_apply, rotated_first, Finset.mul_sum, ← Finset.sum_sub_distrib,
    ← Finset.sum_add_distrib]
  exact Finset.sum_congr rfl fun k _ => by ring

theorem rotated_seconds (apart : i ≠ j) : products (columnsRotated M i j cs sn) j j =
    sn * sn * products M i i + 2 * (cs * sn * products M i j) + cs * cs * products M j j := by
  simp only [products_apply, rotated_second M cs sn apart, Finset.mul_sum, ← Finset.sum_add_distrib]
  exact Finset.sum_congr rfl fun k _ => by ring

theorem rotated_pair (apart : i ≠ j) : products (columnsRotated M i j cs sn) i j =
    cs * sn * (products M i i - products M j j) + (cs * cs - sn * sn) * products M i j := by
  simp only [products_apply, rotated_first, rotated_second M cs sn apart, Finset.mul_sum,
    ← Finset.sum_sub_distrib, ← Finset.sum_add_distrib]
  exact Finset.sum_congr rfl fun k _ => by ring

theorem rotated_others (first : q ≠ i) (second : q ≠ j) :
    products (columnsRotated M i j cs sn) q q = products M q q := by
  simp only [products_apply, rotated_other M cs sn first second]

variable {cs sn}

/-- What a rotation moves. -/
theorem offDiagonal_rotated (apart : i ≠ j) (unit : cs * cs + sn * sn = 1) :
    offDiagonal (products (columnsRotated M i j cs sn)) = offDiagonal (products M) -
      2 * (products M i j * products M i j) +
        2 * (products (columnsRotated M i j cs sn) i j * products (columnsRotated M i j cs sn) i j) := by
  let squares (N : Matrix (Fin m) (Fin n) K) (p : Fin n) : K := products N p p * products N p p
  let change (p : Fin n) : K := squares (columnsRotated M i j cs sn) p - squares M p
  have elsewhere (p : Fin n) (other : p ≠ i ∧ p ≠ j) : change p = 0 := by
    simp only [change, squares, rotated_others M cs sn other.1 other.2, sub_self]
  have both : ∑ p, change p = change i + change j := Fintype.sum_eq_add i j apart elsewhere
  have block : change i + change j = 2 * (products M i j * products M i j) -
      2 * (products (columnsRotated M i j cs sn) i j * products (columnsRotated M i j cs sn) i j) := by
    simp only [change, squares, rotated_firsts, rotated_seconds M cs sn apart, rotated_pair M cs sn apart]
    linear_combination (cs * cs + sn * sn + 1) * (products M i i * products M i i +
      products M j j * products M j j + 2 * (products M i j * products M i j)) * unit
  have total := products_total (planeRotation_orthogonal apart unit) M
  rw [mul_planeRotation] at total
  rw [Finset.sum_sub_distrib] at both
  rw [offDiagonal_eq, offDiagonal_eq, total]
  linear_combination -both - block

end

/-! The angle. -/

section
variable {F : Type} [Field F] {M : Matrix (Fin m) (Fin n) F}

/-- The tangent solves an equation of degree two. -/
theorem rotated_orthogonal (apart : i ≠ j) {l t cs : F}
    (middle : products M j j - products M i i = 2 * products M i j * l) (tangent : t * t + 2 * l * t = 1) :
    products (columnsRotated M i j cs (cs * t)) i j = 0 := by
  rw [rotated_pair M cs (cs * t) apart]
  linear_combination -(cs * cs * products M i j) * tangent - cs * cs * t * middle

theorem tangent_solves (l : ℝ) {sign : ℝ} (unit : sign * sign = 1) (same : 0 ≤ sign * l) :
    let r := sign * l + Real.sqrt (1 + l * l)
    0 < r ∧ sign / r * (sign / r) + 2 * l * (sign / r) = 1 := by
  intro r
  have positive : 0 < 1 + l * l := add_pos_of_pos_of_nonneg one_pos (mul_self_nonneg l)
  have square := Real.mul_self_sqrt positive.le
  have root := Real.sqrt_pos.mpr positive
  have total : 0 < r := add_pos_of_nonneg_of_pos same root
  have nonzero : r ≠ 0 := total.ne'
  refine ⟨total, ?_⟩
  have equation : sign * sign + 2 * l * sign * r = r * r := by
    simp only [r]
    linear_combination (1 + l * l) * unit - square
  field_simp
  linear_combination equation

end

end Simuless.Foundation
