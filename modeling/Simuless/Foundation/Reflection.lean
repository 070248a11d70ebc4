import Simuless.Foundation.OrthogonalPivots

/-! Triangular form by reflections.

A reflection that sends a column to a multiple of a unit vector leaves the
columns before it alone. Reflections keep what depends on the columns through
their lengths and angles only, so that it can be read off the triangular form
whether the first columns are independent.
-/

set_option autoImplicit false

namespace Simuless.Foundation

open scoped Matrix

variable {K : Type} [Field K] {m n k : Nat}

/-! One reflection. -/

/-- The reflection at the hyperplane that a unit vector is orthogonal to. -/
def reflector (w : Fin m → K) : Matrix (Fin m) (Fin m) K := 1 - 2 • Matrix.vecMulVec w w

section
variable {w x : Fin m → K}

theorem reflector_mulVec (w x : Fin m → K) : reflector w *ᵥ x = x - (2 * (w ⬝ᵥ x)) • w := by
  rw [reflector, Matrix.sub_mulVec, Matrix.one_mulVec, two_nsmul, Matrix.add_mulVec,
    Matrix.vecMulVec_mulVec, op_smul_eq_smul, ← add_smul, ← two_mul]

theorem reflector_transpose (w : Fin m → K) : (reflector w)ᵀ = reflector w := by
  rw [reflector, Matrix.transpose_sub, Matrix.transpose_one, Matrix.transpose_smul,
    Matrix.transpose_vecMulVec]

/-- Reflecting twice changes nothing. -/
theorem reflector_twice (unit : w ⬝ᵥ w = 1) : reflector w * reflector w = 1 := by
  rw [← Matrix.mulVec_injective.eq_iff]
  funext x
  rw [← Matrix.mulVec_mulVec, Matrix.one_mulVec, reflector_mulVec w x, reflector_mulVec, dotProduct_sub,
    dotProduct_smul, unit]
  funext i
  simp only [Pi.sub_apply, Pi.smul_apply, smul_eq_mul]
  ring

theorem reflector_orthogonal (unit : w ⬝ᵥ w = 1) : (reflector w)ᵀ * reflector w = 1 := by
  rw [reflector_transpose, reflector_twice unit]

/-- A vector in the hyperplane stays where it is. -/
theorem reflector_fixes (apart : w ⬝ᵥ x = 0) : reflector w *ᵥ x = x := by
  rw [reflector_mulVec, apart, mul_zero, zero_smul, sub_zero]

end

/-- The unit vector of the reflection that clears a column behind entry `k`. -/
structure Householder (k : Fin m) (x : Fin m → K) (s r : K) (w : Fin m → K) : Prop where
  length : ∑ i : Fin m, (if i < k then 0 else x i * x i) = s * s
  square : r * r = 2 * s * (x k + s)
  nonzero : r ≠ 0
  before : ∀ i, i < k → w i = 0
  top : w k = (x k + s) / r
  below : ∀ i, k < i → w i = x i / r

namespace Householder

variable {k : Fin m} {x w : Fin m → K} {s r : K} (householder : Householder k x s r w)
include householder

/-- The vector times its length before it was scaled. -/
theorem scaled (i : Fin m) : r * w i = if i < k then 0 else if i = k then x k + s else x i := by
  rcases lt_trichotomy i k with before | rfl | below
  · rw [if_pos before, householder.before i before, mul_zero]
  · rw [if_neg (lt_irrefl i), if_pos rfl, householder.top, mul_div_cancel₀ _ householder.nonzero]
  · rw [if_neg (not_lt.mpr below.le), if_neg below.ne', householder.below i below,
      mul_div_cancel₀ _ householder.nonzero]

theorem unit : w ⬝ᵥ w = 1 := by
  have squares : r * r * (w ⬝ᵥ w) = r * r := by
    calc r * r * (w ⬝ᵥ w) = ∑ i : Fin m, (r * w i) * (r * w i) := by
          rw [dotProduct, Finset.mul_sum]
          exact Finset.sum_congr rfl fun i _ => by ring
      _ = ∑ i : Fin m, ((if i < k then 0 else x i * x i) + if i = k then s * (2 * x k + s) else 0) := by
          apply Finset.sum_congr rfl
          intro i _
          rw [householder.scaled]
          rcases lt_trichotomy i k with before | rfl | below
          · rw [if_pos before, if_pos before, if_neg before.ne, mul_zero, add_zero]
          · rw [if_neg (lt_irrefl i), if_pos rfl, if_neg (lt_irrefl i), if_pos rfl]
            ring
          · rw [if_neg (not_lt.mpr below.le), if_neg below.ne', if_neg (not_lt.mpr below.le),
              if_neg below.ne', add_zero]
      _ = r * r := by
          rw [Finset.sum_add_distrib, householder.length, Finset.sum_ite_eq' Finset.univ k,
            if_pos (Finset.mem_univ k), householder.square]
          ring
  exact mul_left_cancel₀ (mul_ne_zero householder.nonzero householder.nonzero)
    (squares.trans (mul_one _).symm)

/-- The column has half the length along the vector. -/
theorem along : 2 * (w ⬝ᵥ x) = r := by
  have product : r * (w ⬝ᵥ x) = s * (x k + s) := by
    calc r * (w ⬝ᵥ x) = ∑ i : Fin m, (r * w i) * x i := by
          rw [dotProduct, Finset.mul_sum]
          exact Finset.sum_congr rfl fun i _ => by ring
      _ = ∑ i : Fin m, ((if i < k then 0 else x i * x i) + if i = k then s * x k else 0) := by
          apply Finset.sum_congr rfl
          intro i _
          rw [householder.scaled]
          rcases lt_trichotomy i k with before | rfl | below
          · rw [if_pos before, if_pos before, if_neg before.ne, zero_mul, add_zero]
          · rw [if_neg (lt_irrefl i), if_pos rfl, if_neg (lt_irrefl i), if_pos rfl]
            ring
          · rw [if_neg (not_lt.mpr below.le), if_neg below.ne', if_neg (not_lt.mpr below.le),
              if_neg below.ne', add_zero]
      _ = s * (x k + s) := by
          rw [Finset.sum_add_distrib, householder.length, Finset.sum_ite_eq' Finset.univ k,
            if_pos (Finset.mem_univ k)]
          ring
  refine mul_left_cancel₀ householder.nonzero ?_
  rw [householder.square, mul_left_comm, product]
  ring

/-- The column becomes a multiple of a unit vector from entry `k` on. -/
theorem image (i : Fin m) :
    (reflector w *ᵥ x) i = if i < k then x i else if i = k then -s else 0 := by
  rw [reflector_mulVec, householder.along, Pi.sub_apply, Pi.smul_apply, smul_eq_mul, householder.scaled]
  split
  · rw [sub_zero]
  · split
    case isTrue here =>
      rw [here]
      ring
    case isFalse => exact sub_self _

/-- A column that is zero from entry `k` on stays as it is. -/
theorem fixes {y : Fin m → K} (zero : ∀ i, k ≤ i → y i = 0) : reflector w *ᵥ y = y := by
  apply reflector_fixes
  apply Finset.sum_eq_zero
  intro i _
  rcases lt_or_ge i k with before | behind
  · rw [householder.before i before, zero_mul]
  · rw [zero i behind, mul_zero]

end Householder

/-! Independent columns. -/

/-- The first columns are linearly independent. -/
def LeadingIndependent (count : Nat) (A : Matrix (Fin m) (Fin n) K) : Prop :=
  ∀ c : Fin n → K, (∀ j : Fin n, count ≤ j → c j = 0) → A *ᵥ c = 0 → c = 0

theorem LeadingIndependent.fewer {count fewer : Nat} {A : Matrix (Fin m) (Fin n) K}
    (independent : LeadingIndependent count A) (order : fewer ≤ count) : LeadingIndependent fewer A :=
  fun c supported => independent c fun j behind => supported j (order.trans behind)

/-- An orthogonal factor does not matter. -/
theorem leadingIndependent_mul {count : Nat} {U : Matrix (Fin m) (Fin m) K} (orthogonal : Uᵀ * U = 1)
    (A : Matrix (Fin m) (Fin n) K) : LeadingIndependent count (U * A) ↔ LeadingIndependent count A := by
  have same (c : Fin n → K) : (U * A) *ᵥ c = 0 ↔ A *ᵥ c = 0 := by
    rw [← Matrix.mulVec_mulVec]
    constructor
    · intro zero
      rw [← Matrix.one_mulVec (A *ᵥ c), ← orthogonal, ← Matrix.mulVec_mulVec, zero, Matrix.mulVec_zero]
    · intro zero
      rw [zero, Matrix.mulVec_zero]
  exact forall₂_congr fun c _ => by rw [same]

section
variable {R : Nat → Nat → K} {count : Nat}

/-- The matrix of the first rows and columns. -/
def rectangleOf (m n : Nat) (R : Nat → Nat → K) : Matrix (Fin m) (Fin n) K := fun i j => R i j

/-- In triangular form the columns are independent if no diagonal entry is zero. -/
theorem cleared_independent (cleared : Cleared m count R) (rows : count ≤ m)
    (diagonal : ∀ j < count, R j j ≠ 0) : LeadingIndependent count (rectangleOf m n R) := by
  intro c supported zero
  -- from the last column on down
  have entries (left : Nat) : ∀ j : Fin n, count ≤ j + left → c j = 0 := by
    induction left with
    | zero => exact supported
    | succ left ih =>
      intro j close
      rcases Nat.lt_or_ge j count with inside | outside
      · have row := congrFun zero ⟨j, inside.trans_le rows⟩
        rw [Matrix.mulVec, dotProduct, Finset.sum_eq_single j] at row
        · exact (mul_eq_zero.mp row).resolve_left (diagonal j inside)
        · intro t _ other
          rcases Nat.lt_or_gt_of_ne (fun same => other (Fin.ext same)) with before | behind
          · rw [rectangleOf, cleared j (inside.trans_le rows) t (before.trans inside) before, zero_mul]
          · rw [ih t (by omega), mul_zero]
        · exact fun outside => absurd (Finset.mem_univ j) outside
      · exact supported j outside
  funext j
  exact entries count j (Nat.le_add_left count j)

/-- A column that is zero from its diagonal on depends on the columns before it. -/
theorem cleared_dependent (cleared : Cleared m k R) (inside : k < n) (diagonal : ∀ j < k, R j j ≠ 0)
    (zero : ∀ i < m, k ≤ i → R i k = 0) : ¬ LeadingIndependent (k + 1) (rectangleOf m n R) := by
  obtain ⟨x, sent⟩ := exists_sentToNext inside diagonal
  intro independent
  have vanishes : rectangleOf m n R *ᵥ (fun j : Fin n => x j) = 0 := by
    funext i
    have terms : (rectangleOf m n R *ᵥ fun j : Fin n => x j) i =
        ∑ j : Fin n, if (j : Nat) < min (i : Nat) k then 0 else R i j * x j := by
      rw [Matrix.mulVec, dotProduct]
      apply Finset.sum_congr rfl
      intro j _
      split
      case isTrue left => rw [rectangleOf, cleared i i.isLt j (by omega) (by omega), zero_mul]
      case isFalse => rfl
    rw [terms, sum_from fun j => R i j * x j]
    rcases Nat.lt_or_ge i k with before | behind
    · rw [Nat.min_eq_left before.le]
      exact sent.rows i before
    · rw [Nat.min_eq_right behind]
      apply Finset.sum_eq_zero
      intro j member
      rcases Nat.lt_or_eq_of_le (Finset.mem_Ico.mp member).1 with later | rfl
      · rw [sent.behind j later, mul_zero]
      · rw [zero i i.isLt behind, zero_mul]
  have entry := congrFun (independent _ (fun j later => sent.behind j later) vanishes) ⟨k, inside⟩
  exact one_ne_zero (sent.next.symm.trans entry)

end

/-! Least squares. -/

/-- The sum of the squares of what is missing. -/
def residual (A : Matrix (Fin m) (Fin n) K) (b : Fin m → K) (x : Fin n → K) : K :=
  (A *ᵥ x - b) ⬝ᵥ (A *ᵥ x - b)

/-- A solution of the normal equations has the least residual. -/
theorem residual_least [LinearOrder K] [IsStrictOrderedRing K] {A : Matrix (Fin m) (Fin n) K}
    {b : Fin m → K} {x : Fin n → K} (normal : Aᵀ *ᵥ (A *ᵥ x - b) = 0) (y : Fin n → K) :
    residual A b x ≤ residual A b y := by
  have apart : (A *ᵥ (y - x)) ⬝ᵥ (A *ᵥ x - b) = 0 := by
    rw [dotProduct_comm, Matrix.dotProduct_mulVec, ← Matrix.mulVec_transpose, normal, zero_dotProduct]
  have split : A *ᵥ y - b = A *ᵥ (y - x) + (A *ᵥ x - b) := by
    rw [Matrix.mulVec_sub]
    abel
  have more : 0 ≤ (A *ᵥ (y - x)) ⬝ᵥ (A *ᵥ (y - x)) := Finset.sum_nonneg fun i _ => mul_self_nonneg _
  have pythagoras : residual A b y = (A *ᵥ (y - x)) ⬝ᵥ (A *ᵥ (y - x)) + residual A b x := by
    rw [residual, residual, split, add_dotProduct, dotProduct_add, dotProduct_add,
      dotProduct_comm (A *ᵥ x - b) (A *ᵥ (y - x)), apart, add_zero, zero_add]
  rw [pythagoras]
  exact le_add_of_nonneg_left more

/-- Solving the rows of a triangular form that are not zero solves the normal equations. -/
theorem triangular_normal {Q : Matrix (Fin m) (Fin m) K} {R : Matrix (Fin m) (Fin n) K} {b : Fin m → K}
    {x : Fin n → K} (orthogonal : Qᵀ * Q = 1) (lower : ∀ i : Fin m, n ≤ i → ∀ j, R i j = 0)
    (solved : ∀ i : Fin m, (i : Nat) < n → (R *ᵥ x) i = (Qᵀ *ᵥ b) i) :
    (Q * R)ᵀ *ᵥ ((Q * R) *ᵥ x - b) = 0 := by
  have turned : Qᵀ *ᵥ ((Q * R) *ᵥ x - b) = R *ᵥ x - Qᵀ *ᵥ b := by
    rw [Matrix.mulVec_sub, Matrix.mulVec_mulVec, ← Matrix.mul_assoc, orthogonal, Matrix.one_mul]
  rw [Matrix.transpose_mul, ← Matrix.mulVec_mulVec, turned]
  funext j
  rw [Matrix.mulVec, dotProduct]
  apply Finset.sum_eq_zero
  intro i _
  rcases Nat.lt_or_ge i n with inside | below
  · rw [Pi.sub_apply, solved i inside, sub_self, mul_zero]
  · rw [Matrix.transpose_apply, lower i below j, zero_mul]

end Simuless.Foundation
