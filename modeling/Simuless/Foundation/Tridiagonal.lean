import Mathlib.Algebra.Order.BigOperators.Group.Finset
import Mathlib.LinearAlgebra.Matrix.NonsingularInverse
import Mathlib.Tactic.FieldSimp
import Mathlib.Tactic.LinearCombination
import Simuless.Foundation.Triangular

/-! Tridiagonal form by reflections.

A reflection that works on the first coordinates only clears a row up to the
entry next to the diagonal, and its column. The rows behind this one, of which
these entries are zero already, stay as they are.
-/

set_option autoImplicit false

namespace Simuless.Foundation

open scoped Matrix

variable {K : Type} [Field K] {n : Nat}

/-! Reflections without roots. -/

/-- The reflection at the hyperplane that a vector is orthogonal to, with half of the square of its
length. -/
def mirror (u : Fin n → K) (h : K) : Matrix (Fin n) (Fin n) K := 1 - h⁻¹ • Matrix.vecMulVec u u

section
variable {u x : Fin n → K} {h : K}

theorem mirror_apply (r c : Fin n) :
    mirror u h r c = (1 : Matrix (Fin n) (Fin n) K) r c - u r / h * u c := by
  rw [mirror, Matrix.sub_apply, Matrix.smul_apply, Matrix.vecMulVec_apply, smul_eq_mul]
  ring

theorem mirror_mulVec (u : Fin n → K) (h : K) (x : Fin n → K) :
    mirror u h *ᵥ x = x - ((u ⬝ᵥ x) / h) • u := by
  rw [mirror, Matrix.sub_mulVec, Matrix.one_mulVec, Matrix.smul_mulVec, Matrix.vecMulVec_mulVec,
    op_smul_eq_smul, smul_smul, mul_comm, div_eq_mul_inv]

theorem mirror_transpose : (mirror u h)ᵀ = mirror u h := by
  rw [mirror, Matrix.transpose_sub, Matrix.transpose_one, Matrix.transpose_smul,
    Matrix.transpose_vecMulVec]

/-- Reflecting twice changes nothing. -/
theorem mirror_twice (nonzero : h ≠ 0) (half : u ⬝ᵥ u = h + h) : mirror u h * mirror u h = 1 := by
  rw [← Matrix.mulVec_injective.eq_iff]
  funext x
  rw [← Matrix.mulVec_mulVec, Matrix.one_mulVec, mirror_mulVec u h x, mirror_mulVec, dotProduct_sub,
    dotProduct_smul, half]
  funext i
  simp only [Pi.sub_apply, Pi.smul_apply, smul_eq_mul]
  field_simp
  ring

theorem mirror_orthogonal (nonzero : h ≠ 0) (half : u ⬝ᵥ u = h + h) :
    (mirror u h)ᵀ * mirror u h = 1 := by
  rw [mirror_transpose, mirror_twice nonzero half]

theorem mul_mirror_apply (M : Matrix (Fin n) (Fin n) K) (r c : Fin n) :
    (M * mirror u h) r c = M r c - (M *ᵥ u) r / h * u c := by
  rw [mirror, Matrix.mul_sub, Matrix.mul_one, Matrix.sub_apply, Matrix.mul_smul, Matrix.smul_apply,
    Matrix.mul_vecMulVec, Matrix.vecMulVec_apply, smul_eq_mul]
  ring

theorem mirror_mul_apply (M : Matrix (Fin n) (Fin n) K) (r c : Fin n) :
    (mirror u h * M) r c = M r c - u r * ((Mᵀ *ᵥ u) c / h) := by
  rw [mirror, Matrix.sub_mul, Matrix.one_mul, Matrix.smul_mul, Matrix.sub_apply, Matrix.smul_apply,
    Matrix.vecMulVec_mul, Matrix.vecMulVec_apply, Matrix.mulVec_transpose, smul_eq_mul]
  ring

/-- Reflecting rows and columns takes two outer products. -/
theorem mirror_both {M : Matrix (Fin n) (Fin n) K} {p : Fin n → K} {k : K} (two : (2 : K) ≠ 0)
    (nonzero : h ≠ 0) (symmetric : Mᵀ = M) (image : ∀ r, p r = (M *ᵥ u) r / h)
    (along : k = (p ⬝ᵥ u) / (h + h)) (r c : Fin n) : (mirror u h * M * mirror u h) r c =
      M r c - (u r * (p c - k * u c) + (p r - k * u r) * u c) := by
  have left (c : Fin n) : (mirror u h * M) r c = M r c - u r * p c := by
    rw [mirror_mul_apply, symmetric, image]
  have inner : p ⬝ᵥ u = k * (2 * h) := by
    rw [along, ← two_mul, div_mul_cancel₀ _ (mul_ne_zero two nonzero)]
  have product : ((mirror u h * M) *ᵥ u) r = p r * h - u r * (k * (2 * h)) := by
    calc ((mirror u h * M) *ᵥ u) r = (M *ᵥ u) r - u r * (p ⬝ᵥ u) := by
          simp only [Matrix.mulVec, dotProduct, left, sub_mul, Finset.sum_sub_distrib, Finset.mul_sum,
            mul_assoc]
      _ = p r * h - u r * (k * (2 * h)) := by rw [image, div_mul_cancel₀ _ nonzero, inner]
  rw [mul_mirror_apply, product, left]
  field_simp
  ring

end

/-! The first coordinates. -/

/-- A vector of the first coordinates. -/
def firstOf (n i : Nat) (u : Nat → K) : Fin n → K := fun r => if (r : Nat) < i then u r else 0

/-- A matrix that leaves the coordinates from a number on as they are. -/
def LeavesFrom (i : Nat) (P : Matrix (Fin n) (Fin n) K) : Prop :=
  ∀ r c : Fin n, i ≤ r ∨ i ≤ c → P r c = (1 : Matrix (Fin n) (Fin n) K) r c

section
variable {i : Nat} {u : Nat → K} {h : K} {P M : Matrix (Fin n) (Fin n) K}

theorem sum_before (order : i ≤ n) (term : Nat → K) :
    ∑ k : Fin n, (if (k : Nat) < i then term k else 0) = ∑ k ∈ Finset.range i, term k := by
  rw [← Finset.sum_range fun k => if k < i then term k else 0, ← Finset.sum_range_add_sum_Ico _ order]
  have inside : ∑ k ∈ Finset.range i, (if k < i then term k else 0) = ∑ k ∈ Finset.range i, term k :=
    Finset.sum_congr rfl fun k member => if_pos (Finset.mem_range.mp member)
  have behind : ∑ k ∈ Finset.Ico i n, (if k < i then term k else 0) = 0 :=
    Finset.sum_eq_zero fun k member => if_neg (Nat.not_lt.mpr (Finset.mem_Ico.mp member).1)
  rw [inside, behind, add_zero]

theorem leaves_one : LeavesFrom i (1 : Matrix (Fin n) (Fin n) K) := fun _ _ _ => rfl

theorem leaves_mirror : LeavesFrom i (mirror (firstOf n i u) h) := by
  intro r c behind
  rw [mirror_apply, firstOf, firstOf]
  rcases behind with behind | behind
  · rw [if_neg (Nat.not_lt.mpr behind), zero_div, zero_mul, sub_zero]
  · rw [if_neg (Nat.not_lt.mpr behind), mul_zero, sub_zero]

/-- The rows from there on are those of the other factor. -/
theorem LeavesFrom.mul_row (leaves : LeavesFrom i P) {r : Fin n} (behind : i ≤ r) (c : Fin n) :
    (P * M) r c = M r c := by
  rw [Matrix.mul_apply, Finset.sum_congr rfl fun k _ => by rw [leaves r k (Or.inl behind)],
    ← Matrix.mul_apply, Matrix.one_mul]

theorem LeavesFrom.mul_column (leaves : LeavesFrom i P) {c : Fin n} (behind : i ≤ c) (r : Fin n) :
    (M * P) r c = M r c := by
  rw [Matrix.mul_apply, Finset.sum_congr rfl fun k _ => by rw [leaves k c (Or.inr behind)],
    ← Matrix.mul_apply, Matrix.mul_one]

theorem LeavesFrom.mono {j : Nat} (leaves : LeavesFrom i P) (order : i ≤ j) : LeavesFrom j P :=
  fun r c behind => leaves r c (behind.imp order.trans order.trans)

theorem LeavesFrom.mul (leaves : LeavesFrom i P) (leaves' : LeavesFrom i M) : LeavesFrom i (P * M) := by
  intro r c behind
  rcases behind with behind | behind
  · rw [leaves.mul_row behind, leaves' r c (Or.inl behind)]
  · rw [leaves'.mul_column behind, leaves r c (Or.inr behind)]

end

/-! Clearing a row. -/

/-- The rows behind this one have nothing before the entry next to their diagonal. -/
def TridiagonalBehind (i : Nat) (M : Matrix (Fin n) (Fin n) K) : Prop :=
  ∀ r c : Fin n, i < r → (c : Nat) + 1 < r → M r c = 0

section
variable {l : Nat} {u : Nat → K} {h g : K} {M : Matrix (Fin n) (Fin n) K}

/-- The other rows from this one on. -/
theorem mirrored_behind (tridiagonal : TridiagonalBehind (l + 1) M) (r c : Fin n) (behind : l + 1 ≤ r)
    (apart : (r : Nat) = l + 1 → l + 1 ≤ c) :
    (mirror (firstOf n (l + 1) u) h * M * mirror (firstOf n (l + 1) u) h) r c = M r c := by
  rw [Matrix.mul_assoc, leaves_mirror.mul_row behind]
  rcases Nat.lt_or_ge c (l + 1) with before | after
  · have later : l + 1 < r := by omega
    rw [Matrix.mul_apply]
    have terms (k : Fin n) : M r k * mirror (firstOf n (l + 1) u) h k c = if k = c then M r c else 0 := by
      rcases Nat.lt_or_ge k (l + 1) with small | large
      · rw [tridiagonal r k later (by omega), zero_mul, tridiagonal r c later (by omega), ite_self]
      · rw [leaves_mirror k c (Or.inl large), Matrix.one_apply, mul_ite, mul_one, mul_zero]
        exact ite_congr rfl (fun same => by rw [same]) fun _ => rfl
    rw [Finset.sum_congr rfl fun k _ => terms k, Finset.sum_ite_eq' Finset.univ c,
      if_pos (Finset.mem_univ c)]
  · exact leaves_mirror.mul_column after r

theorem mirrored_symmetric (symmetric : Mᵀ = M) :
    (mirror (firstOf n (l + 1) u) h * M * mirror (firstOf n (l + 1) u) h)ᵀ =
      mirror (firstOf n (l + 1) u) h * M * mirror (firstOf n (l + 1) u) h := by
  rw [Matrix.transpose_mul, Matrix.transpose_mul, mirror_transpose, symmetric, Matrix.mul_assoc]

/-- The vector of the reflection that clears row `l + 1` before entry `l`. -/
structure Clears (l : Nat) (M : Matrix (Fin n) (Fin n) K) (u : Nat → K) (h g : K) : Prop where
  inside : l + 1 < n
  nonzero : h ≠ 0
  half : firstOf n (l + 1) u ⬝ᵥ firstOf n (l + 1) u = h + h
  along : ∃ scale,
    (∀ k (below : k < l), M ⟨l + 1, inside⟩ ⟨k, below.trans (Nat.lt_of_succ_lt inside)⟩ = scale * u k) ∧
    M ⟨l + 1, inside⟩ ⟨l, Nat.lt_of_succ_lt inside⟩ = scale * u l + g ∧
    firstOf n (l + 1) u ⬝ᵥ M ⟨l + 1, inside⟩ = scale * h

/-- A row of this length has one. -/
theorem clears_scaled {y : Nat → K} {scale : K} (inside : l + 1 < n)
    (row : ∀ c : Fin n, (c : Nat) < l + 1 → M ⟨l + 1, inside⟩ c = scale * y c)
    (length : ∑ k ∈ Finset.range (l + 1), y k * y k = g * g) (nonzero : g * g - y l * g ≠ 0) :
    Clears l M (Function.update y l (y l - g)) (g * g - y l * g) (scale * g) := by
  have last : Function.update y l (y l - g) l = y l - g := Function.update_self _ _ _
  have rest {k : Nat} (below : k < l) : Function.update y l (y l - g) k = y k :=
    Function.update_of_ne below.ne _ _
  have before : ∑ k ∈ Finset.range l, y k * y k = g * g - y l * y l := by
    rw [← length, Finset.sum_range_succ, add_sub_cancel_right]
  have product (v : Fin n → K) (z : Nat → K) (same : ∀ c : Fin n, (c : Nat) < l + 1 → v c = z c)
      (k : K) (scaled : ∀ t < l, z t = k * y t) :
      firstOf n (l + 1) (Function.update y l (y l - g)) ⬝ᵥ v =
        k * (g * g - y l * y l) + (y l - g) * z l := by
    calc firstOf n (l + 1) (Function.update y l (y l - g)) ⬝ᵥ v =
          ∑ c : Fin n, if (c : Nat) < l + 1 then Function.update y l (y l - g) c * z c else 0 := by
          apply Finset.sum_congr rfl
          intro c _
          rw [firstOf, ite_mul, zero_mul]
          exact ite_congr rfl (fun below => by rw [same c below]) fun _ => rfl
      _ = k * (g * g - y l * y l) + (y l - g) * z l := by
          rw [sum_before (n := n) inside.le fun c => Function.update y l (y l - g) c * z c,
            Finset.sum_range_succ, last, ← before, Finset.mul_sum]
          congr 1
          apply Finset.sum_congr rfl
          intro t member
          rw [rest (Finset.mem_range.mp member), scaled t (Finset.mem_range.mp member)]
          ring
  refine ⟨inside, nonzero, ?_, scale, fun k below => ?_, ?_, ?_⟩
  · refine (product _ (Function.update y l (y l - g)) (fun c below => if_pos below) 1
      fun t below => ?_).trans ?_
    · rw [rest below, one_mul]
    · rw [last]
      ring
  · rw [rest below]
    exact row ⟨k, by omega⟩ (by simp only; omega)
  · rw [last]
    refine (row ⟨l, by omega⟩ (Nat.lt_succ_self l)).trans ?_
    ring
  · rw [product _ (fun t => scale * y t) row scale fun _ _ => rfl]
    ring

namespace Clears

variable (clears : Clears l M u h g)
include clears

theorem orthogonal : (mirror (firstOf n (l + 1) u) h)ᵀ * mirror (firstOf n (l + 1) u) h = 1 :=
  mirror_orthogonal clears.nonzero clears.half

/-- The row behind the reflection. -/
theorem row (r c : Fin n) (here : (r : Nat) = l + 1) (before : (c : Nat) < l + 1) :
    (mirror (firstOf n (l + 1) u) h * M * mirror (firstOf n (l + 1) u) h) r c =
      if (c : Nat) = l then g else 0 := by
  obtain ⟨inside, nonzero, -, scale, rest, last, along⟩ := clears
  obtain rfl : r = ⟨l + 1, inside⟩ := Fin.ext here
  have image : (M *ᵥ firstOf n (l + 1) u) ⟨l + 1, inside⟩ = scale * h := (dotProduct_comm _ _).trans along
  rw [Matrix.mul_assoc, leaves_mirror.mul_row here.ge, mul_mirror_apply, image,
    mul_div_cancel_right₀ _ nonzero, firstOf, if_pos before]
  split
  case isTrue same =>
    have entry : M ⟨l + 1, inside⟩ c = scale * u c + g := by
      subst same
      exact last
    rw [entry, add_sub_cancel_left]
  case isFalse other => rw [← rest c (by omega), Fin.eta, sub_self]

theorem tridiagonal (tridiagonal : TridiagonalBehind (l + 1) M) :
    TridiagonalBehind l (mirror (firstOf n (l + 1) u) h * M * mirror (firstOf n (l + 1) u) h) := by
  intro r c later left
  rcases Nat.lt_or_eq_of_le (Nat.succ_le_of_lt later) with after | here
  · rw [mirrored_behind tridiagonal r c later (by omega), tridiagonal r c after left]
  · rw [clears.row r c here.symm (by omega), if_neg (by omega)]

end Clears

end

/-! Products. -/

/-- The product of a number of matrices from the last one down to one of this number. -/
def productDown (P : Nat → Matrix (Fin n) (Fin n) K) (i : Nat) : Nat → Matrix (Fin n) (Fin n) K
  | 0 => 1
  | count + 1 => P (i + count) * productDown P i count

section
variable {P P' : Nat → Matrix (Fin n) (Fin n) K} {i : Nat}

theorem productDown_first (count : Nat) :
    productDown P i (count + 1) = productDown P (i + 1) count * P i := by
  induction count with
  | zero => rw [productDown, productDown, productDown, Matrix.mul_one, Matrix.one_mul, Nat.add_zero]
  | succ count ih =>
    rw [productDown, ih, productDown, Matrix.mul_assoc, Nat.add_right_comm i 1 count, Nat.add_assoc]

theorem productDown_congr {count : Nat} (same : ∀ p, i ≤ p → P p = P' p) :
    productDown P i count = productDown P' i count := by
  induction count with
  | zero => rfl
  | succ count ih => rw [productDown, productDown, ih, same _ (Nat.le_add_right i count)]

/-- A first factor that changes nothing. -/
theorem productDown_start {count : Nat} (positive : 0 < count) :
    productDown (Function.update P 0 1) 0 count = productDown P 1 (count - 1) := by
  obtain ⟨count, rfl⟩ := Nat.exists_eq_succ_of_ne_zero positive.ne'
  rw [Nat.succ_eq_add_one, productDown_first, Function.update_self, Matrix.mul_one]
  exact productDown_congr fun p above => Function.update_of_ne (Nat.ne_of_gt above) _ _

theorem productDown_orthogonal {count : Nat}
    (orthogonal : ∀ p, i ≤ p → p < i + count → (P p)ᵀ * P p = 1) :
    (productDown P i count)ᵀ * productDown P i count = 1 := by
  induction count with
  | zero => rw [productDown, Matrix.transpose_one, Matrix.one_mul]
  | succ count ih =>
    rw [productDown, Matrix.transpose_mul, Matrix.mul_assoc, ← Matrix.mul_assoc (P _)ᵀ,
      orthogonal _ (Nat.le_add_right i count) (by omega), Matrix.one_mul]
    exact ih fun p above below => orthogonal p above (by omega)

theorem productDown_leaves {count : Nat} (leaves : ∀ p < count, LeavesFrom p (P p)) :
    LeavesFrom count (productDown P 0 count) := by
  induction count with
  | zero => exact leaves_one
  | succ count ih =>
    rw [productDown, Nat.zero_add]
    have before : LeavesFrom count (productDown P 0 count) := ih fun p below => leaves p (by omega)
    exact ((leaves count (Nat.lt_succ_self count)).mul before).mono (Nat.le_succ count)

end

end Simuless.Foundation
