import Mathlib.LinearAlgebra.Matrix.Charpoly.Basic
import Mathlib.LinearAlgebra.Matrix.Transvection

/-! Hessenberg form by elimination.

Two rows and the columns of the same numbers are exchanged, or a multiple of a
row is taken from another one and the other column added back. Both lead to a
similar matrix. Stage by stage a column is cleared behind the entry next to the
diagonal.
-/

set_option autoImplicit false

namespace Simuless.Foundation

variable {K : Type} [Field K] {n : Nat} {A B C : Matrix (Fin n) (Fin n) K}

/-! Similar matrices. -/

def SimilarTo (A B : Matrix (Fin n) (Fin n) K) : Prop :=
  ∃ P Q : Matrix (Fin n) (Fin n) K, P * Q = 1 ∧ Q * P = 1 ∧ B = P * A * Q

namespace SimilarTo

theorem refl (A : Matrix (Fin n) (Fin n) K) : SimilarTo A A :=
  ⟨1, 1, Matrix.one_mul 1, Matrix.one_mul 1, by rw [Matrix.one_mul, Matrix.mul_one]⟩

theorem trans (first : SimilarTo A B) (second : SimilarTo B C) : SimilarTo A C := by
  obtain ⟨P, Q, right, left, rfl⟩ := first
  obtain ⟨P', Q', right', left', rfl⟩ := second
  refine ⟨P' * P, Q * Q', ?_, ?_, ?_⟩
  · rw [Matrix.mul_assoc, ← Matrix.mul_assoc P, right, Matrix.one_mul, right']
  · rw [Matrix.mul_assoc, ← Matrix.mul_assoc Q', left', Matrix.one_mul, left]
  · simp only [Matrix.mul_assoc]

/-- Similar matrices have the same eigenvalues. -/
theorem charpoly (similar : SimilarTo A B) : B.charpoly = A.charpoly := by
  obtain ⟨P, Q, -, left, rfl⟩ := similar
  rw [Matrix.mul_assoc, Matrix.charpoly_mul_comm, Matrix.mul_assoc, left, Matrix.mul_one]

theorem submatrix (A : Matrix (Fin n) (Fin n) K) (order : Equiv.Perm (Fin n)) :
    SimilarTo A (A.submatrix order order) := by
  have left (M : Matrix (Fin n) (Fin n) K) :
      (1 : Matrix (Fin n) (Fin n) K).submatrix order id * M = M.submatrix order id :=
    Matrix.one_submatrix_mul order (Equiv.refl _) M
  have right (M : Matrix (Fin n) (Fin n) K) :
      M * (1 : Matrix (Fin n) (Fin n) K).submatrix id order = M.submatrix id order :=
    Matrix.mul_submatrix_one (Equiv.refl _) order M
  refine ⟨Matrix.submatrix 1 order id, Matrix.submatrix 1 id order, ?_, ?_, ?_⟩
  · rw [left, Matrix.submatrix_submatrix]
    exact Matrix.submatrix_one_equiv order
  · have product := Matrix.submatrix_mul_equiv (1 : Matrix (Fin n) (Fin n) K) (1 : Matrix (Fin n) (Fin n) K)
      id order id
    rw [product, Matrix.one_mul, Matrix.submatrix_id_id]
  · rw [left, right, Matrix.submatrix_submatrix]
    rfl

/-- A multiple of row `m` taken from row `i`, and of column `i` added to column `m`. -/
theorem eliminated (A : Matrix (Fin n) (Fin n) K) {i m : Fin n} (apart : i ≠ m) (y : K) :
    SimilarTo A (Matrix.transvection i m (-y) * A * Matrix.transvection i m y) := by
  refine ⟨_, _, ?_, ?_, rfl⟩
  · rw [Matrix.transvection_mul_transvection_same i m apart, neg_add_cancel, Matrix.transvection_zero]
  · rw [Matrix.transvection_mul_transvection_same i m apart, add_neg_cancel, Matrix.transvection_zero]

end SimilarTo

theorem eliminated_apply (A : Matrix (Fin n) (Fin n) K) (i m : Fin n) (y : K) (r c : Fin n) :
    (Matrix.transvection i m (-y) * A * Matrix.transvection i m y) r c =
      (if r = i then A r c - y * A m c else A r c) +
        if c = m then y * (if r = i then A r i - y * A m i else A r i) else 0 := by
  have rows (c : Fin n) : (Matrix.transvection i m (-y) * A) r c =
      if r = i then A r c - y * A m c else A r c := by
    split
    case isTrue here =>
      rw [here, Matrix.transvection_mul_apply_same]
      ring
    case isFalse apart => rw [Matrix.transvection_mul_apply_of_ne _ _ _ _ apart]
  by_cases here : c = m
  · rw [if_pos here, here, Matrix.mul_transvection_apply_same, rows, rows]
  · rw [if_neg here, Matrix.mul_transvection_apply_of_ne _ _ _ _ here, rows, add_zero]

/-! Stages. -/

/-- The entries that a stage and the stages before it clear, when it has come to a row. -/
def Emptied (t i r c : Nat) : Prop := c < t ∧ c + 1 < r ∨ c = t ∧ t + 1 < r ∧ r < i

instance (t i r c : Nat) : Decidable (Emptied t i r c) := inferInstanceAs (Decidable (_ ∨ _))

/-- The matrix where the entries that have been cleared hold something else. -/
def clearedTo (t i : Nat) (A : Matrix (Fin n) (Fin n) K) : Matrix (Fin n) (Fin n) K :=
  Matrix.of fun r c => if Emptied t i r c then 0 else A r c

/-- Without the entries behind those next to the diagonal. -/
def hessenberg (A : Matrix (Fin n) (Fin n) K) : Matrix (Fin n) (Fin n) K :=
  Matrix.of fun r c => if (c : Nat) + 1 < r then 0 else A r c

section
variable {t i : Nat}

theorem clearedTo_apply (t i : Nat) (A : Matrix (Fin n) (Fin n) K) (r c : Fin n) :
    clearedTo t i A r c = if Emptied t i r c then 0 else A r c := rfl

theorem clearedTo_congr {t' i' : Nat} (same : ∀ r c : Fin n, Emptied t i r c ↔ Emptied t' i' r c) :
    clearedTo t i A = clearedTo t' i' A := by
  ext r c
  exact if_congr (same r c) rfl rfl

/-- Before the first stage nothing is cleared. -/
theorem clearedTo_start : clearedTo 0 0 A = A := by
  ext r c
  rw [clearedTo_apply, if_neg]
  rintro (⟨none, -⟩ | ⟨-, -, none⟩)
  · exact Nat.not_lt_zero _ none
  · exact Nat.not_lt_zero _ none

/-- A stage that finds nothing to clear. -/
theorem clearedTo_zeros {p : Fin n} (zeros : ∀ r : Fin n, (p : Nat) + 1 < r → A r p = 0) :
    clearedTo (p + 1) 0 A = clearedTo p 0 A := by
  ext r c
  rw [clearedTo_apply, clearedTo_apply]
  by_cases here : c = p ∧ (p : Nat) + 1 < r
  · rw [here.1, zeros r here.2, ite_self, ite_self]
  · rw [Fin.ext_iff] at here
    exact if_congr (by rw [Emptied, Emptied]; omega) rfl rfl

/-- Behind the last stage. -/
theorem clearedTo_last (stages : n ≤ t + 1) : clearedTo t 0 A = hessenberg A := by
  ext r c
  rw [clearedTo_apply, hessenberg, Matrix.of_apply]
  refine if_congr ?_ rfl rfl
  rw [Emptied]
  omega

/-- An exchange of later indices. -/
theorem swap_early {p q c : Fin n} (first : t < p) (second : t < q) (before : (c : Nat) ≤ t) :
    Equiv.swap p q c = c := by
  apply Equiv.swap_apply_of_ne_of_ne
  · rintro rfl
    omega
  · rintro rfl
    omega

/-- An exchange behind the entry next to the diagonal. -/
theorem clearedTo_exchanged {p q : Fin n} (first : t < p) (second : t < q) (changed : ∀ r c : Fin n,
    B r c = A (if t ≤ (Equiv.swap p q c : Fin n) then Equiv.swap p q r else r) (Equiv.swap p q c)) :
    clearedTo t 0 B = (clearedTo t 0 A).submatrix (Equiv.swap p q) (Equiv.swap p q) := by
  have late (c : Fin n) (behind : t < (c : Nat)) : t < (Equiv.swap p q c : Fin n) := by
    rw [Equiv.swap_apply_def]
    split_ifs <;> assumption
  ext r c
  rw [clearedTo_apply, changed, Matrix.submatrix_apply, clearedTo_apply]
  rcases Nat.lt_or_ge t c with behind | before
  · have later := late c behind
    rw [if_pos later.le, if_neg (by rw [Emptied]; omega), if_neg (by rw [Emptied]; omega)]
  · rw [swap_early first second before]
    rcases Nat.lt_or_eq_of_le before with earlier | here
    · rw [if_neg (Nat.not_le.mpr earlier)]
      rcases Nat.lt_or_ge t r with below | above
      · have later := late r below
        rw [if_pos (by rw [Emptied]; omega), if_pos (by rw [Emptied]; omega)]
      · rw [swap_early first second above]
    · rw [if_pos here.ge, if_neg (by rw [Emptied]; omega), if_neg (by rw [Emptied]; omega)]

/-- One more row of a stage. -/
theorem clearedTo_eliminated {p m i : Fin n} {y : K} (next : (p : Nat) + 1 = m) (behind : m < i)
    (cancels : A i p = y * A m p) (kept : ∀ r c, c ≤ p → ¬ (r = i ∧ c = p) → B r c = A r c)
    (changed : ∀ r c, p < c → B r c = (if r = i then A r c - y * A m c else A r c) +
      if c = m then y * (if r = i then A r i - y * A m i else A r i) else 0) :
    clearedTo p (i + 1) B = Matrix.transvection i m (-y) * clearedTo p i A * Matrix.transvection i m y := by
  rw [Fin.lt_def] at behind
  have later (r c : Fin n) (after : p < c) : clearedTo p i A r c = A r c :=
    if_neg (by rw [Emptied]; rw [Fin.lt_def] at after; omega)
  ext r c
  rw [eliminated_apply]
  -- no stage has come to the columns behind `p`
  rcases lt_or_ge p c with after | before
  · have start : p < i := by
      rw [Fin.lt_def]
      omega
    rw [later r c after, later m c after, later r i start, later m i start, ← changed r c after]
    exact if_neg (by rw [Emptied]; rw [Fin.lt_def] at after; omega)
  · have apart : c ≠ m := by
      rintro rfl
      rw [Fin.le_def] at before
      omega
    rw [if_neg apart, add_zero]
    rcases before.lt_or_eq with earlier | rfl
    · rw [Fin.lt_def] at earlier
      split
      case isTrue here =>
        have cleared : clearedTo p i A m c = 0 ∧ clearedTo p i A r c = 0 :=
          ⟨if_pos (by rw [Emptied]; omega), if_pos (by rw [Emptied, here]; omega)⟩
        rw [cleared.1, cleared.2, mul_zero, sub_zero]
        exact if_pos (by rw [Emptied, here]; omega)
      case isFalse other =>
        rw [clearedTo_apply, clearedTo_apply, kept r c before fun both => other both.1]
        exact if_congr (by rw [Emptied, Emptied]; omega) rfl rfl
    · split
      case isTrue here =>
        have standing : clearedTo c i A m c = A m c ∧ clearedTo c i A r c = A r c :=
          ⟨if_neg (by rw [Emptied]; omega), if_neg (by rw [Emptied, here]; omega)⟩
        rw [standing.1, standing.2, here, cancels, sub_self]
        exact if_pos (by rw [Emptied]; omega)
      case isFalse other =>
        rw [clearedTo_apply, clearedTo_apply, kept r c before fun both => other both.1]
        rw [Fin.ext_iff] at other
        exact if_congr (by rw [Emptied, Emptied]; omega) rfl rfl

end

end Simuless.Foundation
