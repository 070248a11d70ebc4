import Simuless.Foundation.PlaneRotation

/-! Chasing a bulge.

A symmetric matrix has a diagonal, a second diagonal next to it, and one entry
apart from these. A rotation in the plane of two neighbours that clears this
entry makes another one, one row up.
-/

set_option autoImplicit false

namespace Simuless.Foundation

open scoped Matrix

variable {K : Type} [CommRing K] {n : Nat}

/-- The symmetric matrix with this diagonal, these entries next to it, and one more next to those. -/
def bulged (n k : Nat) (diag off : Nat → K) (f : K) : Matrix (Fin n) (Fin n) K :=
  Matrix.of fun r c =>
    if (r : Nat) = c then diag r
    else if (c : Nat) + 1 = r then off c
    else if (r : Nat) + 1 = c then off r
    else if (c : Nat) + 2 = r ∧ (c : Nat) + 1 = k ∨ (r : Nat) + 2 = c ∧ (r : Nat) + 1 = k then f
    else 0

def band (n : Nat) (diag off : Nat → K) : Matrix (Fin n) (Fin n) K := bulged n 0 diag off 0

section
variable {k i : Nat} {diag diag' off off' : Nat → K} {f f' : K}

/-- Entries outside the matrix do not matter. -/
theorem bulged_congr (diagonal : ∀ r < n, diag r = diag' r) (next : ∀ r, r + 1 < n → off r = off' r)
    (apart : ∀ r, r + 2 < n → r + 1 = k → f = f') : bulged n k diag off f = bulged n k diag' off' f' := by
  ext r c
  rw [bulged, bulged, Matrix.of_apply, Matrix.of_apply]
  refine ite_congr rfl (fun _ => diagonal r r.isLt) fun _ => ?_
  refine ite_congr rfl (fun same => next c (by omega)) fun _ => ?_
  refine ite_congr rfl (fun same => next r (by omega)) fun _ => ?_
  refine ite_congr rfl (fun there => ?_) fun _ => rfl
  rcases there with there | there
  · exact apart c (by omega) there.2
  · exact apart r (by omega) there.2

/-- Without the entry apart there are two diagonals. -/
theorem bulged_zero : bulged n k diag off 0 = band n diag off := by
  ext r c
  rw [band, bulged, bulged, Matrix.of_apply, Matrix.of_apply, ite_self, ite_self]

theorem bulged_transpose : (bulged n k diag off f)ᵀ = bulged n k diag off f := by
  ext r c
  rw [Matrix.transpose_apply, bulged, Matrix.of_apply, Matrix.of_apply]
  by_cases same : (r : Nat) = c
  · rw [if_pos same, if_pos same.symm, same]
  · rw [if_neg same, if_neg (Ne.symm same)]
    by_cases left : (c : Nat) + 1 = r
    · rw [if_pos left, if_neg (by omega), if_pos left]
    · rw [if_neg left]
      by_cases right : (r : Nat) + 1 = c
      · rw [if_pos right, if_neg left, if_pos right]
      · rw [if_neg right, if_neg right, if_neg left]
        exact if_congr or_comm rfl rfl

/-- The rotation back. -/
theorem planeRotation_transpose {i j : Fin n} (apart : i ≠ j) (cs sn : K) :
    (planeRotation i j cs sn)ᵀ = planeRotation i j cs (-sn) := by
  ext p q
  simp only [columnsRotated, planeRotation, Matrix.transpose_apply, Matrix.of_apply, Matrix.one_apply]
  grind

/-- The diagonal and the entries next to it behind the rotation. -/
structure Chased (i : Nat) (cs sn f : K) (diag off diag' off' : Nat → K) (f' : K) : Prop where
  unit : cs * cs + sn * sn = 1
  cleared : cs * f = sn * off (i + 1)
  diag_next : diag' (i + 1) = diag (i + 1) + sn * ((diag i - diag (i + 1)) * sn + 2 * cs * off i)
  diag_here : diag' i = diag i - sn * ((diag i - diag (i + 1)) * sn + 2 * cs * off i)
  diag_other : ∀ r, r ≠ i → r ≠ i + 1 → diag' r = diag r
  off_next : off' (i + 1) = sn * f + cs * off (i + 1)
  off_here : off' i = cs * ((diag i - diag (i + 1)) * sn + 2 * cs * off i) - off i
  off_before : ∀ r, r + 1 = i → off' r = cs * off r ∧ f' = sn * off r
  off_other : ∀ r, r ≠ i → r ≠ i + 1 → r + 1 ≠ i → off' r = off r

section
variable {r : Fin n} (first : (r : Nat) ≠ i) (second : (r : Nat) ≠ i + 1)
include first second

/-- The entries of the pair of columns in other rows, before the rotation. -/
theorem bulged_before (diag off : Nat → K) (f : K) (inside : i + 1 < n) :
    bulged n (i + 1) diag off f r ⟨i, by omega⟩ =
      (if (r : Nat) + 1 = i then off r else if (r : Nat) = i + 2 then f else 0) ∧
    bulged n (i + 1) diag off f r ⟨i + 1, inside⟩ = if (r : Nat) = i + 2 then off (i + 1) else 0 := by
  simp only [bulged, Matrix.of_apply]
  grind

/-- Behind the rotation. -/
theorem bulged_behind (diag off : Nat → K) (f : K) (inside : i + 1 < n) :
    bulged n i diag off f r ⟨i, by omega⟩ = (if (r : Nat) + 1 = i then off r else 0) ∧
    bulged n i diag off f r ⟨i + 1, inside⟩ =
      if (r : Nat) = i + 2 then off (i + 1) else if (r : Nat) + 1 = i then f else 0 := by
  simp only [bulged, Matrix.of_apply]
  grind

end

/-- The entries of the pair itself. -/
theorem bulged_pair (diag off : Nat → K) (f : K) (inside : i + 1 < n) (k : Nat) :
    bulged n k diag off f ⟨i, by omega⟩ ⟨i, by omega⟩ = diag i ∧
    bulged n k diag off f ⟨i, by omega⟩ ⟨i + 1, inside⟩ = off i ∧
    bulged n k diag off f ⟨i + 1, inside⟩ ⟨i, by omega⟩ = off i ∧
    bulged n k diag off f ⟨i + 1, inside⟩ ⟨i + 1, inside⟩ = diag (i + 1) := by
  simp only [bulged, Matrix.of_apply]
  grind

/-- The other entries are none of those apart. -/
theorem bulged_other {r c : Fin n} (row : (r : Nat) ≠ i ∧ (r : Nat) ≠ i + 1)
    (column : (c : Nat) ≠ i ∧ (c : Nat) ≠ i + 1) (diagonal : ∀ t, t ≠ i → t ≠ i + 1 → diag' t = diag t)
    (next : ∀ t, t ≠ i → t ≠ i + 1 → t + 1 ≠ i → off' t = off t) :
    bulged n (i + 1) diag off f r c = bulged n i diag' off' f' r c := by
  have same := diagonal r row.1 row.2
  have first := next r row.1 row.2
  have second := next c column.1 column.2
  simp only [bulged, Matrix.of_apply]
  grind

/-- The rotation moves the bulge. -/
theorem Chased.rotated {cs sn : K} (chased : Chased i cs sn f diag off diag' off' f') (inside : i + 1 < n) :
    (planeRotation ⟨i, by omega⟩ ⟨i + 1, inside⟩ cs sn)ᵀ * bulged n (i + 1) diag off f *
      planeRotation ⟨i, by omega⟩ ⟨i + 1, inside⟩ cs sn = bulged n i diag' off' f' := by
  obtain ⟨unit, cleared, diagNext, diagHere, diagOther, offNext, offHere, offBefore, offOther⟩ := chased
  have apart : (⟨i, by omega⟩ : Fin n) ≠ ⟨i + 1, inside⟩ := fun same => by simp at same
  -- the columns rotated are the rows rotated back
  suffices same : bulged n (i + 1) diag off f * planeRotation ⟨i, by omega⟩ ⟨i + 1, inside⟩ cs sn =
      planeRotation ⟨i, by omega⟩ ⟨i + 1, inside⟩ cs sn * bulged n i diag' off' f' by
    rw [Matrix.mul_assoc, same, ← Matrix.mul_assoc, planeRotation_orthogonal apart unit, Matrix.one_mul]
  rw [← Matrix.transpose_transpose (planeRotation _ _ cs sn * bulged n i diag' off' f'),
    Matrix.transpose_mul, bulged_transpose, planeRotation_transpose apart, mul_planeRotation,
    mul_planeRotation]
  obtain ⟨M₁₁, M₁₂, M₂₁, M₂₂⟩ := bulged_pair diag off f inside (i + 1)
  obtain ⟨N₁₁, N₁₂, N₂₁, N₂₂⟩ := bulged_pair diag' off' f' inside i
  have outer (r : Fin n) (first : (r : Nat) ≠ i) (second : (r : Nat) ≠ i + 1) :
      bulged n i diag' off' f' r ⟨i, by omega⟩ = cs * bulged n (i + 1) diag off f r ⟨i, by omega⟩ -
        sn * bulged n (i + 1) diag off f r ⟨i + 1, inside⟩ ∧
      bulged n i diag' off' f' r ⟨i + 1, inside⟩ = sn * bulged n (i + 1) diag off f r ⟨i, by omega⟩ +
        cs * bulged n (i + 1) diag off f r ⟨i + 1, inside⟩ := by
    obtain ⟨before, before'⟩ := bulged_before first second diag off f inside
    obtain ⟨behind, behind'⟩ := bulged_behind first second diag' off' f' inside
    rw [before, before', behind, behind', offNext]
    by_cases next : (r : Nat) = i + 2
    · rw [if_neg (by omega), if_neg (by omega), if_pos next, if_pos next, if_pos next, cleared, sub_self]
      exact ⟨rfl, rfl⟩
    · rw [if_neg next, if_neg next, if_neg next, mul_zero, mul_zero, sub_zero, add_zero]
      by_cases last : (r : Nat) + 1 = i
      · rw [if_pos last, if_pos last, if_pos last]
        exact offBefore r last
      · rw [if_neg last, if_neg last, if_neg last, mul_zero, mul_zero]
        exact ⟨rfl, rfl⟩
  have mirrored (k : Nat) (diag off : Nat → K) (f : K) (r c : Fin n) :
      bulged n k diag off f r c = bulged n k diag off f c r := congrFun (congrFun bulged_transpose c) r
  have position (t : Fin n) :
      t = ⟨i, by omega⟩ ∨ t = ⟨i + 1, inside⟩ ∨ (t : Nat) ≠ i ∧ (t : Nat) ≠ i + 1 := by
    simp only [Fin.ext_iff]
    omega
  have away (t : Fin n) (other : (t : Nat) ≠ i ∧ (t : Nat) ≠ i + 1) :
      t ≠ ⟨i, by omega⟩ ∧ t ≠ ⟨i + 1, inside⟩ := by
    simp only [ne_eq, Fin.ext_iff]
    exact other
  ext r c
  rw [Matrix.transpose_apply]
  rcases position r with rfl | rfl | row
  · rw [rotated_first]
    rcases position c with rfl | rfl | column
    · rw [rotated_first, M₁₁, M₁₂, N₁₁, N₁₂, diagHere, offHere]
      ring
    · rw [rotated_second _ _ _ apart, M₁₁, M₁₂, N₂₁, N₂₂, diagNext, offHere]
      linear_combination -((diag i - diag (i + 1)) * sn + 2 * cs * off i) * unit
    · rw [rotated_other _ _ _ (away c column).1 (away c column).2, mirrored, (outer c column.1 column.2).1,
        (outer c column.1 column.2).2]
      linear_combination -bulged n (i + 1) diag off f c ⟨i, by omega⟩ * unit
  · rw [rotated_second _ _ _ apart]
    rcases position c with rfl | rfl | column
    · rw [rotated_first, M₂₁, M₂₂, N₁₁, N₁₂, diagHere, offHere]
      linear_combination -((diag i - diag (i + 1)) * sn + 2 * cs * off i) * unit
    · rw [rotated_second _ _ _ apart, M₂₁, M₂₂, N₂₁, N₂₂, diagNext, offHere]
      ring
    · rw [rotated_other _ _ _ (away c column).1 (away c column).2, mirrored, (outer c column.1 column.2).1,
        (outer c column.1 column.2).2]
      linear_combination -bulged n (i + 1) diag off f c ⟨i + 1, inside⟩ * unit
  · rw [rotated_other _ _ _ (away r row).1 (away r row).2]
    rcases position c with rfl | rfl | column
    · rw [rotated_first, mirrored i, (outer r row.1 row.2).1]
    · rw [rotated_second _ _ _ apart, mirrored i, (outer r row.1 row.2).2]
    · rw [rotated_other _ _ _ (away c column).1 (away c column).2, mirrored i]
      exact bulged_other row column diagOther offOther

end

end Simuless.Foundation
