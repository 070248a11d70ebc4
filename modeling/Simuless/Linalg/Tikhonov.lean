import Mathlib.Algebra.Order.Ring.Rat
import Simuless.Linalg.LinsolveGauss

/-! Regularised least squares.

The normal matrix behind a positive shift has no minor that is zero, so that
elimination gets through. What stands in the way is the array for the right
hand side: it is cleared for as many entries as the matrix has rows, and has as
many as the matrix has columns.
-/

set_option autoImplicit false

namespace Simuless.Linalg

open Foundation
open scoped Matrix

variable {K : Type} [Field K] [LinearOrder K]

/-! The normal equations. -/

/-- The matrix of the normal equations behind a shift of its diagonal. -/
def normalMatrix (row column : Nat) (A : Buffer K) (alpha : K) : Matrix (Fin column) (Fin column) K :=
  (A.rectangle row column)ᵀ * A.rectangle row column + alpha • 1

section
variable {row column : Nat} {A b : Buffer K} {alpha : K}

omit [LinearOrder K] in
theorem tikhonovDiagonal_loop {ATA : Buffer K} (small : column * column ≤ intMax)
    (room : column * column ≤ ATA.size) :
    Returns ((upTo 0 column).foldlM (tikhonovDiagonal column alpha) ATA) fun ATA' =>
      ATA'.size = ATA.size ∧ ATA'.matrix column = ATA.matrix column + alpha • 1 := by
  refine (Returns.loop (fun i (ATA' : Buffer K) => ATA'.size = ATA.size ∧
    ∀ t < column, ∀ c < column, ATA'.entry column t c =
      ATA.entry column t c + if t = c ∧ t < i then alpha else 0)
    (Nat.zero_le column) ⟨rfl, ?_⟩ ?_).weaken ?_
  · intro t _ c _
    rw [if_neg (by omega), add_zero]
  · rintro i ATA' - inRow ⟨size, entries⟩
    have fits : column * column ≤ ATA'.size := size.symm ▸ room
    apply Returns.known (Buffer.readInt_entry small fits inRow inRow)
    rw [Buffer.writeInt_entry small fits inRow inRow]
    have waiting : ATA'.entry column i i = ATA.entry column i i := by
      rw [entries i inRow i inRow, if_neg (by omega), add_zero]
    refine Returns.done ⟨size, fun t below c inColumn => ?_⟩
    rw [Buffer.entry_set inRow inColumn, waiting, entries t below c inColumn]
    by_cases here : t = i ∧ c = i
    · rw [if_pos here, if_pos (by omega), here.1, here.2]
    · rw [if_neg here]
      congr 1
      exact if_congr (by omega) rfl rfl
  · rintro ATA' ⟨size, entries⟩
    refine ⟨size, ?_⟩
    ext t c
    rw [Matrix.add_apply, Matrix.smul_apply, Matrix.one_apply, smul_eq_mul, mul_ite, mul_one, mul_zero]
    refine (entries t t.isLt c c.isLt).trans ?_
    congr 1
    exact if_congr (by rw [Fin.ext_iff, and_iff_left t.isLt]) rfl rfl

omit [LinearOrder K] in
/-- With no more rows than columns the normal equations are set up. -/
theorem tikhonov_returns (room : row * column ≤ A.size) (room' : row ≤ b.size) (wide : row ≤ column)
    (small : column * column ≤ intMax) :
    Returns (tikhonov A b ⟨column * column, fun _ => 0⟩ ⟨column, fun _ => 0⟩ row column alpha)
      fun system => system.Fits column ∧ system.A.matrix column = normalMatrix row column A alpha ∧
        system.b.vector column = (A.rectangle row column)ᵀ *ᵥ b.vector row := by
  have size : column * row = row * column := Nat.mul_comm column row
  have inA : column * row ≤ A.size := size.le.trans room
  apply Returns.known (asInt_small ((Nat.mul_le_mul_left column wide).trans small))
  apply Returns.known (Buffer.copy_whole A (column * row) (fun _ => 0) inA)
  refine Returns.next (smlsMatTranspose_returns size.ge size.ge) fun AT _ ⟨sizeAT, entries⟩ => ?_
  have transposed : AT.rectangle column row = (A.rectangle row column)ᵀ := by
    ext j i
    refine (entries i i.isLt j j.isLt).trans ?_
    have inside := flat_lt_product i.isLt j.isLt
    exact if_pos (inside.trans_le size.ge)
  have fits : column * row ≤ AT.size := sizeAT.ge
  apply Returns.known (if_pos wide)
  have one : row * 1 ≤ b.size := (Nat.mul_one row).symm ▸ room'
  refine Returns.next (smlsMatMul_returns fits one (Nat.mul_one column).le)
    fun result _ ⟨_, sizeb, product⟩ => ?_
  rw [Buffer.clearInt_small _ small]
  apply Returns.known (if_pos (Nat.le_refl (column * column)))
  refine Returns.next (smlsMatMul_returns fits room (Nat.le_refl (column * column)))
    fun result' _ ⟨_, sizeA, product'⟩ => ?_
  refine Returns.next (tikhonovDiagonal_loop small sizeA.ge) fun ATA _ ⟨sizeA', shifted⟩ => ?_
  refine Returns.done ⟨⟨small, (sizeA'.trans sizeA).ge, sizeb.ge⟩, ?_, ?_⟩
  · rw [shifted, normalMatrix, ← transposed, ← product']
    rfl
  · funext i
    have entry := congrFun (congrFun product i) 0
    rw [transposed, Matrix.mul_apply] at entry
    simp only [Buffer.rectangle, Buffer.entry, Fin.val_zero, Nat.one_mul, Nat.add_zero] at entry
    exact entry

omit [LinearOrder K] in
/-- With more rows than columns the array for the right hand side is cleared beyond its end. -/
theorem tikhonov_overruns (tall : column < row) :
    tikhonov A b ⟨column * column, fun _ => 0⟩ ⟨column, fun _ => 0⟩ row column alpha = none := by
  have overrun : (⟨column, fun _ => 0⟩ : Buffer K).clear row = none := if_neg (Nat.not_le_of_gt tall)
  simp only [tikhonov, overrun, Option.bind_eq_bind, Option.bind_none, Option.bind_fun_none]

/-- The minors of the shifted normal matrix are not zero. -/
theorem normal_regular [IsStrictOrderedRing K] {system : System K} (positive : 0 < alpha)
    (same : system.A.matrix column = normalMatrix row column A alpha) :
    RegularCorners column (system.A.entry column) := by
  intro k inside
  have first : corner k (system.A.entry column) =
      ((A.rectangle row column).submatrix id (Fin.castLE inside))ᵀ *
        (A.rectangle row column).submatrix id (Fin.castLE inside) + alpha • 1 := by
    ext t c
    have entry := congrFun (congrFun same (Fin.castLE inside t)) (Fin.castLE inside c)
    refine entry.trans ?_
    simp only [normalMatrix, Matrix.add_apply, Matrix.smul_apply, Matrix.one_apply, Fin.castLE_inj]
    rfl
  rw [first]
  exact det_regularised_ne_zero _ positive

end

/-! The whole call. -/

/-- A call stays inside the arrays, divides by no zero and gives the one solution of the
normal equations. -/
def LeastSquares (row column : Nat) (A x b : Buffer K) (alpha : K) : Prop :=
  ∃ x', smlsLinsolveGauss A x b row column alpha = some x' ∧ ∀ y : Fin column → K,
    normalMatrix row column A alpha *ᵥ y = (A.rectangle row column)ᵀ *ᵥ b.vector row ↔
      y = x'.vector column

section
variable [IsStrictOrderedRing K] {row column : Nat} {A x b : Buffer K} {alpha : K}

/-- Regularised least squares are solved if and only if there are no more rows than columns, and
the size of the normal matrix is an `int`. -/
theorem leastSquares_iff (room : row * column ≤ A.size) (room' : row ≤ b.size) (room'' : column ≤ x.size)
    (positive : 0 < alpha) :
    LeastSquares row column A x b alpha ↔ row ≤ column ∧ column * column ≤ intMax := by
  have branch : ¬ (alpha ≤ 0 ∧ row = column) := fun both => absurd positive (not_lt.mpr both.1)
  constructor
  · rintro ⟨x', called, -⟩
    rw [smlsLinsolveGauss, if_neg branch] at called
    by_cases small : column * column ≤ intMax
    · refine ⟨not_lt.mp fun tall => ?_, small⟩
      have overrun : tikhonov A b ⟨column * column, fun _ => 0⟩ ⟨column, fun _ => 0⟩ row column alpha =
          none := tikhonov_overruns tall
      rw [asInt_small small, Option.bind_eq_bind, Option.bind_some, overrun] at called
      cases called
    · rw [asInt_large (Nat.lt_of_not_le small)] at called
      cases called
  · rintro ⟨wide, small⟩
    obtain ⟨system, set_up, fits, same, right⟩ := tikhonov_returns room room' wide small
    have regular := normal_regular positive same
    obtain ⟨x', solved, solution⟩ := eliminated_solves fits room'' regular
    have invertible := regular column (Nat.le_refl column)
    change (system.A.matrix column).det ≠ 0 at invertible
    refine ⟨x', ?_, fun y => ?_⟩
    · rw [smlsLinsolveGauss, if_neg branch, asInt_small small, Option.bind_eq_bind, Option.bind_some,
        set_up]
      exact solved
    · rw [← same, ← right, ← solution]
      exact (Matrix.mulVec_injective_of_det_ne_zero invertible).eq_iff

end

/-- The row `1, 2`, with two columns. -/
def wideRow : Buffer ℚ := ⟨2, fun i => [1, 2].getD i 0⟩

theorem leastSquares_iff_small :
    LeastSquares 1 2 wideRow ⟨2, fun _ => 0⟩ ⟨1, fun _ => 3⟩ 1 :=
  (leastSquares_iff (by decide) (by decide) (by decide) (by decide)).mpr (by decide)

/-- The same numbers in one column are too many for the array. -/
theorem leastSquares_tall :
    smlsLinsolveGauss wideRow ⟨1, fun _ => 0⟩ ⟨2, fun _ => 3⟩ 2 1 1 = none ∧
      ¬ LeastSquares 2 1 wideRow ⟨1, fun _ => 0⟩ ⟨2, fun _ => 3⟩ 1 := by
  have stuck : smlsLinsolveGauss wideRow ⟨1, fun _ => 0⟩ ⟨2, fun _ => 3⟩ 2 1 1 = none := by
    rw [← Option.isNone_iff_eq_none]
    decide +kernel
  refine ⟨stuck, ?_⟩
  rintro ⟨x', called, -⟩
  cases stuck.symm.trans called

end Simuless.Linalg
