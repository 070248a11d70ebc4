import Simuless.Linalg.SvdRuns

/-! Inverses from singular values.

Only matrices with as many rows as columns go through the rotations. What comes
out is an inverse as far as the left singular vectors are orthogonal.
-/

set_option autoImplicit false

namespace Simuless.Linalg

open Foundation
open scoped Matrix

variable {K : Type}

section
variable [Field K] [LinearOrder K]

/-- `S[i] = 1.0f / S[i]`. -/
def pinvReciprocal (S : Buffer K) (i : Nat) : Option (Buffer K) := do
  let Si ← S.read i
  let q ← quotient 1 Si
  S.write i q

/-- `U[row * j + i] = S[j] * U[row * j + i]`. -/
def pinvScale (row i : Nat) (S U : Buffer K) (j : Nat) : Option (Buffer K) := do
  let Sj ← S.read j
  let Uji ← U.readInt (row * j + i)
  U.writeInt (row * j + i) (Sj * Uji)

def pinvScales (row : Nat) (S U : Buffer K) (i : Nat) : Option (Buffer K) :=
  (upTo 0 row).foldlM (pinvScale row i S) U

/-- `Ai` where `column` equals `row`. -/
def smlsMatPinv (sqrtf : K → K) (Ai A : Buffer K) (row : Nat) : Option (Buffer K) := do
  let _ ← asInt (row * row)
  let svd ← svdJacobiOneSided sqrtf A row maxIterationCountSvd (svdArrays row)
  let S ← (upTo 0 row).foldlM pinvReciprocal svd.S
  let U ← smlsMatTranspose svd.U svd.U row row
  let U ← (upTo 0 row).foldlM (pinvScales row S) U
  let (_, Ai) ← smlsMatMul Ai svd.V U row row row row
  return Ai

end

section
variable [Field K] [LinearOrder K] {row : Nat}

omit [LinearOrder K] in
/-- The rows of the transposed matrix are scaled column by column. -/
theorem pinvScales_loop {S U : Buffer K} (rows : row ≤ 46340) (roomS : row ≤ S.size)
    (room : row * row ≤ U.size) :
    Returns ((upTo 0 row).foldlM (pinvScales row S) U) fun U' => U'.size = U.size ∧
      U'.matrix row = Matrix.diagonal (S.vector row) * U.matrix row := by
  refine (Returns.loop (fun i (U' : Buffer K) => U'.size = U.size ∧ ∀ j q : Fin row, U'.matrix row j q =
    if (q : Nat) < i then S.cells j * U.matrix row j q else U.matrix row j q) (Nat.zero_le row)
      ⟨rfl, fun j q => rfl⟩ ?_).weaken fun U' ⟨size, entries⟩ => ⟨size, Matrix.ext fun j q => ?_⟩
  · rintro i U' - below ⟨size, entries⟩
    refine (Returns.loop (fun t (U'' : Buffer K) => U''.size = U.size ∧ ∀ j q : Fin row,
      U''.matrix row j q = if (q : Nat) < i ∨ (q : Nat) = i ∧ (j : Nat) < t
        then S.cells j * U.matrix row j q else U.matrix row j q) (Nat.zero_le row)
        ⟨size, fun j q => (entries j q).trans (if_congr (by omega) rfl rfl)⟩ ?_).weaken
          fun U'' ⟨size, entries⟩ => ⟨size, fun j q => (entries j q).trans (if_congr (by omega) rfl rfl)⟩
    rintro t U'' - below' ⟨size, entries⟩
    have fits : row * row ≤ U''.size := size.symm ▸ room
    have old : U''.cells (row * t + i) = U.matrix row ⟨t, below'⟩ ⟨i, below⟩ :=
      (entries ⟨t, below'⟩ ⟨i, below⟩).trans (if_neg (by simp))
    apply Returns.known (S.read_inside (below'.trans_le roomS))
    apply Returns.known (Buffer.readInt_flat rows fits below' below)
    refine ⟨_, Buffer.writeInt_flat rows fits below' below _, size, fun j q => ?_⟩
    refine (Buffer.entry_set below q.isLt _).trans ?_
    by_cases here : (j : Nat) = t ∧ (q : Nat) = i
    · rw [if_pos here, if_pos (by omega), old]
      obtain ⟨rfl, rfl⟩ := here
      rfl
    · rw [if_neg here]
      exact (entries j q).trans (if_congr (by omega) rfl rfl)
  · rw [entries, if_pos q.isLt, Matrix.diagonal_mul]
    rfl

theorem pinvReciprocal_loop {S : Buffer K} (room : row ≤ S.size)
    (nonzero : ∀ j < row, S.cells j ≠ 0) :
    Returns ((upTo 0 row).foldlM pinvReciprocal S) fun S' => S'.size = S.size ∧
      ∀ j < row, S'.cells j = 1 / S.cells j := by
  refine (Returns.loop (fun t (S' : Buffer K) => S'.size = S.size ∧
    ∀ j, S'.cells j = if j < t then 1 / S.cells j else S.cells j) (Nat.zero_le row)
      ⟨rfl, fun _ => rfl⟩ ?_).weaken fun S' ⟨size, cells⟩ =>
        ⟨size, fun j below => (cells j).trans (if_pos below)⟩
  rintro t S' - below ⟨size, cells⟩
  have inside : t < S'.size := below.trans_le (size.symm ▸ room)
  have old : S'.cells t = S.cells t := (cells t).trans (if_neg (lt_irrefl t))
  apply Returns.known (S'.read_inside inside)
  rw [old]
  apply Returns.known (quotient_nonzero (nonzero t below) 1)
  refine ⟨_, if_pos inside, size, fun j => ?_⟩
  by_cases here : j = t
  · rw [here, Buffer.set_same, if_pos (Nat.lt_succ_self t)]
  · rw [Buffer.set_other _ here, cells j]
    exact if_congr (by omega) rfl rfl

end

/-! Inverses. -/

section
variable {row : Nat} {Ai A : Buffer ℝ}

/-- The inverse of a diagonal matrix without zeros. -/
theorem diagonal_reciprocal {S S' : Fin row → ℝ} (positive : ∀ j, 0 < S j) (same : ∀ j, S' j = 1 / S j) :
    Matrix.diagonal S * Matrix.diagonal S' = 1 := by
  rw [Matrix.diagonal_mul_diagonal, ← Matrix.diagonal_one]
  congr 1
  funext j
  rw [same, mul_one_div_cancel (positive j).ne']

/-- The call goes along with that of the rotations. -/
theorem smlsMatPinv_returns {svd : SingularValues ℝ} (rows : row ≤ 46340) (room : row * row ≤ A.size)
    (room' : row * row ≤ Ai.size)
    (called : svdJacobiOneSided Real.sqrt A row maxIterationCountSvd (svdArrays row) = some svd) :
    Returns (smlsMatPinv Real.sqrt Ai A row) fun Ai' =>
      A.matrix row * Ai'.matrix row = svd.U.matrix row * (svd.U.matrix row)ᵀ := by
  have done := svd_decomposed (svdArrays_room rows room) called
  apply Returns.known (asInt_small (square_small rows))
  apply Returns.known called
  refine Returns.next (pinvReciprocal_loop done.roomS fun j below => (done.positive ⟨j, below⟩).ne')
    fun S _ ⟨sizeS, reciprocal⟩ => ?_
  refine Returns.next (smlsMatTranspose_returns done.roomU done.roomU) fun U _ ⟨sizeU, transposed⟩ => ?_
  have turned : U.matrix row = (svd.U.matrix row)ᵀ :=
    Matrix.ext fun i j => transposed j j.isLt i i.isLt
  refine Returns.next (pinvScales_loop rows (sizeS ▸ done.roomS) (sizeU ▸ done.roomU))
    fun W _ ⟨sizeW, scaled⟩ => ?_
  have inW : row * row ≤ W.size := by
    rw [sizeW, sizeU]
    exact done.roomU
  have multiplied : Returns (smlsMatMul Ai svd.V W row row row row) fun result => result.1 = 0 ∧
      result.2.size = Ai.size ∧ result.2.matrix row = svd.V.matrix row * W.matrix row :=
    smlsMatMul_returns done.roomV inW room'
  refine Returns.next multiplied fun ⟨_, Ai'⟩ _ ⟨_, _, product⟩ => Returns.done ?_
  have inverse : Matrix.diagonal (svd.S.vector row) * Matrix.diagonal (S.vector row) = 1 :=
    diagonal_reciprocal done.positive fun j => reciprocal j j.isLt
  change Ai'.matrix row = _ at product
  rw [product, scaled, turned, ← done.product]
  calc svd.U.matrix row * Matrix.diagonal (svd.S.vector row) * (svd.V.matrix row)ᵀ *
        (svd.V.matrix row * (Matrix.diagonal (S.vector row) * (svd.U.matrix row)ᵀ))
      = svd.U.matrix row * Matrix.diagonal (svd.S.vector row) *
          ((svd.V.matrix row)ᵀ * svd.V.matrix row) * Matrix.diagonal (S.vector row) *
            (svd.U.matrix row)ᵀ := by simp only [Matrix.mul_assoc]
    _ = svd.U.matrix row * (Matrix.diagonal (svd.S.vector row) * Matrix.diagonal (S.vector row)) *
          (svd.U.matrix row)ᵀ := by rw [done.right, Matrix.mul_one, Matrix.mul_assoc (svd.U.matrix row)]
    _ = svd.U.matrix row * (svd.U.matrix row)ᵀ := by rw [inverse, Matrix.mul_one]

end

section
variable {row : Nat} {Ai A : Buffer ℝ}

end

/-- The identity. -/
def twoAlike : Buffer ℝ := ⟨4, fun i => if i = 0 ∨ i = 3 then 1 else 0⟩

theorem twoAlike_products (p q : Fin 2) : products (twoAlike.matrix 2) p q = if p = q then 1 else 0 := by
  rw [products_apply, Fin.sum_univ_two]
  fin_cases p <;> fin_cases q <;> norm_num [Buffer.matrix, Buffer.entry, twoAlike]

section
variable {row : Nat} {Ai A : Buffer ℝ}

/-- Of the matrices with orthogonal columns, those are inverted whose columns have different lengths,
none of them zero; the others have no result. -/
theorem pinv_orthogonal_iff (rows : row ≤ 46340) (room : row * row ≤ A.size) (room' : row * row ≤ Ai.size)
    (orthogonal : ∀ p q : Fin row, p ≠ q → products (A.matrix row) p q = 0) :
    (LengthsApart (A.matrix row) →
      ∃ Ai', smlsMatPinv Real.sqrt Ai A row = some Ai' ∧ Ai'.matrix row * A.matrix row = 1) ∧
    (¬ LengthsApart (A.matrix row) → smlsMatPinv Real.sqrt Ai A row = none) := by
  rcases svd_orthogonal_cases (svdArrays_room rows room) (by decide : 0 < maxIterationCountSvd) orthogonal with
    ⟨⟨svd, called, left⟩, apart⟩ | ⟨stopped, alike⟩
  · refine ⟨fun _ => ?_, fun alike => absurd apart alike⟩
    obtain ⟨Ai', returned, product⟩ := smlsMatPinv_returns rows room room' called
    rw [mul_eq_one_comm.mp left] at product
    exact ⟨Ai', returned, mul_eq_one_comm.mp product⟩
  · refine ⟨fun apart => absurd apart alike, fun _ => ?_⟩
    rw [smlsMatPinv, stopped, asInt_small (square_small rows)]
    rfl

end

theorem pinv_orthogonal_iff_two :
    (∃ Ai', smlsMatPinv Real.sqrt ⟨4, fun _ => 0⟩ twoLengths 2 = some Ai' ∧
      Ai'.matrix 2 * twoLengths.matrix 2 = 1) ∧
    smlsMatPinv Real.sqrt ⟨4, fun _ => 0⟩ twoAlike 2 = none := by
  constructor
  · exact (pinv_orthogonal_iff (by decide) le_rfl le_rfl twoLengths_orthogonal).1 twoLengths_apart
  · refine (pinv_orthogonal_iff (by decide) le_rfl le_rfl fun p q apart => ?_).2 fun apart => ?_
    · rw [twoAlike_products, if_neg apart]
    · refine apart.different 0 1 (by decide) ?_
      rw [twoAlike_products, twoAlike_products, if_pos rfl, if_pos rfl]

end Simuless.Linalg
