import Simuless.Linalg.Norm
import Simuless.Linalg.SvdRuns

/-! The second norm.

Of a matrix it is the largest of the singular values after a fixed number of
sweeps, which is the length of what some unit vector is sent to. A pair that the
rotations divide zero by zero for leaves values that are not numbers, which the
comparison passes over; only values that are all numbers are modelled.
-/

set_option autoImplicit false

namespace Simuless.Linalg

open Foundation
open scoped Matrix

variable {K : Type}

section
variable [Field K] [LinearOrder K]

/-- `sqrt_sum += A[i] * A[i]`. -/
def normSquare (A : Buffer K) (sum : K) (i : Nat) : Option K := do
  let item ← A.read i
  return sum + item * item

/-- The call with `l = 2`; `golubReinsch` gives the singular values where the matrix is not square.
There is no result where one of them is not a number. -/
def smlsMatNormTwo (sqrtf : K → K) (golubReinsch : Buffer K → Nat → Nat → Option (Buffer K))
    (Ain : Buffer K) (row column : Nat) : Option K := do
  let size ← asInt (row * column)
  let A ← (⟨size, fun _ => 0⟩ : Buffer K).copy Ain size
  if row = 1 then
    let sum ← (upTo 0 column).foldlM (normSquare A) 0
    root sqrtf sum
  else
    let _ ← asInt (column * column)
    let S ← if row = column then svdValues sqrtf A row maxIterationCountSvd (svdArrays row)
      else golubReinsch A row column
    (upTo 0 column).foldlM (normLargest S) 0

/-- The largest of numbers that are not negative. -/
theorem normLargest_zero [IsStrictOrderedRing K] {S : Buffer K} {column : Nat} (room : column ≤ S.size)
    (positive : 0 < column) (nonneg : ∀ j < column, 0 ≤ S.cells j) :
    Returns ((upTo 0 column).foldlM (normLargest S) 0) fun largest =>
      (∀ j < column, S.cells j ≤ largest) ∧ ∃ j < column, S.cells j = largest := by
  refine (Returns.loop (fun t (largest : K) => 0 ≤ largest ∧ (∀ j < t, S.cells j ≤ largest) ∧
    (largest = 0 ∨ ∃ j < t, S.cells j = largest)) (Nat.zero_le column)
      ⟨le_rfl, fun j below => absurd below (Nat.not_lt_zero j), Or.inl rfl⟩ ?_).weaken ?_
  · rintro t largest - below ⟨above, bound, attained⟩
    apply Returns.known (S.read_inside (below.trans_le room))
    refine ⟨_, rfl, ?_⟩
    split
    case isTrue less =>
      refine ⟨above.trans less.le, fun j before => ?_, Or.inr ⟨t, Nat.lt_succ_self t, rfl⟩⟩
      rcases Nat.lt_succ_iff_lt_or_eq.mp before with before | rfl
      · exact (bound j before).trans less.le
      · exact le_rfl
    case isFalse other =>
      refine ⟨above, fun j before => ?_, attained.imp id fun ⟨j, before, same⟩ =>
        ⟨j, Nat.lt_succ_of_lt before, same⟩⟩
      rcases Nat.lt_succ_iff_lt_or_eq.mp before with before | rfl
      · exact bound j before
      · exact not_lt.mp other
  · rintro largest ⟨-, bound, attained⟩
    refine ⟨bound, attained.elim (fun zero => ⟨0, positive, ?_⟩) id⟩
    subst zero
    exact le_antisymm (bound 0 positive) (nonneg 0 positive)

end

/-! Lengths. -/

section
variable {row : Nat} {A V : Matrix (Fin row) (Fin row) ℝ}

/-- What a column of an orthogonal matrix is sent to has the length of that column of the product. -/
theorem column_length (j : Fin row) :
    products (A * V) j j = (A *ᵥ fun i => V i j) ⬝ᵥ (A *ᵥ fun i => V i j) := rfl

/-- No vector is sent further than the sum of the squares allows. -/
theorem squares_bound (A : Matrix (Fin row) (Fin row) ℝ) (x : Fin row → ℝ) :
    (A *ᵥ x) ⬝ᵥ (A *ᵥ x) ≤ (∑ i, ∑ j, A i j * A i j) * (x ⬝ᵥ x) := by
  rw [dotProduct, Finset.sum_mul]
  apply Finset.sum_le_sum
  intro i _
  have cauchy := Finset.sum_mul_sq_le_sq_mul_sq Finset.univ (A i) x
  simp only [sq] at cauchy
  exact cauchy

/-- Where the columns of the product are orthogonal, the longest of them bounds all vectors. -/
theorem orthogonal_bound {bound : ℝ} (orthogonal : Vᵀ * V = 1)
    (apart : ∀ p q, p ≠ q → products (A * V) p q = 0) (lengths : ∀ j, products (A * V) j j ≤ bound)
    (x : Fin row → ℝ) : (A *ᵥ x) ⬝ᵥ (A *ᵥ x) ≤ bound * (x ⬝ᵥ x) := by
  have back : V * Vᵀ = 1 := mul_eq_one_comm.mp orthogonal
  let y := Vᵀ *ᵥ x
  have image : A *ᵥ x = (A * V) *ᵥ y := by
    rw [Matrix.mulVec_mulVec, Matrix.mul_assoc, back, Matrix.mul_one]
  have length : y ⬝ᵥ y = x ⬝ᵥ x := by
    rw [Matrix.dotProduct_mulVec, Matrix.vecMul_transpose, Matrix.mulVec_mulVec, back, Matrix.one_mulVec]
  have scaled : products (A * V) *ᵥ y = fun j => products (A * V) j j * y j := by
    have diagonal : products (A * V) = Matrix.diagonal fun j => products (A * V) j j := by
      ext p q
      by_cases same : p = q
      · rw [same, Matrix.diagonal_apply_eq]
      · rw [Matrix.diagonal_apply_ne _ same, apart p q same]
    rw [diagonal]
    funext j
    rw [Matrix.mulVec_diagonal, Matrix.diagonal_apply_eq]
  calc (A *ᵥ x) ⬝ᵥ (A *ᵥ x) = y ⬝ᵥ (products (A * V) *ᵥ y) := by
        rw [image, products, ← Matrix.mulVec_mulVec y (A * V)ᵀ (A * V), Matrix.dotProduct_mulVec y,
          Matrix.vecMul_transpose]
    _ = ∑ j, y j * (products (A * V) j j * y j) := by
        rw [scaled]
        rfl
    _ ≤ ∑ j, bound * (y j * y j) := by
        refine Finset.sum_le_sum fun j _ => ?_
        rw [mul_left_comm]
        exact mul_le_mul_of_nonneg_right (lengths j) (mul_self_nonneg (y j))
    _ = bound * (x ⬝ᵥ x) := by
        rw [← Finset.mul_sum, ← length]
        rfl

end

/-! The largest singular value. -/

section
variable {row : Nat} {Ain : Buffer ℝ} {golubReinsch : Buffer ℝ → Nat → Nat → Option (Buffer ℝ)}

/-- Copying the matrix first changes nothing. -/
theorem svdValues_copied (small : row * row ≤ intMax) (room : row * row ≤ Ain.size)
    {svd : SingularValues ℝ} {sweeps : Nat} :
    svdValues Real.sqrt ⟨row * row, fun i => if i < row * row then Ain.cells i else 0⟩ row sweeps svd =
      svdValues Real.sqrt Ain row sweeps svd := by
  have again : (⟨row * row, fun _ => 0⟩ : Buffer ℝ).copy
      ⟨row * row, fun i => if i < row * row then Ain.cells i else 0⟩ (row * row) =
        some ⟨row * row, fun i => if i < row * row then Ain.cells i else 0⟩ := by
    rw [Buffer.copy, if_pos ⟨le_rfl, le_rfl⟩]
    congr 2
    funext i
    exact ite_congr rfl (fun inside => if_pos inside) fun _ => rfl
  simp only [svdValues, svdPrepare, asInt_small small, Option.bind_eq_bind, Option.bind_some,
    Buffer.copy_whole Ain _ _ room, again]

/-- They are those of the whole call. -/
theorem svdValues_agree {svd svd' : SingularValues ℝ} {sweeps : Nat}
    (called : svdJacobiOneSided Real.sqrt Ain row sweeps svd = some svd') :
    svdValues Real.sqrt Ain row sweeps svd = some svd'.S := by
  obtain ⟨start, prepared, rest⟩ := Option.bind_eq_some_iff.mp called
  obtain ⟨columns, swept, finished⟩ := Option.bind_eq_some_iff.mp rest
  obtain ⟨sorting, sorted, divided⟩ := Option.bind_eq_some_iff.mp finished
  obtain ⟨_, -, copied⟩ := Option.bind_eq_some_iff.mp divided
  obtain ⟨U, -, last⟩ := Option.bind_eq_some_iff.mp copied
  obtain rfl := Option.some.inj last
  simp only [svdValues, prepared, swept, sorted, Option.bind_eq_bind, Option.bind_some, Option.pure_def]

/-- The singular values that the norm goes through. -/
theorem svdValues_ran {svd : SingularValues ℝ} {S : Buffer ℝ} {sweeps : Nat} (room : SvdRoom row Ain svd)
    (called : svdValues Real.sqrt Ain row sweeps svd = some S) : ∃ columns, SvdTo (Ain.matrix row) columns ∧
      row ≤ S.size ∧ (∃ order : Equiv.Perm (Fin row), ∀ j, S.vector row j =
        Real.sqrt (products (columns.A.matrix row) (order j) (order j))) ∧
      ∀ svd', svdJacobiOneSided Real.sqrt Ain row sweeps svd = some svd' → leftApart row svd' = 0 →
        apartness row columns = 0 := by
  obtain ⟨start, prepared, started⟩ := svdPrepare_returns room
  rw [svdValues, prepared, Option.bind_eq_bind, Option.bind_some] at called
  obtain ⟨columns, swept, sorted⟩ := Option.bind_eq_some_iff.mp called
  have part : SvdTo (Ain.matrix row) columns := started.swept swept
  obtain ⟨sorting, ran, fits, -, order, roots, -, -⟩ :=
    svdSorted_returns (part.room started.roomS) started.clear
  rw [ran] at sorted
  obtain rfl : sorting.S = S := Option.some.inj sorted
  refine ⟨columns, part, fits.S, ⟨order, roots⟩, fun svd' called' zero => ?_⟩
  rw [svdJacobiOneSided, prepared, Option.bind_eq_bind, Option.bind_some, swept, Option.bind_eq_bind,
    Option.bind_some] at called'
  rcases svdFinish_cases (part.room started.roomS) started.roomU started.clear with
    ⟨⟨_, same, done⟩, -⟩ | ⟨stopped, -⟩
  · obtain rfl := Option.some.inj (same.symm.trans called')
    exact done.apart.symm.trans zero
  · exact absurd (called'.symm.trans stopped) (Option.some_ne_none _)

/-- A call goes through the singular values. -/
theorem smlsMatNormTwo_program (more : 2 ≤ row) (rows : row ≤ 46340) (room : row * row ≤ Ain.size) :
    smlsMatNormTwo Real.sqrt golubReinsch Ain row row =
      svdValues Real.sqrt Ain row maxIterationCountSvd (svdArrays row) >>= fun S =>
        (upTo 0 row).foldlM (normLargest S) 0 := by
  have small := square_small rows
  rw [smlsMatNormTwo, asInt_small small, Option.bind_eq_bind, Option.bind_some,
    Buffer.copy_whole Ain _ _ room, Option.bind_eq_bind, Option.bind_some, if_neg (by omega), if_pos rfl,
    Option.bind_some, svdValues_copied small room]

/-- Where the singular values are numbers, the norm of a square matrix is the length of what some
unit vector is sent to after the sweeps, and no vector is sent further than the root of the number of
rows allows; where the left singular vectors are orthogonal, no vector is sent further than the norm. -/
theorem normTwo_bounds {S : Buffer ℝ} (more : 2 ≤ row) (rows : row ≤ 46340) (room : row * row ≤ Ain.size)
    (numbers : svdValues Real.sqrt Ain row maxIterationCountSvd (svdArrays row) = some S) :
    ∃ norm, smlsMatNormTwo Real.sqrt golubReinsch Ain row row = some norm ∧ 0 ≤ norm ∧
    (∃ x, x ⬝ᵥ x = 1 ∧ (Ain.matrix row *ᵥ x) ⬝ᵥ (Ain.matrix row *ᵥ x) = norm * norm) ∧
    (∀ x, (Ain.matrix row *ᵥ x) ⬝ᵥ (Ain.matrix row *ᵥ x) ≤ row * (norm * norm) * (x ⬝ᵥ x)) ∧
    ∀ svd', svdJacobiOneSided Real.sqrt Ain row maxIterationCountSvd (svdArrays row) = some svd' →
      leftApart row svd' = 0 →
        ∀ x, (Ain.matrix row *ᵥ x) ⬝ᵥ (Ain.matrix row *ᵥ x) ≤ norm * norm * (x ⬝ᵥ x) := by
  obtain ⟨columns, part, inside, ⟨order, roots⟩, converged⟩ :=
    svdValues_ran (svdArrays_room rows room) numbers
  have nonneg (j : Nat) (below : j < row) : 0 ≤ S.cells j :=
    (Real.sqrt_nonneg _).trans_eq (roots ⟨j, below⟩).symm
  obtain ⟨norm, largest, bound, j, below, attained⟩ := normLargest_zero inside (by omega) nonneg
  have squares (j : Fin row) : S.vector row j * S.vector row j =
      products (Ain.matrix row * columns.V.matrix row) (order j) (order j) := by
    rw [roots, Real.mul_self_sqrt (products_nonneg _ _), part.product]
  have lengths (j : Fin row) : products (Ain.matrix row * columns.V.matrix row) j j ≤ norm * norm := by
    rw [← order.apply_symm_apply j, ← squares]
    exact mul_self_le_mul_self (nonneg _ (order.symm j).isLt) (bound _ (order.symm j).isLt)
  refine ⟨norm, ?_, attained ▸ nonneg j below, ⟨fun i => columns.V.matrix row i (order ⟨j, below⟩), ?_, ?_⟩,
    fun x => ?_, fun svd' called' zero => ?_⟩
  · rw [smlsMatNormTwo_program more rows room, numbers]
    exact largest
  · exact (congrFun (congrFun part.orthogonal _) _).trans (Matrix.one_apply_eq _)
  · rw [← column_length, ← squares, ← attained]
    rfl
  · have total := rotated_squares part.orthogonal (A := Ain.matrix row)
    refine (squares_bound (Ain.matrix row) x).trans ?_
    refine mul_le_mul_of_nonneg_right ?_ (Finset.sum_nonneg fun i _ => mul_self_nonneg _)
    rw [← total]
    refine (Finset.sum_le_card_nsmul Finset.univ _ _ fun j _ => lengths j).trans_eq ?_
    rw [Finset.card_univ, Fintype.card_fin, nsmul_eq_mul]
  · have orthogonal := converged svd' called' zero
    rw [apartness, offDiagonal_zero_iff, part.product] at orthogonal
    exact orthogonal_bound part.orthogonal orthogonal lengths

end

theorem normTwo_bounds_two :
    ∃ norm, smlsMatNormTwo Real.sqrt (fun _ _ _ => none) twoLengths 2 2 = some norm ∧
    (∃ x, x ⬝ᵥ x = 1 ∧ (twoLengths.matrix 2 *ᵥ x) ⬝ᵥ (twoLengths.matrix 2 *ᵥ x) = norm * norm) ∧
    ∀ x, (twoLengths.matrix 2 *ᵥ x) ⬝ᵥ (twoLengths.matrix 2 *ᵥ x) ≤ norm * norm * (x ⬝ᵥ x) := by
  have room : 2 * 2 ≤ twoLengths.size := le_rfl
  have fits : SvdRoom 2 twoLengths (svdArrays 2) := svdArrays_room (by decide) room
  rcases svd_orthogonal_cases fits (by decide : 0 < maxIterationCountSvd) twoLengths_orthogonal with
    ⟨⟨svd, called, left⟩, -⟩ | ⟨-, alike⟩
  · obtain ⟨norm, returned, -, attained, -, bounded⟩ :=
      normTwo_bounds le_rfl (by decide) room (svdValues_agree called)
    have done := svd_decomposed fits called
    exact ⟨norm, returned, attained,
      bounded svd called ((leftApart_zero_iff done.unit done.positive).mpr left)⟩
  · exact absurd twoLengths_apart alike

end Simuless.Linalg
