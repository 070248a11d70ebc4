import Simuless.Linalg.SvdFinish

/-! Singular value decompositions.

A call with a result always comes to factors of the matrix, whose right one is
orthogonal. How far the left one is from that only depends on the number of
sweeps, each of which comes nearer. Columns that are orthogonal from the start
are told apart by their lengths.
-/

set_option autoImplicit false

namespace Simuless.Linalg

open Foundation
open scoped Matrix

variable {row : Nat} {Ain : Buffer ℝ} {svd svd' : SingularValues ℝ}

/-- The buffers of a call are large enough, and their sizes are `int`s. -/
structure SvdRoom (row : Nat) (Ain : Buffer ℝ) (svd : SingularValues ℝ) : Prop where
  rows : row ≤ 46340
  Ain : row * row ≤ Ain.size
  U : row * row ≤ svd.U.size
  S : row ≤ svd.S.size
  V : row * row ≤ svd.V.size

theorem svdArrays_room (rows : row ≤ 46340) (room : row * row ≤ Ain.size) :
    SvdRoom row Ain (svdArrays row) :=
  ⟨rows, room, le_rfl, le_rfl, le_rfl⟩

/-- How far the left singular vectors, weighted, are from being orthogonal. -/
def leftApart (row : Nat) (svd : SingularValues ℝ) : ℝ :=
  offDiagonal (products (svd.U.matrix row * Matrix.diagonal (svd.S.vector row)))

theorem cleared_matrix {M : Buffer ℝ} {size : Nat} :
    (⟨size, fun i => if i < row * row then 0 else M.cells i⟩ : Buffer ℝ).matrix row = 0 :=
  Matrix.ext fun i j => if_pos (flat_lt i.isLt j.isLt)

/-- The arrays that the rotations start from. -/
structure SvdStart (row : Nat) (Ain U S : Buffer ℝ) (start : Columns ℝ) : Prop where
  rows : row ≤ 46340
  roomU : row * row ≤ U.size
  roomS : row ≤ S.size
  clear : ∀ j < row, S.cells j = 0
  roomA : row * row ≤ start.A.size
  roomV : row * row ≤ start.V.size
  matrix : start.A.matrix row = Ain.matrix row
  unit : start.V.matrix row = 1

theorem SvdStart.svdTo {U S : Buffer ℝ} {start : Columns ℝ} (started : SvdStart row Ain U S start) :
    SvdTo (Ain.matrix row) start where
  rows := started.rows
  roomA := started.roomA
  roomV := started.roomV
  orthogonal := by rw [started.unit, Matrix.transpose_one, Matrix.one_mul]
  product := by rw [started.matrix, started.unit, Matrix.mul_one]

/-- A call starts with the matrix and the identity. -/
theorem svdPrepare_returns (room : SvdRoom row Ain svd) :
    Returns (svdPrepare Ain row svd) fun start => SvdStart row Ain start.U start.S start.columns := by
  have identified {M : Buffer ℝ} (fits : row * row ≤ M.size) : Returns
      ((upTo 0 row).foldlM (svdIdentity row) ⟨M.size, fun i => if i < row * row then 0 else M.cells i⟩)
      fun M' => M'.size = M.size ∧ M'.matrix row = 1 :=
    identity_loop cleared_matrix fun i below M' size =>
      Buffer.writeFrom_flat room.rows (size.symm ▸ fits) below below 1
  have small := square_small room.rows
  rw [svdPrepare, Buffer.clearInt_small _ small, Buffer.clearInt_small _ small]
  apply Returns.known (asInt_small small)
  apply Returns.known (Buffer.copy_whole Ain _ _ room.Ain)
  apply Returns.known (if_pos room.U)
  apply Returns.known (if_pos room.V)
  apply Returns.known (if_pos room.S)
  refine Returns.next (identified room.U) fun U _ ⟨sizeU, _⟩ => ?_
  refine Returns.next (identified room.V) fun V _ ⟨sizeV, unit⟩ => ?_
  refine Returns.done ⟨room.rows, sizeU.symm ▸ room.U, room.S, fun j below => if_pos below, le_rfl,
    sizeV.symm ▸ room.V, ?_, unit⟩
  exact Matrix.ext fun i j => if_pos (flat_lt i.isLt j.isLt)

theorem svd_program (room : SvdRoom row Ain svd) : ∃ U S start, SvdStart row Ain U S start ∧ ∀ sweeps,
    svdJacobiOneSided Real.sqrt Ain row sweeps svd =
      (upTo 0 sweeps).foldlM (svdSweep Real.sqrt row) start >>= svdFinish Real.sqrt row U S := by
  obtain ⟨start, prepared, started⟩ := svdPrepare_returns room
  refine ⟨start.U, start.S, start.columns, started, fun sweeps => ?_⟩
  rw [svdJacobiOneSided, prepared]
  rfl

theorem SvdTo.room {Ain : Matrix (Fin row) (Fin row) ℝ} {columns : Columns ℝ} (part : SvdTo Ain columns)
    {S : Buffer ℝ} (room : row ≤ S.size) : SortingRoom row ⟨S, columns⟩ :=
  ⟨part.rows, room, part.roomA, part.roomV⟩

/-- The columns after any number of sweeps. -/
theorem SvdStart.swept {U S : Buffer ℝ} {start columns : Columns ℝ} {sweeps : Nat}
    (started : SvdStart row Ain U S start)
    (ran : (upTo 0 sweeps).foldlM (svdSweep Real.sqrt row) start = some columns) :
    SvdTo (Ain.matrix row) columns := by
  cases sweeps with
  | zero =>
    rw [upTo_self] at ran
    exact Option.some.inj ran ▸ started.svdTo
  | succ sweeps => exact (svdSweeps_ran (Nat.succ_pos sweeps) started.svdTo ran).1

/-- A call with a result has gone through its sweeps. -/
theorem svd_ran {U S : Buffer ℝ} {start : Columns ℝ} {sweeps : Nat} (started : SvdStart row Ain U S start)
    (ran : (upTo 0 sweeps).foldlM (svdSweep Real.sqrt row) start >>= svdFinish Real.sqrt row U S =
      some svd') : ∃ columns, (upTo 0 sweeps).foldlM (svdSweep Real.sqrt row) start = some columns ∧
        SvdTo (Ain.matrix row) columns ∧ SvdDone row columns svd' := by
  obtain ⟨columns, swept, finished⟩ := Option.bind_eq_some_iff.mp ran
  have part := started.swept swept
  refine ⟨columns, swept, part, ?_⟩
  rcases svdFinish_cases (part.room started.roomS) started.roomU started.clear with
    ⟨⟨_, same, done⟩, -⟩ | ⟨stopped, -⟩
  · rw [finished] at same
    cases same
    exact done
  · rw [stopped] at finished
    cases finished

/-! What a result is. -/

section
variable {columns : Columns ℝ}

/-- The products of the columns in another order. -/
theorem products_submatrix (M : Matrix (Fin row) (Fin row) ℝ) (order : Equiv.Perm (Fin row))
    (p q : Fin row) : products (M.submatrix id order) p q = products M (order p) (order q) := rfl

theorem SvdDone.square (done : SvdDone row columns svd') :
    ∃ order : Equiv.Perm (Fin row), ∀ j, svd'.S.vector row j * svd'.S.vector row j =
      products (columns.A.matrix row) (order j) (order j) := by
  obtain ⟨order, roots, -⟩ := done.order
  refine ⟨order, fun j => ?_⟩
  rw [roots, Real.mul_self_sqrt (products_nonneg _ _)]

/-- The products of the left singular vectors, weighted. -/
theorem weighted_products (U : Matrix (Fin row) (Fin row) ℝ) (S : Fin row → ℝ) (p q : Fin row) :
    products (U * Matrix.diagonal S) p q = S p * products U p q * S q := by
  rw [products_apply, products_apply, Finset.mul_sum, Finset.sum_mul]
  apply Finset.sum_congr rfl
  intro k _
  rw [Matrix.mul_diagonal, Matrix.mul_diagonal]
  ring

/-- Left singular vectors have length one. -/
theorem SvdDone.unit (done : SvdDone row columns svd') (j : Fin row) :
    products (svd'.U.matrix row) j j = 1 := by
  have weighted := weighted_products (svd'.U.matrix row) (svd'.S.vector row) j j
  obtain ⟨order, roots, product, -⟩ := done.order
  have square := Real.mul_self_sqrt (products_nonneg (columns.A.matrix row) (order j))
  rw [product, products_submatrix, ← square, ← roots] at weighted
  have positive := done.positive j
  have nonzero : svd'.S.vector row j * svd'.S.vector row j ≠ 0 := (mul_pos positive positive).ne'
  apply mul_left_cancel₀ nonzero
  rw [mul_one]
  linear_combination -weighted

/-- The left singular vectors are orthogonal where nothing is left to be rotated. -/
theorem leftApart_zero_iff (unit : ∀ j, products (svd'.U.matrix row) j j = 1)
    (positive : ∀ j, 0 < svd'.S.vector row j) :
    leftApart row svd' = 0 ↔ (svd'.U.matrix row)ᵀ * svd'.U.matrix row = 1 := by
  rw [leftApart, offDiagonal_zero_iff]
  constructor
  · intro zero
    ext p q
    rw [Matrix.one_apply]
    split
    case isTrue same => exact same ▸ unit p
    case isFalse apart =>
      have none := zero p q apart
      rw [weighted_products] at none
      rcases mul_eq_zero.mp none with none | none
      · exact (mul_eq_zero.mp none).resolve_left (positive p).ne'
      · exact absurd none (positive q).ne'
  · intro orthogonal p q apart
    have entry : products (svd'.U.matrix row) p q = 0 := by
      rw [products, orthogonal, Matrix.one_apply_ne apart]
    rw [weighted_products, entry, mul_zero, zero_mul]

theorem SvdDone.orthogonal_iff (done : SvdDone row columns svd') :
    leftApart row svd' = 0 ↔ (svd'.U.matrix row)ᵀ * svd'.U.matrix row = 1 :=
  leftApart_zero_iff done.unit done.positive

theorem SvdDone.apart (done : SvdDone row columns svd') :
    leftApart row svd' = apartness row columns := by
  obtain ⟨order, -, product, -⟩ := done.order
  rw [leftApart, product, offDiagonal_submatrix]
  rfl

/-- The columns of an orthogonal matrix in another order. -/
theorem reordered_orthogonal {V : Matrix (Fin row) (Fin row) ℝ} (orthogonal : Vᵀ * V = 1)
    (order : Equiv.Perm (Fin row)) : (V.submatrix id order)ᵀ * V.submatrix id order = 1 := by
  have same : (V.submatrix id order)ᵀ * V.submatrix id order = (Vᵀ * V).submatrix order order := rfl
  rw [same, orthogonal, Matrix.submatrix_one_equiv]

/-- A sum of squares that rotations keep. -/
theorem rotated_squares {A V : Matrix (Fin row) (Fin row) ℝ} (orthogonal : Vᵀ * V = 1) :
    ∑ j, products (A * V) j j = ∑ i, ∑ j, A i j * A i j := by
  have back : V * Vᵀ = 1 := mul_eq_one_comm.mp orthogonal
  calc ∑ j, products (A * V) j j = ((A * V)ᵀ * (A * V)).trace := rfl
    _ = (A * (V * Vᵀ) * Aᵀ).trace := by
        rw [Matrix.trace_mul_comm, Matrix.transpose_mul]
        simp only [Matrix.mul_assoc]
    _ = (A * Aᵀ).trace := by rw [back, Matrix.mul_one]
    _ = ∑ i, ∑ j, A i j * A i j := rfl

end

/-- No column of a regular matrix becomes zero. -/
theorem SvdTo.regular {Ain : Matrix (Fin row) (Fin row) ℝ} {columns : Columns ℝ} (part : SvdTo Ain columns)
    (regular : Ain.det ≠ 0) (j : Fin row) : products (columns.A.matrix row) j j ≠ 0 := by
  intro zero
  rw [products_apply, Finset.sum_mul_self_eq_zero_iff] at zero
  have singular : (columns.A.matrix row).det = 0 :=
    Matrix.det_eq_zero_of_column_eq_zero j fun i => zero i (Finset.mem_univ i)
  rw [part.product, Matrix.det_mul] at singular
  have unit := congrArg Matrix.det part.orthogonal
  rw [Matrix.det_mul, Matrix.det_one] at unit
  exact mul_ne_zero regular (right_ne_zero_of_mul_eq_one unit) singular

/-! Orthogonal columns. -/

section
variable {columns : Columns ℝ}

/-- Orthogonal columns of different lengths stay as they are. -/
theorem svdSweep_still {p : Nat} {Ain : Matrix (Fin row) (Fin row) ℝ} (part : SvdTo Ain columns)
    (zero : apartness row columns = 0) (different : ∀ i j : Fin row, i ≠ j →
      products (columns.A.matrix row) i i ≠ products (columns.A.matrix row) j j) :
    Returns (svdSweep Real.sqrt row columns p) fun columns' =>
      SvdTo Ain columns' ∧ Still row columns columns' := by
  have orthogonal := (offDiagonal_zero_iff _).mp zero
  refine Returns.loop (fun _ columns' => SvdTo Ain columns' ∧ Still row columns columns') (Nat.zero_le row)
    ⟨part, rfl, rfl⟩ fun i columns' _ below held => ?_
  refine Returns.loop (fun _ columns' => SvdTo Ain columns' ∧ Still row columns columns')
    (Nat.succ_le_of_lt below) held fun j columns' above below' ⟨part', sameA, sameV⟩ => ?_
  have apart : (⟨i, below⟩ : Fin row) ≠ ⟨j, below'⟩ := fun same => by
    have values := congrArg Fin.val same
    simp only at values
    omega
  have defined : ¬ Undefined (columns'.A.matrix row) ⟨i, below⟩ ⟨j, below'⟩ := by
    rw [sameA]
    exact fun undefined => different _ _ apart undefined.2
  refine (svdTurn_returns part'.rows part'.roomA part'.roomV apart defined).weaken fun columns'' turned => ?_
  obtain ⟨sameA', sameV'⟩ := turned.unchanged (sameA ▸ orthogonal _ _ apart)
  exact ⟨part'.turn apart turned, sameA'.trans sameA, sameV'.trans sameV⟩

/-- Two of the same length stop a sweep. -/
theorem svdSweep_stops {p : Nat} {Ain : Matrix (Fin row) (Fin row) ℝ} (part : SvdTo Ain columns)
    (zero : apartness row columns = 0) {i j : Fin row} (order : i < j)
    (same : products (columns.A.matrix row) i i = products (columns.A.matrix row) j j) :
    svdSweep Real.sqrt row columns p = none := by
  by_contra returned
  obtain ⟨columns', ran⟩ := Option.ne_none_iff_exists'.mp returned
  rcases (svdSweep_ran part ran).2 with nearer | ⟨-, -, defined⟩
  · rw [zero] at nearer
    exact absurd (offDiagonal_nonneg _) nearer.not_ge
  · exact defined i j order ⟨(offDiagonal_zero_iff _).mp zero i j order.ne, same⟩

/-- Columns of different lengths, none of them zero. -/
structure LengthsApart (M : Matrix (Fin row) (Fin row) ℝ) : Prop where
  nonzero : ∀ j, products M j j ≠ 0
  different : ∀ i j, i ≠ j → products M i i ≠ products M j j

/-- Matrices with orthogonal columns are left as they are, or have no result. -/
theorem svd_orthogonal_cases {sweeps : Nat} (room : SvdRoom row Ain svd) (positive : 0 < sweeps)
    (orthogonal : ∀ p q, p ≠ q → products (Ain.matrix row) p q = 0) :
    (∃ svd', svdJacobiOneSided Real.sqrt Ain row sweeps svd = some svd' ∧
      (svd'.U.matrix row)ᵀ * svd'.U.matrix row = 1) ∧ LengthsApart (Ain.matrix row) ∨
    svdJacobiOneSided Real.sqrt Ain row sweeps svd = none ∧ ¬ LengthsApart (Ain.matrix row) := by
  obtain ⟨U, S, start, started, program⟩ := svd_program room
  rw [program]
  have zero : apartness row start = 0 := by
    rw [apartness, started.matrix]
    exact (offDiagonal_zero_iff _).mpr orthogonal
  by_cases different : ∀ i j : Fin row, i ≠ j →
      products (Ain.matrix row) i i ≠ products (Ain.matrix row) j j
  · have swept : Returns ((upTo 0 sweeps).foldlM (svdSweep Real.sqrt row) start) fun columns =>
        SvdTo (Ain.matrix row) columns ∧ Still row start columns := by
      refine Returns.loop (fun _ columns => SvdTo (Ain.matrix row) columns ∧ Still row start columns)
        (Nat.zero_le sweeps) ⟨started.svdTo, rfl, rfl⟩ fun p columns _ _ held => ?_
      obtain ⟨part, sameA, sameV⟩ := held
      have zero' : apartness row columns = 0 := by rw [apartness, sameA, ← zero, apartness]
      have different' (i j : Fin row) (apart : i ≠ j) :
          products (columns.A.matrix row) i i ≠ products (columns.A.matrix row) j j := by
        rw [sameA, started.matrix]
        exact different i j apart
      refine (svdSweep_still part zero' different').weaken fun columns' still => ?_
      obtain ⟨part', sameA', sameV'⟩ := still
      exact ⟨part', sameA'.trans sameA, sameV'.trans sameV⟩
    obtain ⟨columns, ran, part, sameA, -⟩ := swept
    have lengths : columns.A.matrix row = Ain.matrix row := sameA.trans started.matrix
    rw [ran, Option.bind_eq_bind, Option.bind_some]
    rcases svdFinish_cases (part.room started.roomS) started.roomU started.clear with
      ⟨⟨svd', finished, done⟩, nonzero⟩ | ⟨stopped, j, vanishes⟩
    · refine Or.inl ⟨⟨svd', finished, ?_⟩, lengths ▸ nonzero, different⟩
      rw [← done.orthogonal_iff, done.apart, apartness, sameA, ← zero, apartness]
    · exact Or.inr ⟨stopped, fun apart => apart.nonzero j (lengths ▸ vanishes)⟩
  · refine Or.inr ⟨?_, fun apart => different apart.different⟩
    simp only [not_forall, not_not] at different
    obtain ⟨i, j, apart, same⟩ := different
    rw [← started.matrix] at same
    rw [upTo_cons positive, List.foldlM_cons]
    rcases lt_or_gt_of_ne apart with before | behind
    · rw [svdSweep_stops started.svdTo zero before same]
      rfl
    · rw [svdSweep_stops started.svdTo zero behind same.symm]
      rfl

end

/-- Two orthogonal columns, one of them twice as long. -/
def twoLengths : Buffer ℝ := ⟨4, fun i => if i = 0 then 1 else if i = 3 then 1 + 1 else 0⟩

theorem twoLengths_products (p q : Fin 2) :
    products (twoLengths.matrix 2) p q = if p = q then if p = 0 then 1 else 4 else 0 := by
  rw [products_apply, Fin.sum_univ_two]
  fin_cases p <;> fin_cases q <;> norm_num [Buffer.matrix, Buffer.entry, twoLengths]

theorem twoLengths_orthogonal (p q : Fin 2) (apart : p ≠ q) : products (twoLengths.matrix 2) p q = 0 := by
  rw [twoLengths_products, if_neg apart]

theorem twoLengths_apart : LengthsApart (twoLengths.matrix 2) where
  nonzero j := by
    rw [twoLengths_products, if_pos rfl]
    split <;> norm_num
  different i j apart := by
    rw [twoLengths_products, twoLengths_products, if_pos rfl, if_pos rfl]
    fin_cases i <;> fin_cases j <;> simp at apart ⊢

/-! Any number of sweeps. -/

/-- What a call leaves, after any number of sweeps. -/
structure Decomposed (row : Nat) (Ain : Buffer ℝ) (svd : SingularValues ℝ) : Prop where
  roomU : row * row ≤ svd.U.size
  roomS : row ≤ svd.S.size
  roomV : row * row ≤ svd.V.size
  product : svd.U.matrix row * Matrix.diagonal (svd.S.vector row) * (svd.V.matrix row)ᵀ = Ain.matrix row
  right : (svd.V.matrix row)ᵀ * svd.V.matrix row = 1
  unit : ∀ j : Fin row, ∑ i, svd.U.matrix row i j * svd.U.matrix row i j = 1
  positive : ∀ j, 0 < svd.S.vector row j
  descending : Antitone (svd.S.vector row)
  squares : ∑ j, svd.S.vector row j * svd.S.vector row j = ∑ i, ∑ j, Ain.matrix row i j * Ain.matrix row i j

theorem SvdTo.decomposed {columns : Columns ℝ} (part : SvdTo (Ain.matrix row) columns)
    (done : SvdDone row columns svd') : Decomposed row Ain svd' := by
  obtain ⟨order, roots, product, right⟩ := done.order
  have orthogonal := reordered_orthogonal part.orthogonal order
  refine ⟨done.roomU, done.roomS, done.roomV, ?_, right ▸ orthogonal, done.unit, done.positive,
    done.descending, ?_⟩
  · have turned : (columns.A.matrix row).submatrix id order =
        Ain.matrix row * (columns.V.matrix row).submatrix id order := by
      rw [part.product]
      rfl
    rw [product, right, turned, Matrix.mul_assoc, mul_eq_one_comm.mp orthogonal, Matrix.mul_one]
  · calc ∑ j, svd'.S.vector row j * svd'.S.vector row j
        = ∑ j, products (columns.A.matrix row) (order j) (order j) := by
          refine Finset.sum_congr rfl fun j _ => ?_
          rw [roots, Real.mul_self_sqrt (products_nonneg _ _)]
      _ = ∑ j, products (columns.A.matrix row) j j :=
          Equiv.sum_comp order fun j => products (columns.A.matrix row) j j
      _ = ∑ i, ∑ j, Ain.matrix row i j * Ain.matrix row i j := by
          rw [part.product, rotated_squares part.orthogonal]

theorem svd_decomposed {sweeps : Nat} (room : SvdRoom row Ain svd)
    (called : svdJacobiOneSided Real.sqrt Ain row sweeps svd = some svd') : Decomposed row Ain svd' := by
  obtain ⟨U, S, start, started, program⟩ := svd_program room
  rw [program] at called
  obtain ⟨columns, -, part, done⟩ := svd_ran started called
  exact part.decomposed done

/-- After any number of sweeps a result factors the matrix: the right singular vectors are
orthogonal, the left ones have length one, and the singular values are positive and descend; their
squares are what the squares of the entries add up to. -/
theorem svd_decomposition {sweeps : Nat} (room : SvdRoom row Ain svd)
    (called : svdJacobiOneSided Real.sqrt Ain row sweeps svd = some svd') :
    svd'.U.matrix row * Matrix.diagonal (svd'.S.vector row) * (svd'.V.matrix row)ᵀ = Ain.matrix row ∧
    (svd'.V.matrix row)ᵀ * svd'.V.matrix row = 1 ∧
    (∀ j : Fin row, ∑ i, svd'.U.matrix row i j * svd'.U.matrix row i j = 1) ∧
    (∀ j, 0 < svd'.S.vector row j) ∧ Antitone (svd'.S.vector row) ∧
    ∑ j, svd'.S.vector row j * svd'.S.vector row j = ∑ i, ∑ j, Ain.matrix row i j * Ain.matrix row i j := by
  have done := svd_decomposed room called
  exact ⟨done.product, done.right, done.unit, done.positive, done.descending, done.squares⟩

/-- A column with two ones, beside one with one. -/
def sheared : Buffer ℝ := ⟨4, fun i => if i = 2 then 0 else 1⟩

def emptySvd : SingularValues ℝ := ⟨⟨4, fun _ => 0⟩, ⟨2, fun _ => 0⟩, ⟨4, fun _ => 0⟩⟩

theorem sheared_room : SvdRoom 2 sheared emptySvd := ⟨by decide, le_rfl, le_rfl, le_rfl, le_rfl⟩

theorem sheared_products : products (sheared.matrix 2) 0 1 = 1 := by
  rw [products_apply, Fin.sum_univ_two]
  simp [Buffer.matrix, Buffer.entry, sheared]

theorem sheared_det : (sheared.matrix 2).det ≠ 0 := by
  rw [Matrix.det_fin_two]
  simp [Buffer.matrix, Buffer.entry, sheared]

/-- Its only pair is rotated. -/
theorem sheared_called {sweeps : Nat} (few : sweeps ≤ 1) :
    ∃ svd', svdJacobiOneSided Real.sqrt sheared 2 sweeps emptySvd = some svd' := by
  obtain ⟨U, S, start, started, program⟩ := svd_program sheared_room
  have defined : ¬ Undefined (start.A.matrix 2) 0 1 := by
    rw [started.matrix]
    exact fun undefined => one_ne_zero (sheared_products.symm.trans undefined.1)
  have apart : (0 : Fin 2) ≠ 1 := by decide
  have swept : ∃ columns, (upTo 0 sweeps).foldlM (svdSweep Real.sqrt 2) start = some columns ∧
      SvdTo (sheared.matrix 2) columns := by
    interval_cases sweeps
    · exact ⟨start, rfl, started.svdTo⟩
    · obtain ⟨columns, ran, turned⟩ := svdTurn_returns started.rows started.roomA started.roomV apart defined
      refine ⟨columns, ?_, started.svdTo.turn apart turned⟩
      have turns : (upTo 0 1).foldlM (svdSweep Real.sqrt 2) start = svdTurn Real.sqrt 2 0 start 1 := by
        simp [upTo, svdSweep, svdRow, List.range']
      exact turns.trans ran
  obtain ⟨columns, ran, part⟩ := swept
  rw [program, ran]
  rcases svdFinish_cases (part.room started.roomS) started.roomU started.clear with
    ⟨⟨svd', finished, -⟩, -⟩ | ⟨-, j, vanishes⟩
  · exact ⟨svd', finished⟩
  · exact absurd vanishes (part.regular sheared_det j)

theorem svd_decomposition_sheared : ∃ svd', svdJacobiOneSided Real.sqrt sheared 2 1 emptySvd = some svd' ∧
    svd'.U.matrix 2 * Matrix.diagonal (svd'.S.vector 2) * (svd'.V.matrix 2)ᵀ = sheared.matrix 2 ∧
    (svd'.V.matrix 2)ᵀ * svd'.V.matrix 2 = 1 ∧ Antitone (svd'.S.vector 2) := by
  obtain ⟨svd', called⟩ := sheared_called (Nat.le_refl 1)
  obtain ⟨product, right, -, -, descending, -⟩ := svd_decomposition sheared_room called
  exact ⟨svd', called, product, right, descending⟩

end Simuless.Linalg
