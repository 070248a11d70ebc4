import Simuless.Foundation.Lyapunov
import Simuless.Foundation.Stall
import Simuless.Linalg.CrowdedPivots
import Simuless.Linalg.LinsolveLup
import Simuless.Linalg.MatOps

/-! The discrete Lyapunov equation.

Its matrix is set up block by block and solved for by pivoting. What the solver
reports is not looked at, and more than 256 unknowns are too many for it.
-/

set_option autoImplicit false

namespace Simuless.Linalg

open Foundation
open scoped Matrix

variable {K : Type} [Field K] [LinearOrder K]

/-- A number as an argument of type `uint16_t`. -/
def asUint16 (value : Nat) : Nat := value % 65536

/-- The target and both pointers, as indices. -/
structure Inserting (K : Type) where
  B : Buffer K
  b : Nat
  apos : Nat

def insertRow (A : Buffer K) (columnA columnB : Nat) (walk : Inserting K) (_i : Nat) :
    Option (Inserting K) := do
  let B ← walk.B.copyAt walk.b A walk.apos columnA
  return ⟨B, walk.b + columnB, walk.apos + columnA⟩

/-- In a target whose size is an `int` the start is one, too. -/
def insert (B A : Buffer K) (rowA columnA columnB startRowB startColumnB : Nat) : Option (Buffer K) := do
  let walk ← (upTo 0 rowA).foldlM (insertRow A columnA columnB)
    ⟨B, startRowB * columnB + startColumnB, 0⟩
  return walk.B

/-- The matrix, and the array for a block. -/
structure Assembling (K : Type) where
  M : Buffer K
  B : Buffer K

/-- `B[i] *= A[row * k + l]`. -/
def dlyapScale (row k l : Nat) (A B : Buffer K) (i : Nat) : Option (Buffer K) := do
  let item ← B.read i
  let factor ← A.read (row * k + l)
  B.write i (item * factor)

def dlyapBlock (A : Buffer K) (row k : Nat) (assembling : Assembling K) (l : Nat) :
    Option (Assembling K) := do
  let B ← assembling.B.copy A (row * row)
  let B ← (upTo 0 (row * row)).foldlM (dlyapScale row k l A) B
  let M ← insert assembling.M B row row (asUint16 (row * row)) (asUint16 (row * k)) (asUint16 (row * l))
  return ⟨M, B⟩

def dlyapBlocks (A : Buffer K) (row : Nat) (assembling : Assembling K) (k : Nat) :
    Option (Assembling K) :=
  (upTo 0 row).foldlM (dlyapBlock A row k) assembling

def dlyapEntry (row i : Nat) (M : Buffer K) (j : Nat) : Option (Buffer K) := do
  let entry ← M.read (row * row * i + j)
  M.write (row * row * i + j) (if i = j then -entry + 1 else -entry)

def dlyapRow (row : Nat) (M : Buffer K) (i : Nat) : Option (Buffer K) :=
  (upTo 0 (row * row)).foldlM (dlyapEntry row i) M

/-- What `P` holds, with this reading of the test of the pivots; the arrays of the call itself
are not set before they are written. -/
def dlyap (refused : K → Prop) [DecidablePred refused] (A P Q : Buffer K) (row : Nat) :
    Option (Buffer K) := do
  let assembling ← (upTo 0 row).foldlM (dlyapBlocks A row)
    ⟨⟨row * row * row * row, fun _ => 0⟩, ⟨row * row, fun _ => 0⟩⟩
  let M ← (upTo 0 (row * row)).foldlM (dlyapRow row) assembling.M
  let (_, P) ← smlsLinsolveLupBy refused M P Q (asUint16 (row * row))
  return P

/-! Blocks. -/

section
variable {A B : Buffer K} {rowA columnA columnB startRow startColumn i : Nat}

omit [Field K] [LinearOrder K] in
/-- Which entries a row of a block covers. -/
theorem block_row_iff {row r c : Nat} (inColumn : c < columnB) (fits : startColumn + columnA ≤ columnB) :
    row * columnB + startColumn ≤ columnB * r + c ∧
      columnB * r + c < row * columnB + startColumn + columnA ↔
        r = row ∧ startColumn ≤ c ∧ c < startColumn + columnA := by
  rw [Nat.mul_comm row columnB]
  rcases Nat.lt_trichotomy r row with before | rfl | behind
  · have earlier : columnB * (r + 1) ≤ columnB * row := Nat.mul_le_mul_left columnB before
    rw [Nat.mul_succ] at earlier
    omega
  · omega
  · have later : columnB * (row + 1) ≤ columnB * r := Nat.mul_le_mul_left columnB behind
    rw [Nat.mul_succ] at later
    omega

/-- The first rows of a block are in place. -/
structure InsertedTo (columnA columnB startRow startColumn : Nat) (A B : Buffer K) (i : Nat)
    (walk : Inserting K) : Prop where
  size : walk.B.size = B.size
  b : walk.b = (startRow + i) * columnB + startColumn
  apos : walk.apos = i * columnA
  entries : ∀ r, ∀ c < columnB, walk.B.entry columnB r c =
    if (startRow ≤ r ∧ r < startRow + i) ∧ startColumn ≤ c ∧ c < startColumn + columnA then
      A.entry columnA (r - startRow) (c - startColumn)
    else B.entry columnB r c

omit [Field K] [LinearOrder K] in
theorem InsertedTo.next {walk : Inserting K}
    (part : InsertedTo columnA columnB startRow startColumn A B i walk)
    (source : (i + 1) * columnA ≤ A.size) (target : (startRow + i + 1) * columnB ≤ B.size)
    (fits : startColumn + columnA ≤ columnB) : Returns (insertRow A columnA columnB walk i)
      (InsertedTo columnA columnB startRow startColumn A B (i + 1)) := by
  rw [Nat.succ_mul] at source target
  have room : walk.b + columnA ≤ walk.B.size ∧ walk.apos + columnA ≤ A.size := by
    rw [part.b, part.apos, part.size]
    omega
  apply Returns.known (if_pos (Or.inr room))
  refine Returns.done ⟨part.size, ?_, ?_, fun r c inColumn => ?_⟩
  · rw [part.b, ← Nat.add_assoc startRow, Nat.succ_mul]
    exact Nat.add_right_comm _ _ _
  · rw [part.apos, Nat.succ_mul]
  · have covered : walk.b ≤ columnB * r + c ∧ columnB * r + c < walk.b + columnA ↔
        r = startRow + i ∧ startColumn ≤ c ∧ c < startColumn + columnA := by
      rw [part.b]
      exact block_row_iff inColumn fits
    refine (if_congr covered rfl rfl).trans ?_
    by_cases here : r = startRow + i ∧ startColumn ≤ c ∧ c < startColumn + columnA
    · have index : walk.apos + (columnB * r + c - walk.b) = columnA * i + (c - startColumn) := by
        rw [part.apos, part.b, here.1, Nat.mul_comm columnB, Nat.mul_comm columnA]
        omega
      rw [if_pos here, if_pos (by omega), index, here.1, Nat.add_sub_cancel_left]
      rfl
    · rw [if_neg here]
      refine (part.entries r c inColumn).trans (if_congr ?_ rfl rfl)
      omega

omit [Field K] [LinearOrder K] in
/-- A block is put into place and nothing else is touched. -/
theorem insert_returns (room : rowA * columnA ≤ A.size) (room' : (startRow + rowA) * columnB ≤ B.size)
    (fits : startColumn + columnA ≤ columnB) :
    Returns (insert B A rowA columnA columnB startRow startColumn) fun B' => B'.size = B.size ∧
      ∀ r, ∀ c < columnB, B'.entry columnB r c =
        if (startRow ≤ r ∧ r < startRow + rowA) ∧ startColumn ≤ c ∧ c < startColumn + columnA then
          A.entry columnA (r - startRow) (c - startColumn)
        else B.entry columnB r c := by
  have start : InsertedTo columnA columnB startRow startColumn A B 0
      ⟨B, startRow * columnB + startColumn, 0⟩ :=
    ⟨rfl, rfl, (Nat.zero_mul _).symm, fun r c _ => (if_neg (by omega)).symm⟩
  refine Returns.next (Returns.loop (InsertedTo columnA columnB startRow startColumn A B)
    (Nat.zero_le rowA) start fun i walk _ inRow part => ?_) fun walk _ part =>
      Returns.done ⟨part.size, part.entries⟩
  have below : startRow + i + 1 ≤ startRow + rowA := Nat.add_le_add_left inRow startRow
  exact part.next ((Nat.mul_le_mul_right columnA inRow).trans room)
    ((Nat.mul_le_mul_right columnB below).trans room') fits

end

/-! The matrix of the system. -/

section
variable {row k l : Nat} {A : Buffer K}

theorem asUint16_small {value : Nat} (small : value < 65536) : asUint16 value = value :=
  Nat.mod_eq_of_lt small

theorem few_unknowns (narrow : row ≤ 255) : row * row < 65536 :=
  (Nat.mul_le_mul narrow narrow).trans_lt (by decide)

omit [Field K] [LinearOrder K] in
/-- An index inside a block names the block. -/
theorem block_iff {k' r : Nat} (inBlock : r < row) :
    row * k ≤ row * k' + r ∧ row * k' + r < row * k + row ↔ k' = k := by
  have rows : k * row + 0 ≤ row * k' + r ∧ row * k' + r < k * row + 0 + row ↔
      k' = k ∧ 0 ≤ r ∧ r < 0 + row := block_row_iff inBlock (Nat.zero_add row).le
  rw [Nat.mul_comm k row] at rows
  omega

/-- The blocks before this one are in place. -/
structure Assembled (A : Buffer K) (row k l : Nat) (assembling : Assembling K) : Prop where
  M : assembling.M.size = row * row * (row * row)
  B : assembling.B.size = row * row
  blocks : ∀ k' < row, ∀ l' < row, (k' < k ∨ k' = k ∧ l' < l) → ∀ r < row, ∀ c < row,
    assembling.M.entry (row * row) (row * k' + r) (row * l' + c) = A.entry row r c * A.entry row k' l'

omit [LinearOrder K] in
theorem Assembled.block {assembling : Assembling K} (assembled : Assembled A row k l assembling)
    (room : row * row ≤ A.size) (narrow : row ≤ 255) (inRow : k < row) (inColumn : l < row) :
    Returns (dlyapBlock A row k assembling l) (Assembled A row k (l + 1)) := by
  have small := few_unknowns narrow
  have below (t : Nat) (inside : t < row) : row * t + row ≤ row * row := Nat.mul_le_mul_left row inside
  apply Returns.known (if_pos ⟨assembled.B.ge, room⟩)
  refine Returns.next (entrywise_loop (fun _ item => item * A.entry row k l) fun i inside B size => ?_)
    fun B _ ⟨size, scaled⟩ => ?_
  · have inB : i < B.size := by
      rw [size]
      exact inside.trans_le assembled.B.ge
    rw [dlyapScale, B.read_inside inB, Option.bind_eq_bind, Option.bind_some,
      A.read_inside ((flat_lt inRow inColumn).trans_le room)]
    exact B.write_inside inB _
  · have sizeB : row * row ≤ B.size := by
      rw [size]
      exact assembled.B.ge
    have target : (row * k + row) * (row * row) ≤ assembling.M.size := by
      rw [assembled.M]
      exact Nat.mul_le_mul_right (row * row) (below k inRow)
    have startRow : row * k < 65536 := (Nat.le_add_right _ row).trans_lt ((below k inRow).trans_lt small)
    have startColumn : row * l < 65536 :=
      (Nat.le_add_right _ row).trans_lt ((below l inColumn).trans_lt small)
    rw [asUint16_small small, asUint16_small startRow, asUint16_small startColumn]
    refine Returns.next (insert_returns sizeB target (below l inColumn)) fun M _ ⟨sizeM, entries⟩ => ?_
    refine Returns.done ⟨sizeM.trans assembled.M, size.trans assembled.B,
      fun k' inRow' l' inColumn' before r inBlock c inBlock' => ?_⟩
    refine (entries _ _ (flat_lt inColumn' inBlock')).trans ?_
    refine (if_congr (and_congr (block_iff inBlock) (block_iff inBlock')) rfl rfl).trans ?_
    by_cases here : k' = k ∧ l' = l
    · obtain ⟨rfl, rfl⟩ := here
      rw [if_pos ⟨rfl, rfl⟩, Nat.add_sub_cancel_left, Nat.add_sub_cancel_left]
      have inside := flat_lt inBlock inBlock'
      exact (scaled _ inside).trans (congrArg (· * A.entry row k' l') (if_pos inside))
    · rw [if_neg here]
      exact assembled.blocks k' inRow' l' inColumn' (by omega) r inBlock c inBlock'

omit [LinearOrder K] in
theorem assembled_blocks {assembling : Assembling K} (start : Assembled A row 0 0 assembling)
    (room : row * row ≤ A.size) (narrow : row ≤ 255) :
    Returns ((upTo 0 row).foldlM (dlyapBlocks A row) assembling) (Assembled A row row 0) := by
  refine Returns.loop (fun k => Assembled A row k 0) (Nat.zero_le row) start
    fun k assembling _ inRow part => ?_
  refine (Returns.loop (fun l => Assembled A row k l) (Nat.zero_le row) part
    fun l assembling _ inColumn part => part.block room narrow inRow inColumn).weaken
      fun assembling ⟨M, B, blocks⟩ => ⟨M, B, fun k' inRow' l' inColumn' before => ?_⟩
  exact blocks k' inRow' l' inColumn' (by omega)

/-- An entry with its sign changed, and one more on the diagonal. -/
def turned (s t : Nat) (entry : K) : K := if s = t then -entry + 1 else -entry

omit [LinearOrder K] in
theorem dlyapRow_returns {M : Buffer K} {i : Nat} (room : row * row * (row * row) ≤ M.size)
    (inRow : i < row * row) : Returns (dlyapRow row M i) fun M' => M'.size = M.size ∧
      ∀ s, ∀ t < row * row, M'.entry (row * row) s t =
        if s = i then turned i t (M.entry (row * row) s t) else M.entry (row * row) s t := by
  refine rowwise_loop (turned i) fun j inColumn M' size _ => ?_
  have inside : row * row * i + j < M'.size := by
    rw [size]
    exact (flat_lt inRow inColumn).trans_le room
  rw [dlyapEntry, M'.read_inside inside]
  exact M'.write_inside inside _

omit [LinearOrder K] in
theorem dlyapRow_loop {M : Buffer K} (room : row * row * (row * row) ≤ M.size) :
    Returns ((upTo 0 (row * row)).foldlM (dlyapRow row) M) fun M' => M'.size = M.size ∧
      ∀ s < row * row, ∀ t < row * row, M'.entry (row * row) s t =
        turned s t (M.entry (row * row) s t) := by
  refine (Returns.loop (fun i (M' : Buffer K) => M'.size = M.size ∧
    ∀ s, ∀ t < row * row, M'.entry (row * row) s t =
      if s < i then turned s t (M.entry (row * row) s t) else M.entry (row * row) s t)
    (Nat.zero_le _) ⟨rfl, fun s t _ => (if_neg (Nat.not_lt_zero s)).symm⟩ ?_).weaken
      fun M' ⟨size, entries⟩ => ⟨size, fun s inRow t inColumn =>
        (entries s t inColumn).trans (if_pos inRow)⟩
  rintro i M' - inRow ⟨size, entries⟩
  have fits : row * row * (row * row) ≤ M'.size := size.symm ▸ room
  refine (dlyapRow_returns fits inRow).weaken fun next ⟨size', entries'⟩ =>
    ⟨size'.trans size, fun s t inColumn => ?_⟩
  rw [entries' s t inColumn]
  by_cases here : s = i
  · rw [if_pos here, if_pos (by omega), entries s t inColumn, if_neg (by omega), here]
  · rw [if_neg here, entries s t inColumn]
    exact if_congr (by omega) rfl rfl

omit [LinearOrder K] in
/-- The matrix is the one of the equation with its unknowns row by row. -/
theorem dlyap_matrix (room : row * row ≤ A.size) (narrow : row ≤ 255) :
    Returns ((upTo 0 row).foldlM (dlyapBlocks A row)
      ⟨⟨row * row * row * row, fun _ => 0⟩, ⟨row * row, fun _ => 0⟩⟩ >>= fun assembling =>
        (upTo 0 (row * row)).foldlM (dlyapRow row) assembling.M) fun M =>
      M.size = row * row * (row * row) ∧ M.matrix (row * row) = lyapunovMatrix (A.matrix row) := by
  have start : Assembled A row 0 0
      ⟨⟨row * row * row * row, fun _ => 0⟩, ⟨row * row, fun _ => 0⟩⟩ :=
    ⟨Nat.mul_assoc (row * row) row row, rfl, fun k' _ l' _ before => by omega⟩
  refine Returns.next (assembled_blocks start room narrow) fun assembling _ assembled => ?_
  refine (dlyapRow_loop assembled.M.ge).weaken fun M ⟨size, entries⟩ =>
    ⟨size.trans assembled.M, ?_⟩
  ext s t
  obtain ⟨⟨k, r⟩, rfl⟩ := finProdFinEquiv.surjective s
  obtain ⟨⟨l, c⟩, rfl⟩ := finProdFinEquiv.surjective t
  have row_index : (finProdFinEquiv (k, r) : Nat) = row * k + r := Nat.add_comm _ _
  have column_index : (finProdFinEquiv (l, c) : Nat) = row * l + c := Nat.add_comm _ _
  have product : assembling.M.entry (row * row) (finProdFinEquiv (k, r)) (finProdFinEquiv (l, c)) =
      A.matrix row k l * A.matrix row r c := by
    rw [row_index, column_index]
    exact (assembled.blocks k k.isLt l l.isLt (Or.inl k.isLt) r r.isLt c c.isLt).trans (mul_comm _ _)
  refine (entries _ (finProdFinEquiv (k, r)).isLt _ (finProdFinEquiv (l, c)).isLt).trans ?_
  rw [turned, product]
  simp only [lyapunovMatrix, Matrix.submatrix_apply, Equiv.symm_apply_apply, Matrix.sub_apply,
    Matrix.one_apply, Matrix.kroneckerMap_apply, Fin.val_inj, EmbeddingLike.apply_eq_iff_eq]
  split
  · rw [sub_eq_neg_add]
  · rw [zero_sub]

omit [Field K] [LinearOrder K] in
theorem vector_rowMajor (buffer : Buffer K) :
    buffer.vector (row * row) = rowMajor (buffer.matrix row) := by
  funext s
  obtain ⟨⟨i, j⟩, rfl⟩ := finProdFinEquiv.surjective s
  have index : (finProdFinEquiv (i, j) : Nat) = row * i + j := Nat.add_comm _ _
  rw [Buffer.vector, index, rowMajor, Function.comp_apply, Equiv.symm_apply_apply]
  rfl

end

/-! The whole call. -/

/-- Where the equation has one solution alone, the call stores it. -/
def LyapunovSolved (n : Nat) (A P Q : Buffer K) : Prop :=
  (∃! X, Lyapunov (A.matrix n) (Q.matrix n) X) → ∃ P', dlyap (fun pivot => pivot = 0) A P Q n = some P' ∧
    Lyapunov (A.matrix n) (Q.matrix n) (P'.matrix n)

section
variable {n : Nat} {A P Q : Buffer K}

/-- The call is one of the solver, for the matrix of the equation. -/
theorem dlyap_called (refused : K → Prop) [DecidablePred refused] (room : n * n ≤ A.size)
    (narrow : n ≤ 255) : ∃ M : Buffer K, M.size = n * n * (n * n) ∧
      M.matrix (n * n) = lyapunovMatrix (A.matrix n) ∧
      dlyap refused A P Q n = (smlsLinsolveLupBy refused M P Q (n * n)).map Prod.snd := by
  obtain ⟨M, set_up, size, matrix⟩ := dlyap_matrix room narrow
  refine ⟨M, size, matrix, ?_⟩
  rw [dlyap, ← bind_assoc, set_up, asUint16_small (few_unknowns narrow), Option.map_eq_bind]
  rfl

/-- Up to 16 rows an octet counts the unknowns. -/
theorem dlyap_solves [IsStrictOrderedRing K] (room : n * n ≤ A.size) (room' : n * n ≤ P.size)
    (room'' : n * n ≤ Q.size) (few : n ≤ 16) : LyapunovSolved n A P Q := by
  intro unique
  have octets : n * n ≤ 256 := Nat.mul_le_mul few few
  obtain ⟨M, size, matrix, called⟩ := dlyap_called (fun pivot => pivot = 0) room (by omega)
  have regular : (M.matrix (n * n)).det ≠ 0 := by
    rw [matrix]
    exact lyapunov_regular.mp unique
  have unstalled : ¬ StallsOn (n * n) (fun pivot => pivot = 0) (M.entry (n * n)) := fun stalls =>
    regular (stalls_singular stalls)
  obtain ⟨stalls, -⟩ | ⟨-, ends⟩ := smlsLinsolveLupBy_returns refusal_zero
    (⟨size.ge, room', room''⟩ : SolveRoom (n * n) M P Q) octets
  · exact absurd stalls unstalled
  · rw [if_neg regular] at ends
    obtain ⟨P', solved, solution⟩ := ends
    rw [matrix, vector_rowMajor, vector_rowMajor] at solution
    refine ⟨P', ?_, lyapunov_iff.mp solution⟩
    rw [called, solved]
    rfl

/-- From 17 rows on the solver gives up, and what `P` held is still there. -/
theorem dlyap_unchanged [IsStrictOrderedRing K] {refused : K → Prop} [DecidablePred refused]
    (refusal : Refusal refused) (room : n * n ≤ A.size) (narrow : n ≤ 255) (many : 16 < n) :
    dlyap refused A P Q n = some P := by
  have crowd : 257 < n * n := (by decide : 257 < 17 * 17).trans_le (Nat.mul_le_mul many many)
  obtain ⟨M, size, -, called⟩ := dlyap_called refused room narrow
  obtain ⟨⟨code, factoring⟩, factored, gave_up⟩ :=
    smlsMatLupBy_crowded refusal (lupRoom_own size.ge) crowd
  obtain rfl : code = -enotsup := gave_up
  rw [called, smlsLinsolveLupBy_failed factored]
  rfl

/-- The equation is solved if and only if it has more than one solution or none, there are 16 rows
at most, or `P` holds the solution before the call. -/
theorem dlyap_iff [IsStrictOrderedRing K] (room : n * n ≤ A.size) (room' : n * n ≤ P.size)
    (room'' : n * n ≤ Q.size) (narrow : n ≤ 255) : LyapunovSolved n A P Q ↔
      ((∃! X, Lyapunov (A.matrix n) (Q.matrix n) X) →
        n ≤ 16 ∨ Lyapunov (A.matrix n) (Q.matrix n) (P.matrix n)) := by
  by_cases few : n ≤ 16
  · exact iff_of_true (dlyap_solves room room' room'' few) fun _ => Or.inl few
  · have unchanged := dlyap_unchanged (P := P) (Q := Q) refusal_zero room narrow (Nat.lt_of_not_le few)
    rw [or_iff_right few]
    refine imp_congr_right fun _ => ⟨?_, fun held => ⟨P, unchanged, held⟩⟩
    rintro ⟨P', called, solved⟩
    cases unchanged.symm.trans called
    exact solved

end

/-- The rows `1/2, 1/2` and `0, 1/2`. -/
def halvedShear : Buffer ℚ := ⟨4, fun i => [1 / 2, 1 / 2, 0, 1 / 2].getD i 0⟩

theorem dlyap_iff_small : (∃! X, Lyapunov (halvedShear.matrix 2)
      ((⟨4, fun _ => 3⟩ : Buffer ℚ).matrix 2) X) ∧
    LyapunovSolved 2 halvedShear ⟨4, fun _ => 0⟩ ⟨4, fun _ => 3⟩ := by
  refine ⟨lyapunov_regular.mpr (by decide +kernel), ?_⟩
  exact (dlyap_iff (by decide) (by decide) (by decide) (by decide)).mpr fun _ => Or.inl (by decide)

/-- With 17 rows and a matrix of zeros the solution is the right hand side, and zeros stay. -/
theorem dlyap_zeros : dlyap (fun pivot => pivot = 0) ⟨289, fun _ => 0⟩ (⟨289, fun _ => 0⟩ : Buffer ℚ)
      ⟨289, fun _ => 1⟩ 17 = some ⟨289, fun _ => 0⟩ ∧
    ¬ LyapunovSolved 17 ⟨289, fun _ => 0⟩ (⟨289, fun _ => 0⟩ : Buffer ℚ) ⟨289, fun _ => 1⟩ := by
  let ones : Buffer ℚ := ⟨289, fun _ => 1⟩
  have unchanged : dlyap (fun pivot => pivot = 0) ⟨289, fun _ => 0⟩ (⟨289, fun _ => 0⟩ : Buffer ℚ)
      ones 17 = some ⟨289, fun _ => 0⟩ := dlyap_unchanged refusal_zero (by decide) (by decide) (by decide)
  have unique : ∃! X, Lyapunov 0 (ones.matrix 17) X :=
    ⟨ones.matrix 17, lyapunov_zero.mpr rfl, fun X solved => lyapunov_zero.mp solved⟩
  refine ⟨unchanged, fun solves => ?_⟩
  obtain ⟨P', called, solved⟩ := solves unique
  cases unchanged.symm.trans called
  have entry := congrFun (congrFun (lyapunov_zero.mp solved) 0) 0
  exact zero_ne_one entry

end Simuless.Linalg
