import Simuless.Linalg.SvdJacobi

/-! What follows the rotations.

The lengths of the columns are sorted, and the columns along with them. A
length of zero stops the call, as its column is divided by it.
-/

set_option autoImplicit false

namespace Simuless.Linalg

open Foundation
open scoped Matrix

variable {row : Nat}

/-! Lengths. -/

section
variable {A : Buffer ℝ}

theorem svdSquare_loop (rows : row ≤ 46340) (room : row * row ≤ A.size) {S : Buffer ℝ}
    (inside : row ≤ S.size) (j : Fin row) : Returns ((upTo 0 row).foldlM (svdSquare row j A) S) fun S' =>
      S' = S.set j (S.cells j + products (A.matrix row) j j) := by
  let upto (t : Nat) : ℝ := ∑ i ∈ Finset.range t, A.entry row i j * A.entry row i j
  have whole : upto row = products (A.matrix row) j j :=
    (Finset.sum_range _).trans (products_apply (M := A.matrix row)).symm
  rw [← whole]
  refine Returns.loop (fun t (S' : Buffer ℝ) => S' = S.set j (S.cells j + upto t)) (Nat.zero_le row) ?_ ?_
  · simp only [upto, Finset.range_zero, Finset.sum_empty, add_zero, Buffer.set_cells]
  · rintro t S' - below rfl
    apply Returns.known (Buffer.readFrom_flat rows room below j.isLt)
    apply Returns.known (if_pos (j.isLt.trans_le inside))
    refine ⟨_, if_pos (j.isLt.trans_le inside), ?_⟩
    simp only [Buffer.set_set, Buffer.set_same, upto, Finset.sum_range_succ, add_assoc]
    rfl

theorem svdLengths_loop (rows : row ≤ 46340) (room : row * row ≤ A.size) {S : Buffer ℝ}
    (inside : row ≤ S.size) (clear : ∀ j < row, S.cells j = 0) :
    Returns ((upTo 0 row).foldlM (svdLength Real.sqrt row A) S) fun S' => S'.size = S.size ∧
      ∀ j : Fin row, S'.cells j = Real.sqrt (products (A.matrix row) j j) := by
  refine (Returns.loop (fun t (S' : Buffer ℝ) => S'.size = S.size ∧ ∀ j : Fin row, S'.cells j =
    if (j : Nat) < t then Real.sqrt (products (A.matrix row) j j) else 0) (Nat.zero_le row)
      ⟨rfl, fun j => clear j j.isLt⟩ ?_).weaken fun S' ⟨size, cells⟩ =>
        ⟨size, fun j => (cells j).trans (if_pos j.isLt)⟩
  rintro t S' - below ⟨size, cells⟩
  rw [← size] at inside
  refine Returns.next (svdSquare_loop rows room inside ⟨t, below⟩) fun _ _ same => ?_
  subst same
  apply Returns.known (if_pos (below.trans_le inside))
  rw [Buffer.set_same, cells ⟨t, below⟩, if_neg (lt_irrefl t), zero_add]
  have nonneg : 0 ≤ products (A.matrix row) ⟨t, below⟩ ⟨t, below⟩ := by
    rw [products_apply]
    exact Finset.sum_nonneg fun k _ => mul_self_nonneg _
  apply Returns.known (if_neg (not_lt.mpr nonneg))
  refine ⟨_, if_pos (below.trans_le inside), size, fun j => ?_⟩
  rw [Buffer.set_set]
  by_cases here : (j : Nat) = t
  · obtain rfl : j = ⟨t, below⟩ := Fin.ext here
    rw [Buffer.set_same, if_pos (Nat.lt_succ_self t)]
  · rw [Buffer.set_other _ here, cells j]
    exact if_congr (by omega) rfl rfl

end

/-! Exchanges. -/

section
variable {M : Buffer ℝ} {i j : Fin row}

/-- One row after an exchange of two columns. -/
theorem svdExchange_returns {k : Nat} (rows : row ≤ 46340) (room : row * row ≤ M.size)
    (next : (j : Nat) = i + 1) (inRow : k < row) :
    Returns (svdExchange row i M k) fun M' => M'.size = M.size ∧ ∀ t q : Fin row,
      M'.matrix row t q =
        if (t : Nat) = k then M.matrix row t (Equiv.swap i j q) else M.matrix row t q := by
  rw [svdExchange, ← next]
  apply Returns.known (Buffer.readFrom_flat rows room inRow i.isLt)
  apply Returns.known (Buffer.readFrom_flat rows room inRow j.isLt)
  apply Returns.known (Buffer.writeFrom_flat rows room inRow i.isLt _)
  have room' (item : ℝ) : row * row ≤ (M.set (row * k + i) item).size := room
  refine ⟨_, Buffer.writeFrom_flat rows (room' _) inRow j.isLt _, rfl, fun t q => ?_⟩
  refine (Buffer.entry_set j.isLt q.isLt _).trans ?_
  by_cases here : (t : Nat) = k
  · rw [if_pos here]
    subst here
    by_cases last : q = j
    · rw [if_pos ⟨rfl, congrArg Fin.val last⟩, last, Equiv.swap_apply_right]
      rfl
    · rw [if_neg fun same => last (Fin.ext same.2), Buffer.entry_set i.isLt q.isLt]
      by_cases front : q = i
      · rw [if_pos ⟨rfl, congrArg Fin.val front⟩, front, Equiv.swap_apply_left]
        rfl
      · rw [if_neg fun same => front (Fin.ext same.2), Equiv.swap_apply_of_ne_of_ne front last]
        rfl
  · rw [if_neg here, if_neg fun same => here same.1, Buffer.entry_set i.isLt q.isLt,
      if_neg fun same => here same.1]
    rfl

/-- The rows before this one after the exchange. -/
structure ExchangedTo (i j : Fin row) (M : Buffer ℝ) (k : Nat) (M' : Buffer ℝ) : Prop where
  size : M'.size = M.size
  entries : ∀ t q : Fin row, M'.matrix row t q =
    if (t : Nat) < k then M.matrix row t (Equiv.swap i j q) else M.matrix row t q

theorem ExchangedTo.next {k : Nat} {M' : Buffer ℝ} (part : ExchangedTo i j M k M')
    (rows : row ≤ 46340) (room : row * row ≤ M.size) (next : (j : Nat) = i + 1) (inRow : k < row) :
    Returns (svdExchange row i M' k) (ExchangedTo i j M (k + 1)) := by
  refine (svdExchange_returns rows (part.size.symm ▸ room) next inRow).weaken fun M'' ⟨size, entries⟩ =>
    ⟨size.trans part.size, fun t q => ?_⟩
  rw [entries, part.entries, part.entries]
  by_cases here : (t : Nat) = k
  · rw [if_pos here, if_neg (by omega), if_pos (by omega)]
  · rw [if_neg here]
    exact if_congr (by omega) rfl rfl

theorem ExchangedTo.whole {M' : Buffer ℝ} (part : ExchangedTo i j M row M') :
    M'.matrix row = (M.matrix row).submatrix id (Equiv.swap i j) :=
  Matrix.ext fun t q => (part.entries t q).trans (if_pos t.isLt)

end

/-! Sorting. -/

/-- The same columns, and what belongs to them, in another order. -/
structure Reordered (row : Nat) (start sorting : Sorting ℝ) : Prop where
  sizeS : sorting.S.size = start.S.size
  sizeA : sorting.columns.A.size = start.columns.A.size
  sizeV : sorting.columns.V.size = start.columns.V.size
  order : ∃ order : Equiv.Perm (Fin row), (∀ j : Fin row, sorting.S.cells j = start.S.cells (order j)) ∧
    sorting.columns.A.matrix row = (start.columns.A.matrix row).submatrix id order ∧
    sorting.columns.V.matrix row = (start.columns.V.matrix row).submatrix id order

section
variable {start sorting next : Sorting ℝ}

theorem Reordered.refl (start : Sorting ℝ) : Reordered row start start :=
  ⟨rfl, rfl, rfl, 1, fun _ => rfl, rfl, rfl⟩

theorem Reordered.trans (first : Reordered row start sorting) (second : Reordered row sorting next) :
    Reordered row start next := by
  obtain ⟨order, S, A, V⟩ := first.order
  obtain ⟨order', S', A', V'⟩ := second.order
  refine ⟨second.sizeS.trans first.sizeS, second.sizeA.trans first.sizeA, second.sizeV.trans first.sizeV,
    order * order', fun j => (S' j).trans (S (order' j)), ?_, ?_⟩
  · rw [A', A, Matrix.submatrix_submatrix]
    rfl
  · rw [V', V, Matrix.submatrix_submatrix]
    rfl

/-- The buffers are large enough. -/
structure SortingRoom (row : Nat) (sorting : Sorting ℝ) : Prop where
  rows : row ≤ 46340
  S : row ≤ sorting.S.size
  A : row * row ≤ sorting.columns.A.size
  V : row * row ≤ sorting.columns.V.size

theorem Reordered.room (reordered : Reordered row start sorting) (room : SortingRoom row start) :
    SortingRoom row sorting :=
  ⟨room.rows, reordered.sizeS ▸ room.S, reordered.sizeA ▸ room.A, reordered.sizeV ▸ room.V⟩

theorem svdSwap_returns {j : Nat} (room : SortingRoom row sorting) (inside : j + 1 < row) :
    Returns (svdSwap row j sorting (sorting.S.cells j) (sorting.S.cells (j + 1))) fun next =>
      Reordered row sorting next ∧ next.S.cells = fun i => sorting.S.cells (Equiv.swap j (j + 1) i) := by
  have first : j < row := Nat.lt_of_succ_lt inside
  let i : Fin row := ⟨j, first⟩
  let i' : Fin row := ⟨j + 1, inside⟩
  apply Returns.known (sorting.S.write_inside (first.trans_le room.S) _)
  apply Returns.known (if_pos (inside.trans_le room.S))
  refine Returns.next (Returns.loop (fun k (columns : Columns ℝ) =>
    ExchangedTo i i' sorting.columns.A k columns.A ∧ ExchangedTo i i' sorting.columns.V k columns.V)
      (Nat.zero_le row) ⟨⟨rfl, fun _ _ => rfl⟩, rfl, fun _ _ => rfl⟩ ?_) ?_
  · rintro k columns - below ⟨partA, partV⟩
    refine Returns.next (partV.next room.rows room.V rfl below) fun V _ partV => ?_
    refine Returns.next (partA.next room.rows room.A rfl below) fun A _ partA => ?_
    exact Returns.done ⟨partA, partV⟩
  · rintro columns - ⟨partA, partV⟩
    have cells : (Buffer.set (sorting.S.set j (sorting.S.cells (j + 1))) (j + 1)
        (sorting.S.cells j)).cells = fun t => sorting.S.cells (Equiv.swap j (j + 1) t) := by
      funext t
      by_cases second : t = j + 1
      · rw [second, Buffer.set_same, Equiv.swap_apply_right]
      · rw [Buffer.set_other _ second]
        by_cases front : t = j
        · rw [front, Buffer.set_same, Equiv.swap_apply_left]
        · rw [Buffer.set_other _ front, Equiv.swap_apply_of_ne_of_ne front second]
    refine Returns.done ⟨⟨rfl, partA.size, partV.size, Equiv.swap i i', fun t => ?_, partA.whole,
      partV.whole⟩, cells⟩
    refine (congrFun cells t).trans (congrArg sorting.S.cells ?_)
    exact (Fin.val_injective.map_swap i i' t).symm

theorem svdCompare_returns {j : Nat} (room : SortingRoom row sorting) (inside : j + 1 < row) :
    Returns (svdCompare row sorting j) fun next =>
      Reordered row sorting next ∧ next.S.cells = descend sorting.S.cells j := by
  apply Returns.known (sorting.S.read_inside ((Nat.lt_of_succ_lt inside).trans_le room.S))
  apply Returns.known (sorting.S.read_inside (inside.trans_le room.S))
  rw [descend]
  split
  case isTrue => exact svdSwap_returns room inside
  case isFalse => exact Returns.done ⟨Reordered.refl sorting, rfl⟩

theorem svdPass_returns {p : Nat} (room : SortingRoom row sorting) (inside : p < row)
    (settled : SettledFrom row p sorting.S.cells) :
    Returns (svdPass row sorting p) fun next =>
      Reordered row sorting next ∧ SettledFrom row (p + 1) next.S.cells := by
  refine (Returns.loop (fun j next => Reordered row sorting next ∧ Passing row p next.S.cells j)
    (Nat.zero_le (row - p - 1)) ⟨Reordered.refl sorting, settled.pass⟩ ?_).weaken
      fun next ⟨reordered, passing⟩ => ⟨reordered, passing.settles inside⟩
  rintro j next - below ⟨reordered, passing⟩
  refine (svdCompare_returns (reordered.room room) (by omega)).weaken fun next' ⟨further, cells⟩ =>
    ⟨reordered.trans further, ?_⟩
  rw [cells]
  exact passing.next (by omega)

/-- The lengths end in descending order. -/
theorem svdPasses_loop (room : SortingRoom row start) :
    Returns ((upTo 0 (row - 1)).foldlM (svdPass row) start) fun sorting =>
      Reordered row start sorting ∧ ∀ a b : Fin row, a ≤ b → sorting.S.cells b ≤ sorting.S.cells a := by
  refine (Returns.loop (fun p sorting => Reordered row start sorting ∧ SettledFrom row p sorting.S.cells)
    (Nat.zero_le (row - 1)) ⟨Reordered.refl start, fun a b order behind below => by omega⟩ ?_).weaken
      fun sorting ⟨reordered, settled⟩ => ⟨reordered, fun a b order => settled.sorted order b.isLt⟩
  rintro p sorting - below ⟨reordered, settled⟩
  refine (svdPass_returns (reordered.room room) (by omega) settled).weaken fun next ⟨further, settled⟩ =>
    ⟨reordered.trans further, settled⟩

end

/-! Quotients. -/

section
variable {A S : Buffer ℝ}

theorem svdQuotients_loop (rows : row ≤ 46340) (room : row * row ≤ A.size) (inside : row ≤ S.size)
    (nonzero : ∀ j < row, S.cells j ≠ 0) :
    Returns ((upTo 0 row).foldlM (svdQuotients row S) A) fun A' => A'.size = A.size ∧
      ∀ i j : Fin row, A'.matrix row i j = A.matrix row i j / S.cells j := by
  refine (Returns.loop (fun i (A' : Buffer ℝ) => A'.size = A.size ∧ ∀ t, ∀ c < row,
    A'.entry row t c = if t < i then A.entry row t c / S.cells c else A.entry row t c) (Nat.zero_le row)
      ⟨rfl, fun _ _ _ => rfl⟩ ?_).weaken fun A' ⟨size, entries⟩ =>
        ⟨size, fun i j => (entries i j j.isLt).trans (if_pos i.isLt)⟩
  rintro i A' - below ⟨size, entries⟩
  have divided : Returns (svdQuotients row S A' i) fun A'' => A''.size = A'.size ∧ ∀ t, ∀ c < row,
      A''.entry row t c = if t = i then A'.entry row t c / S.cells c else A'.entry row t c := by
    refine rowwise_loop (fun c x => x / S.cells c) fun j inColumn A'' size' _ => ?_
    have fits : row * row ≤ A''.size := size'.symm ▸ size.symm ▸ room
    rw [svdQuotient, Buffer.readFrom_flat rows fits below inColumn, S.read_inside (inColumn.trans_le inside),
      Option.bind_eq_bind, Option.bind_some, Option.bind_some, quotient_nonzero (nonzero j inColumn),
      Option.bind_some, Buffer.writeFrom_flat rows fits below inColumn]
    rfl
  refine divided.weaken fun A'' ⟨size', entries'⟩ => ⟨size'.trans size, fun t c inColumn => ?_⟩
  rw [entries' t c inColumn, entries t c inColumn]
  by_cases here : t = i
  · rw [if_pos here, if_neg (by omega), if_pos (by omega)]
  · rw [if_neg here]
    exact if_congr (by omega) rfl rfl

/-- A length of zero stops the call. -/
theorem svdQuotients_zero {j : Nat} (below : j < row) (inside : row ≤ S.size) (zero : S.cells j = 0) :
    (upTo 0 row).foldlM (svdQuotients row S) A = none := by
  by_contra returned
  obtain ⟨A', ran⟩ := Option.ne_none_iff_exists'.mp returned
  obtain ⟨-, rows⟩ := Returns.loop_turns (fun _ : Buffer ℝ => True) (Nat.zero_le row) trivial
    (fun _ _ _ _ _ => trivial) ran
  obtain ⟨state, next, -, turned⟩ := rows 0 (Nat.zero_le 0) (Nat.zero_lt_of_lt below)
  obtain ⟨-, entries⟩ := Returns.loop_turns (fun _ : Buffer ℝ => True) (Nat.zero_le row) trivial
    (fun _ _ _ _ _ => trivial) turned
  obtain ⟨state', next', -, turned'⟩ := entries j (Nat.zero_le j) below
  rw [svdQuotient, S.read_inside (below.trans_le inside), zero] at turned'
  obtain ⟨Aij, -, divided⟩ := Option.bind_eq_some_iff.mp turned'
  rw [Option.bind_eq_bind, Option.bind_some, quotient, if_pos rfl] at divided
  cases divided

end

/-! The end of a call. -/

/-- The singular values are the lengths of the columns, sorted, and the left singular vectors the
columns divided by them. -/
structure SvdDone (row : Nat) (columns : Columns ℝ) (svd : SingularValues ℝ) : Prop where
  roomU : row * row ≤ svd.U.size
  roomS : row ≤ svd.S.size
  roomV : row * row ≤ svd.V.size
  descending : ∀ a b : Fin row, a ≤ b → svd.S.vector row b ≤ svd.S.vector row a
  positive : ∀ j : Fin row, 0 < svd.S.vector row j
  order : ∃ order : Equiv.Perm (Fin row),
    (∀ j, svd.S.vector row j = Real.sqrt (products (columns.A.matrix row) (order j) (order j))) ∧
    svd.U.matrix row * Matrix.diagonal (svd.S.vector row) = (columns.A.matrix row).submatrix id order ∧
    svd.V.matrix row = (columns.V.matrix row).submatrix id order

theorem products_nonneg (M : Matrix (Fin row) (Fin row) ℝ) (j : Fin row) : 0 ≤ products M j j := by
  rw [products_apply]
  exact Finset.sum_nonneg fun k _ => mul_self_nonneg _

/-- The singular values are the lengths of the columns, sorted along with them. -/
structure SvdSorted (row : Nat) (columns : Columns ℝ) (sorting : Sorting ℝ) : Prop where
  room : SortingRoom row sorting
  descending : ∀ a b : Fin row, a ≤ b → sorting.S.vector row b ≤ sorting.S.vector row a
  order : ∃ order : Equiv.Perm (Fin row),
    (∀ j, sorting.S.vector row j = Real.sqrt (products (columns.A.matrix row) (order j) (order j))) ∧
    sorting.columns.A.matrix row = (columns.A.matrix row).submatrix id order ∧
    sorting.columns.V.matrix row = (columns.V.matrix row).submatrix id order

theorem svdSorted_returns {S : Buffer ℝ} {columns : Columns ℝ} (room : SortingRoom row ⟨S, columns⟩)
    (clear : ∀ j < row, S.cells j = 0) :
    Returns (svdSorted Real.sqrt row S columns) (SvdSorted row columns) := by
  refine Returns.next (svdLengths_loop room.rows room.A room.S clear) fun S' _ ⟨size, lengths⟩ => ?_
  have room' : SortingRoom row ⟨S', columns⟩ := ⟨room.rows, size ▸ room.S, room.A, room.V⟩
  refine (svdPasses_loop room').weaken fun sorting ⟨reordered, descending⟩ => ?_
  obtain ⟨order, cells, orderedA, orderedV⟩ := reordered.order
  exact ⟨reordered.room room', descending, order, fun j => (cells j).trans (lengths (order j)), orderedA,
    orderedV⟩

theorem svdFinish_cases {U S : Buffer ℝ} {columns : Columns ℝ} (room : SortingRoom row ⟨S, columns⟩)
    (roomU : row * row ≤ U.size) (clear : ∀ j < row, S.cells j = 0) :
    Returns (svdFinish Real.sqrt row U S columns) (SvdDone row columns) ∧
        (∀ j, products (columns.A.matrix row) j j ≠ 0) ∨
      svdFinish Real.sqrt row U S columns = none ∧ ∃ j, products (columns.A.matrix row) j j = 0 := by
  obtain ⟨sorting, sorted, fits, descending, order, roots, orderedA, orderedV⟩ :=
    svdSorted_returns room clear
  rw [svdFinish, sorted, Option.bind_eq_bind, Option.bind_some]
  by_cases zero : ∃ j, products (columns.A.matrix row) j j = 0
  · right
    obtain ⟨j, vanishes⟩ := zero
    have stops : sorting.S.vector row (order.symm j) = 0 := by
      rw [roots, Equiv.apply_symm_apply, vanishes, Real.sqrt_zero]
    rw [svdQuotients_zero (order.symm j).isLt fits.S stops]
    exact ⟨rfl, j, vanishes⟩
  · left
    rw [not_exists] at zero
    have positive (j : Fin row) : 0 < sorting.S.vector row j := by
      rw [roots]
      exact Real.sqrt_pos.mpr (lt_of_le_of_ne (products_nonneg _ _) (Ne.symm (zero _)))
    refine ⟨?_, zero⟩
    refine Returns.next (svdQuotients_loop fits.rows fits.A fits.S fun j below => (positive ⟨j, below⟩).ne')
      fun A _ ⟨sizeA, quotients⟩ => ?_
    rw [Buffer.copyInt_small _ (square_small room.rows)]
    apply Returns.known (if_pos ⟨roomU, sizeA ▸ fits.A⟩)
    refine Returns.done ⟨roomU, fits.S, fits.V, descending, positive, order, roots, ?_, orderedV⟩
    refine Eq.trans ?_ orderedA
    ext i j
    rw [Matrix.mul_diagonal]
    refine Eq.trans (congrArg (· * sorting.S.vector row j) ((if_pos (flat_lt i.isLt j.isLt)).trans
      (quotients i j))) ?_
    exact div_mul_cancel₀ _ (positive j).ne'

end Simuless.Linalg
