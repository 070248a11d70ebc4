import Mathlib.Analysis.Real.Sqrt
import Simuless.Foundation.Reflection
import Simuless.Linalg.Chol
import Simuless.Linalg.InvOrthogonal
import Simuless.Linalg.Tikhonov

/-! QR factorisation.

The product of the reflections is inverted at the end. It is orthogonal, so that
the inversion is never refused; what stops a call is a column that depends on
the columns before it.
-/

set_option autoImplicit false

namespace Simuless.Linalg

open Foundation
open scoped Matrix

variable {K : Type}

section
variable [Field K] [LinearOrder K]

/-- `uint16_t row_a_row_a = row_a * row_a`. -/
def rowARowA (rowA : Nat) : Nat := rowA * rowA % 65536

/-- `uint16_t l`; without rows `row_a - 1` is negative and wraps around. -/
def qrTurns (rowA columnA : Nat) : Nat :=
  if rowA = 0 then 65535 else if rowA - 1 < columnA then rowA - 1 else columnA

/-- `s += R[i * column_a + k] * R[i * column_a + k]`. -/
def qrSquare (columnA k : Nat) (R : Buffer K) (s : K) (i : Nat) : Option K := do
  let Rik ← R.read (i * columnA + k)
  return s + Rik * Rik

/-- `W[i] = R[i * column_a + k] / r`. -/
def qrEntry (columnA k : Nat) (R : Buffer K) (r : K) (W : Buffer K) (i : Nat) : Option (Buffer K) := do
  let Rik ← R.read (i * columnA + k)
  let Wi ← quotient Rik r
  W.write i Wi

/-- `W`. -/
def qrVector (sqrtf : K → K) (rowA columnA : Nat) (R : Buffer K) (k : Nat) : Option (Buffer K) := do
  let s ← (upTo k rowA).foldlM (qrSquare columnA k R) 0
  let s ← root sqrtf s
  let Rk ← R.read (k * columnA + k)
  let s := if Rk < 0 then -s else s
  let r ← root sqrtf ((2 : Nat) * s * (Rk + s))
  let W ← (⟨rowA, fun _ => 0⟩ : Buffer K).clear rowA
  let Wk ← quotient (Rk + s) r
  let W ← W.write k Wk
  (upTo (k + 1) rowA).foldlM (qrEntry columnA k R r) W

/-- `Hi[i] = -2.0f * WW[i]`. -/
def qrDouble (WW Hi : Buffer K) (i : Nat) : Option (Buffer K) := do
  let WWi ← WW.read i
  Hi.write i (-(2 : Nat) * WWi)

/-- `Hi[i * row_a + i] += 1.0f`. -/
def qrUnit (rowA : Nat) (Hi : Buffer K) (i : Nat) : Option (Buffer K) := tikhonovDiagonal rowA 1 Hi i

/-- `Hi`. -/
def qrReflector (rowA : Nat) (W : Buffer K) : Option (Buffer K) := do
  let (_, WW) ← smlsMatMul ⟨rowARowA rowA, fun _ => 0⟩ W W rowA 1 1 rowA
  let Hi ← (upTo 0 (rowARowA rowA)).foldlM (qrDouble WW) ⟨rowARowA rowA, fun _ => 0⟩
  (upTo 0 rowA).foldlM (qrUnit rowA) Hi

/-- `HiH = Hi * H -> HiH = H`. -/
def qrAccumulate (rowA : Nat) (onlyComputeR : Bool) (Hi H : Buffer K) : Option (Buffer K) := do
  if onlyComputeR then return H
  let (_, HiH) ← smlsMatMul ⟨rowARowA rowA, fun _ => 0⟩ Hi H rowA rowA rowA rowA
  H.copy HiH (rowARowA rowA)

structure Reflecting (K : Type) where
  H : Buffer K
  R : Buffer K

/-- The arrays of the call itself are not set before they are written. -/
def qrTurn (sqrtf : K → K) (rowA columnA : Nat) (onlyComputeR : Bool) (reflecting : Reflecting K) (k : Nat) :
    Option (Reflecting K) := do
  let W ← qrVector sqrtf rowA columnA reflecting.R k
  let Hi ← qrReflector rowA W
  let H ← qrAccumulate rowA onlyComputeR Hi reflecting.H
  let (_, HiR) ← smlsMatMul ⟨rowA * columnA, fun _ => 0⟩ Hi reflecting.R rowA rowA rowA columnA
  let R ← reflecting.R.copy HiR (rowA * columnA)
  return ⟨H, R⟩

/-- `H[row_a * i + i] = 1.0f`. -/
def qrIdentity (rowA : Nat) (H : Buffer K) (i : Nat) : Option (Buffer K) := H.write (rowA * i + i) 1

/-- `H` is inverted in place. -/
def qrFinish (rowA : Nat) (onlyComputeR : Bool) (Q : Buffer K) (reflecting : Reflecting K) :
    Option (Int × Buffer K × Buffer K) := do
  if onlyComputeR then return (0, Q, reflecting.R)
  let (ret, H) ← smlsMatInv none reflecting.H rowA
  if ret ≠ 0 then return (-enotsup, Q, reflecting.R)
  let Q ← Q.copy H (rowARowA rowA)
  return (0, Q, reflecting.R)

/-- The return value, `Q` and `R`. -/
def smlsMatQr (sqrtf : K → K) (A Q R : Buffer K) (rowA columnA : Nat) (onlyComputeR : Bool) :
    Option (Int × Buffer K × Buffer K) := do
  let R ← R.copy A (rowA * columnA)
  let H ← (⟨rowARowA rowA, fun _ => 0⟩ : Buffer K).clear (rowARowA rowA)
  let H ← (upTo 0 rowA).foldlM (qrIdentity rowA) H
  let reflecting ← (upTo 0 (qrTurns rowA columnA)).foldlM (qrTurn sqrtf rowA columnA onlyComputeR) ⟨H, R⟩
  qrFinish rowA onlyComputeR Q reflecting

end

theorem rowARowA_small {rowA : Nat} (small : rowA ≤ 255) : rowARowA rowA = rowA * rowA :=
  Nat.mod_eq_of_lt ((Nat.mul_le_mul small small).trans_lt (by decide))

/-! The vector of a reflection. -/

section
variable {row column k : Nat} {R : Buffer ℝ}

/-- The column that a turn reflects. -/
def columnOf (row column : Nat) (R : Buffer ℝ) (k : Nat) : Fin row → ℝ := fun i => R.entry column i k

theorem qrSquare_loop (room : row * column ≤ R.size) (inRow : k < row) (inColumn : k < column) :
    Returns ((upTo k row).foldlM (qrSquare column k R) 0) fun s =>
      s = ∑ i ∈ Finset.Ico k row, R.entry column i k * R.entry column i k := by
  refine Returns.loop (fun i (s : ℝ) => s = ∑ t ∈ Finset.Ico k i, R.entry column t k * R.entry column t k)
    inRow.le ?_ ?_
  · rw [Finset.Ico_self, Finset.sum_empty]
  · rintro i s above below rfl
    apply Returns.known (Buffer.read_entry room below inColumn)
    exact Returns.done (Finset.sum_Ico_succ_top above _).symm

theorem qrEntry_loop {W : Buffer ℝ} {r : ℝ} (room : row * column ≤ R.size) (size : W.size = row)
    (inRow : k < row) (inColumn : k < column) (nonzero : r ≠ 0) :
    Returns ((upTo (k + 1) row).foldlM (qrEntry column k R r) W) fun W' => W'.size = row ∧
      ∀ i < row, W'.cells i = if k < i then R.entry column i k / r else W.cells i := by
  refine (Returns.loop (fun t (W' : Buffer ℝ) => W'.size = row ∧
    ∀ i, W'.cells i = if k < i ∧ i < t then R.entry column i k / r else W.cells i)
    (Nat.succ_le_of_lt inRow) ⟨size, fun i => (if_neg (by omega)).symm⟩ ?_).weaken
      fun W' ⟨size, cells⟩ => ⟨size, fun i below => (cells i).trans
        (if_congr (and_iff_left below) rfl rfl)⟩
  rintro t W' above below ⟨size, cells⟩
  apply Returns.known (Buffer.read_entry room below inColumn)
  apply Returns.known (quotient_nonzero nonzero _)
  rw [W'.write_inside (size.symm ▸ below)]
  refine Returns.done ⟨size, fun i => ?_⟩
  by_cases here : i = t
  · rw [here, Buffer.set_same, if_pos (by omega)]
  · rw [Buffer.set_other _ here, cells i]
    exact if_congr (by omega) rfl rfl

/-- A root with the sign of a number. -/
theorem signed_root (total x : ℝ) (positive : 0 < total) :
    let s := if x < 0 then -Real.sqrt total else Real.sqrt total
    s * s = total ∧ s ≠ 0 ∧ 0 < 2 * s * (x + s) := by
  have root := Real.sqrt_pos.mpr positive
  have square := Real.mul_self_sqrt positive.le
  intro s
  have same : s * s = total := by
    simp only [s]
    split
    · rw [neg_mul_neg, square]
    · exact square
  have along : 0 ≤ s * x := by
    simp only [s]
    split
    case isTrue negative => exact mul_nonneg_of_nonpos_of_nonpos (neg_nonpos.mpr root.le) negative.le
    case isFalse other => exact mul_nonneg root.le (not_lt.mp other)
  refine ⟨same, fun zero => ?_, by nlinarith⟩
  rw [zero, zero_mul] at same
  exact positive.ne same

/-- A column that is not zero from its diagonal on has a reflection. -/
theorem qrVector_returns (room : row * column ≤ R.size) (inRow : k < row) (inColumn : k < column)
    (nonzero : ∃ i < row, k ≤ i ∧ R.entry column i k ≠ 0) :
    Returns (qrVector Real.sqrt row column R k) fun W => W.size = row ∧ ∃ s r, s ≠ 0 ∧
      Householder (⟨k, inRow⟩ : Fin row) (columnOf row column R k) s r (W.vector row) := by
  refine Returns.next (qrSquare_loop room inRow inColumn) fun total _ summed => ?_
  have positive : 0 < total := by
    obtain ⟨i, below, above, different⟩ := nonzero
    rw [summed]
    exact Finset.sum_pos' (fun t _ => mul_self_nonneg _)
      ⟨i, Finset.mem_Ico.mpr ⟨above, below⟩, mul_self_pos.mpr different⟩
  apply Returns.known (if_neg (not_lt.mpr positive.le))
  apply Returns.known (Buffer.read_entry room inRow inColumn)
  rw [Nat.cast_ofNat]
  obtain ⟨square, apart, defined⟩ := signed_root total (R.entry column k k) positive
  generalize (if R.entry column k k < 0 then -Real.sqrt total else Real.sqrt total) = s at *
  apply Returns.known (if_neg (not_lt.mpr defined.le))
  have root := Real.sqrt_pos.mpr defined
  have square' := Real.mul_self_sqrt defined.le
  generalize Real.sqrt (2 * s * (R.entry column k k + s)) = r at *
  apply Returns.known (if_pos (Nat.le_refl row))
  apply Returns.known (quotient_nonzero root.ne' _)
  apply Returns.known (Buffer.write_inside _ inRow _)
  refine (qrEntry_loop room rfl inRow inColumn root.ne').weaken fun W ⟨size, cells⟩ =>
    ⟨size, s, r, apart, ?_, square', root.ne', fun i before => ?_, ?_, fun i below => ?_⟩
  · rw [square, summed]
    exact sum_from fun i => R.entry column i k * R.entry column i k
  · have order : (i : Nat) < k := before
    refine (cells i i.isLt).trans ?_
    rw [if_neg (by omega), Buffer.set_other _ (by omega)]
    exact if_pos i.isLt
  · refine (cells k inRow).trans ?_
    rw [if_neg (Nat.lt_irrefl k), Buffer.set_same]
    rfl
  · exact (cells i i.isLt).trans (if_pos below)

/-- Other columns have none. -/
theorem qrVector_zero (room : row * column ≤ R.size) (inRow : k < row) (inColumn : k < column)
    (zero : ∀ i < row, k ≤ i → R.entry column i k = 0) : qrVector Real.sqrt row column R k = none := by
  obtain ⟨total, ran, summed⟩ := qrSquare_loop room inRow inColumn
  have none_left : total = 0 := by
    rw [summed]
    apply Finset.sum_eq_zero
    intro i member
    obtain ⟨above, below⟩ := Finset.mem_Ico.mp member
    rw [zero i below above, mul_zero]
  subst none_left
  simp [qrVector, ran, root, Buffer.read_entry room inRow inColumn, zero k inRow le_rfl, Buffer.clear,
    quotient]

end

/-! One turn. -/

section
variable {row column k : Nat}

/-- The matrix of the reflection. -/
theorem qrReflector_returns {W : Buffer ℝ} (small : row ≤ 255) (size : W.size = row) :
    Returns (qrReflector row W) fun Hi =>
      Hi.size = row * row ∧ Hi.matrix row = reflector (W.vector row) := by
  rw [qrReflector, rowARowA_small small]
  have room : row * 1 ≤ W.size := (Nat.mul_one row).trans size.symm |>.le
  have room' : 1 * row ≤ W.size := (Nat.one_mul row).trans size.symm |>.le
  have outer : Returns (smlsMatMul (⟨row * row, fun _ => 0⟩ : Buffer ℝ) W W row 1 1 row) fun result =>
      result.1 = 0 ∧ result.2.size = row * row ∧
        result.2.rectangle row row = W.rectangle row 1 * W.rectangle 1 row :=
    smlsMatMul_returns room room' le_rfl
  refine Returns.next outer fun ⟨_, WW⟩ _ ⟨_, sizeWW, product⟩ => ?_
  have doubled : Returns ((upTo 0 (row * row)).foldlM (qrDouble WW) ⟨row * row, fun _ => 0⟩) fun Hi =>
      Hi.size = row * row ∧ ∀ k < row * row, Hi.cells k = -2 * WW.cells k :=
    entrywise_loop (fun i _ => -2 * WW.cells i) fun i below Hi size => by
      rw [qrDouble, WW.read_inside (sizeWW.symm ▸ below), Option.bind_eq_bind, Option.bind_some,
        Hi.write_inside (size.symm ▸ below), Nat.cast_ofNat]
  refine Returns.next doubled fun Hi _ ⟨sizeHi, cells⟩ => ?_
  have shifted : Returns ((upTo 0 row).foldlM (qrUnit row) Hi) fun Hi' =>
      Hi'.size = Hi.size ∧ Hi'.matrix row = Hi.matrix row + (1 : ℝ) • 1 :=
    tikhonovDiagonal_loop (square_small (small.trans (by decide))) sizeHi.ge
  refine shifted.weaken fun Hi' ⟨sizeHi', entries⟩ => ⟨sizeHi'.trans sizeHi, ?_⟩
  rw [entries, reflector]
  ext i j
  have entry := congrFun (congrFun product i) j
  rw [Matrix.mul_apply, Fin.sum_univ_one] at entry
  have value : WW.cells (row * i + j) = W.cells i * W.cells j := by
    refine Eq.trans entry ?_
    simp only [Buffer.rectangle, Buffer.entry, Fin.val_zero, Nat.one_mul, Nat.mul_zero, Nat.add_zero,
      Nat.zero_add]
  have twice : Hi.matrix row i j = -2 * (W.cells i * W.cells j) :=
    (cells _ (flat_lt i.isLt j.isLt)).trans (by rw [value])
  rw [Matrix.add_apply, Matrix.sub_apply, twice, Matrix.smul_apply, Matrix.smul_apply,
    Matrix.vecMulVec_apply, smul_eq_mul, one_mul, two_nsmul]
  simp only [Buffer.vector]
  ring

/-- The first columns are in triangular form, by an orthogonal matrix that is kept on request. -/
structure QrTo (row column : Nat) (A : Buffer ℝ) (onlyComputeR : Bool) (size k : Nat)
    (reflecting : Reflecting ℝ) : Prop where
  H : reflecting.H.size = row * row
  R : reflecting.R.size = size
  cleared : Cleared row k (reflecting.R.entry column)
  diagonal : ∀ j < k, reflecting.R.entry column j j ≠ 0
  product : ∃ U : Matrix (Fin row) (Fin row) ℝ, Uᵀ * U = 1 ∧
    reflecting.R.rectangle row column = U * A.rectangle row column ∧
      (onlyComputeR = false → reflecting.H.matrix row = U)

/-- A reflection clears one more column. -/
theorem reflected_columns {R R' : Buffer ℝ} (inRow : k < row) (inColumn : k < column)
    (cleared : Cleared row k (R.entry column)) (diagonal : ∀ j < k, R.entry column j j ≠ 0)
    {w : Fin row → ℝ} {s r : ℝ} (nonzero : s ≠ 0)
    (householder : Householder (⟨k, inRow⟩ : Fin row) (columnOf row column R k) s r w)
    (product : R'.rectangle row column = reflector w * R.rectangle row column) :
    Cleared row (k + 1) (R'.entry column) ∧ ∀ j < k + 1, R'.entry column j j ≠ 0 := by
  have entry (i : Nat) (below : i < row) (j : Nat) (inside : j < column) :
      R'.entry column i j = (reflector w *ᵥ columnOf row column R j) ⟨i, below⟩ := by
    have same := congrFun (congrFun product ⟨i, below⟩) ⟨j, inside⟩
    rw [Matrix.mul_apply] at same
    exact same
  have early (i : Nat) (below : i < row) (j : Nat) (before : j < k) :
      R'.entry column i j = R.entry column i j := by
    rw [entry i below j (before.trans inColumn), householder.fixes]
    · rfl
    · intro t behind
      have order : k ≤ (t : Nat) := behind
      exact cleared t t.isLt j before (by omega)
  have last (i : Nat) (below : i < row) : R'.entry column i k =
      if i < k then R.entry column i k else if i = k then -s else 0 := by
    rw [entry i below k inColumn, householder.image]
    exact if_congr Iff.rfl rfl (if_congr Fin.ext_iff rfl rfl)
  constructor
  · intro i below j inside left
    rcases Nat.lt_succ_iff_lt_or_eq.mp inside with before | rfl
    · rw [early i below j before]
      exact cleared i below j before left
    · rw [last i below, if_neg (by omega), if_neg (by omega)]
  · intro j inside
    rcases Nat.lt_succ_iff_lt_or_eq.mp inside with before | rfl
    · rw [early j (before.trans inRow) j before]
      exact diagonal j before
    · rw [last j inRow, if_neg (Nat.lt_irrefl j), if_pos rfl]
      exact neg_ne_zero.mpr nonzero

theorem rectangle_copied {target source : Buffer ℝ} :
    (⟨target.size, fun i => if i < row * column then source.cells i else target.cells i⟩ :
      Buffer ℝ).rectangle row column = source.rectangle row column := by
  ext i j
  exact if_pos (flat_lt_product i.isLt j.isLt)

theorem QrTo.turn {A : Buffer ℝ} {onlyComputeR : Bool} {size : Nat} {reflecting : Reflecting ℝ}
    (part : QrTo row column A onlyComputeR size k reflecting) (small : row ≤ 255)
    (room : row * column ≤ size) (inRow : k < row) (inColumn : k < column)
    (nonzero : ∃ i < row, k ≤ i ∧ reflecting.R.entry column i k ≠ 0) :
    Returns (qrTurn Real.sqrt row column onlyComputeR reflecting k)
      (QrTo row column A onlyComputeR size (k + 1)) := by
  obtain ⟨sizeH, sizeR, cleared, diagonal, U, orthogonal, product, kept⟩ := part
  have fits : row * column ≤ reflecting.R.size := sizeR.symm ▸ room
  refine Returns.next (qrVector_returns fits inRow inColumn nonzero)
    fun W _ ⟨sizeW, s, r, apart, householder⟩ => ?_
  refine Returns.next (qrReflector_returns small sizeW) fun Hi _ ⟨sizeHi, reflects⟩ => ?_
  have unit := householder.unit
  have accumulated : Returns (qrAccumulate row onlyComputeR Hi reflecting.H) fun H => H.size = row * row ∧
      (onlyComputeR = false → H.matrix row = reflector (W.vector row) * U) := by
    rw [qrAccumulate, rowARowA_small small]
    apply Returns.check
    · intro only
      exact Returns.done ⟨sizeH, fun both => absurd (only.symm.trans both) (by decide)⟩
    · intro both
      refine Returns.next (smlsMatMul_returns sizeHi.ge sizeH.ge le_rfl)
        fun ⟨_, HiH⟩ _ ⟨_, sizeHiH, multiplied⟩ => ?_
      refine ⟨_, if_pos ⟨sizeH.ge, sizeHiH.ge⟩, sizeH, fun false => ?_⟩
      refine rectangle_copied.trans (multiplied.trans ?_)
      rw [← kept false, ← reflects]
      rfl
  refine Returns.next accumulated fun H _ ⟨sizeH', kept'⟩ => ?_
  refine Returns.next (smlsMatMul_returns sizeHi.ge fits le_rfl)
    fun ⟨_, HiR⟩ _ ⟨_, sizeHiR, multiplied⟩ => ?_
  apply Returns.known (if_pos ⟨fits, sizeHiR.ge⟩)
  have reflected : (⟨reflecting.R.size, fun i => if i < row * column then HiR.cells i
      else reflecting.R.cells i⟩ : Buffer ℝ).rectangle row column =
        reflector (W.vector row) * reflecting.R.rectangle row column := by
    rw [← reflects]
    exact rectangle_copied.trans multiplied
  obtain ⟨cleared', diagonal'⟩ :=
    reflected_columns inRow inColumn cleared diagonal apart householder reflected
  refine Returns.done ⟨sizeH', sizeR, cleared', diagonal', reflector (W.vector row) * U, ?_, ?_, kept'⟩
  · rw [Matrix.transpose_mul, Matrix.mul_assoc, ← Matrix.mul_assoc _ _ U, reflector_orthogonal unit,
      Matrix.one_mul, orthogonal]
  · rw [Matrix.mul_assoc, ← product]
    exact reflected

end

/-! The turns. -/

section
variable {row column : Nat} {A : Buffer ℝ} {onlyComputeR : Bool} {size k : Nat} {reflecting : Reflecting ℝ}

theorem qrTurns_inside (rows : 0 < row) (before : k < qrTurns row column) : k < row ∧ k < column := by
  rw [qrTurns, if_neg rows.ne'] at before
  split at before
  case isTrue few => omega
  case isFalse many => omega

theorem qrTurns_le (rows : 0 < row) : qrTurns row column ≤ row := by
  rw [qrTurns, if_neg rows.ne']
  split
  case isTrue => omega
  case isFalse => omega

/-- What the triangular form says about the columns of the matrix. -/
theorem QrTo.independent (part : QrTo row column A onlyComputeR size k reflecting) (rows : k ≤ row) :
    LeadingIndependent k (A.rectangle row column) := by
  obtain ⟨U, orthogonal, product, -⟩ := part.product
  rw [← leadingIndependent_mul orthogonal, ← product]
  exact cleared_independent part.cleared rows part.diagonal

theorem QrTo.dependent (part : QrTo row column A onlyComputeR size k reflecting) (inColumn : k < column)
    (zero : ∀ i < row, k ≤ i → reflecting.R.entry column i k = 0) :
    ¬ LeadingIndependent (k + 1) (A.rectangle row column) := by
  obtain ⟨U, orthogonal, product, -⟩ := part.product
  rw [← leadingIndependent_mul orthogonal, ← product]
  exact cleared_dependent part.cleared inColumn part.diagonal zero

/-- Only the entries behind the last column that is cleared are left out, and there are none. -/
theorem QrTo.triangular (part : QrTo row column A onlyComputeR size (qrTurns row column) reflecting)
    (rows : 0 < row) : Cleared row column (reflecting.R.entry column) := by
  intro i below j inside left
  refine part.cleared i below j ?_ left
  rw [qrTurns, if_neg rows.ne']
  split
  · omega
  · exact inside

/-- A turn goes through, or has no result where its column is zero from the diagonal on. -/
theorem QrTo.turn_or_stops (part : QrTo row column A onlyComputeR size k reflecting) (small : row ≤ 255)
    (room : row * column ≤ size) (inRow : k < row) (inColumn : k < column) :
    Returns (qrTurn Real.sqrt row column onlyComputeR reflecting k)
        (QrTo row column A onlyComputeR size (k + 1)) ∨
      qrTurn Real.sqrt row column onlyComputeR reflecting k = none ∧
        ∀ i < row, k ≤ i → reflecting.R.entry column i k = 0 := by
  by_cases zero : ∀ i < row, k ≤ i → reflecting.R.entry column i k = 0
  · have none_there := qrVector_zero (part.R.symm ▸ room) inRow inColumn zero
    refine Or.inr ⟨?_, zero⟩
    simp only [qrTurn, none_there, Option.bind_eq_bind, Option.bind_none]
  · push Not at zero
    exact Or.inl (part.turn small room inRow inColumn zero)

/-- The turns go through if the first columns are independent. -/
theorem qrTurn_loop (part : QrTo row column A onlyComputeR size 0 reflecting) (rows : 0 < row)
    (small : row ≤ 255) (room : row * column ≤ size) :
    Returns ((upTo 0 (qrTurns row column)).foldlM (qrTurn Real.sqrt row column onlyComputeR) reflecting)
        (QrTo row column A onlyComputeR size (qrTurns row column)) ∧
      LeadingIndependent (qrTurns row column) (A.rectangle row column) ∨
    (upTo 0 (qrTurns row column)).foldlM (qrTurn Real.sqrt row column onlyComputeR) reflecting = none ∧
      ¬ LeadingIndependent (qrTurns row column) (A.rectangle row column) := by
  rcases Returns.loop_or_stops (QrTo row column A onlyComputeR size)
    (fun k (reflecting : Reflecting ℝ) => ∀ i < row, k ≤ i → reflecting.R.entry column i k = 0)
    (Nat.zero_le (qrTurns row column)) part fun k reached _ before part =>
      part.turn_or_stops small room (qrTurns_inside rows before).1 (qrTurns_inside rows before).2
    with ⟨reached, ran, part'⟩ | ⟨stuck, k, reached, _, before, part', zero⟩
  · exact Or.inl ⟨⟨reached, ran, part'⟩, part'.independent (qrTurns_le rows)⟩
  · obtain ⟨-, inColumn⟩ := qrTurns_inside rows before
    exact Or.inr ⟨stuck, fun independent => part'.dependent inColumn zero (independent.fewer before)⟩

end

/-! The whole call. -/

/-- The buffers of a call are large enough. -/
structure QrRoom (row column : Nat) (A Q R : Buffer ℝ) : Prop where
  A : row * column ≤ A.size
  Q : row * row ≤ Q.size
  R : row * column ≤ R.size

section
variable {row column : Nat} {A Q R : Buffer ℝ}

/-- What a call that goes through leaves. -/
structure QrDone (row column : Nat) (A Q : Buffer ℝ) (onlyComputeR : Bool)
    (result : Int × Buffer ℝ × Buffer ℝ) : Prop where
  code : result.1 = 0
  size : row * column ≤ result.2.2.size
  triangular : Cleared row column (result.2.2.entry column)
  diagonal : ∀ j < qrTurns row column, result.2.2.entry column j j ≠ 0
  factors : onlyComputeR = false → result.2.1.size = Q.size ∧ Orthogonal row result.2.1 ∧
    result.2.1.matrix row * result.2.2.rectangle row column = A.rectangle row column
  untouched : onlyComputeR = true → result.2.1 = Q

theorem smlsMatQr_cases (room : QrRoom row column A Q R) (rows : 0 < row) (small : row ≤ 255)
    (onlyComputeR : Bool) :
    Returns (smlsMatQr Real.sqrt A Q R row column onlyComputeR) (QrDone row column A Q onlyComputeR) ∧
        LeadingIndependent (qrTurns row column) (A.rectangle row column) ∨
      smlsMatQr Real.sqrt A Q R row column onlyComputeR = none ∧
        ¬ LeadingIndependent (qrTurns row column) (A.rectangle row column) := by
  let R₀ : Buffer ℝ := ⟨R.size, fun i => if i < row * column then A.cells i else R.cells i⟩
  let zeros : Buffer ℝ := ⟨row * row, fun i => if i < row * row then 0 else 0⟩
  have clear : zeros.matrix row = 0 := Matrix.ext fun i j => ite_self 0
  have identified : Returns ((upTo 0 row).foldlM (qrIdentity row) zeros) fun H =>
      H.size = row * row ∧ H.matrix row = 1 :=
    identity_loop clear fun i below H size =>
      H.write_inside ((flat_lt below below).trans_le size.ge) 1
  obtain ⟨H₀, identity, sizeH, one⟩ := identified
  have program : smlsMatQr Real.sqrt A Q R row column onlyComputeR =
      (upTo 0 (qrTurns row column)).foldlM (qrTurn Real.sqrt row column onlyComputeR) ⟨H₀, R₀⟩ >>=
        qrFinish row onlyComputeR Q := by
    rw [smlsMatQr, Buffer.copy, if_pos ⟨room.R, room.A⟩, Buffer.clear, rowARowA_small small,
      if_pos (Nat.le_refl _), Option.bind_eq_bind, Option.bind_some, Option.bind_eq_bind, Option.bind_some,
      identity]
    rfl
  have start : QrTo row column A onlyComputeR R.size 0 ⟨H₀, R₀⟩ := by
    refine ⟨sizeH, rfl, fun i _ j inside => absurd inside (Nat.not_lt_zero j),
      fun j inside => absurd inside (Nat.not_lt_zero j), 1, ?_, ?_, fun _ => one⟩
    · rw [Matrix.transpose_one, Matrix.one_mul]
    · rw [Matrix.one_mul]
      exact rectangle_copied
  rw [program]
  rcases qrTurn_loop start rows small room.R with ⟨⟨reached, ran, part⟩, independent⟩ | ⟨stuck, dependent⟩
  · refine Or.inl ⟨?_, independent⟩
    have triangular := part.triangular rows
    obtain ⟨U, orthogonal, product, kept⟩ := part.product
    apply Returns.known ran
    rw [qrFinish, rowARowA_small small]
    apply Returns.check
    · intro only
      exact Returns.done ⟨rfl, part.R.symm ▸ room.R, triangular, part.diagonal,
        fun both => absurd (only.symm.trans both) (by decide), fun _ => rfl⟩
    · intro both
      have inverted : Returns (smlsMatInv none reached.H row) fun result => result.1 = 0 ∧
          result.2.size = reached.H.size ∧ result.2.matrix row = (reached.H.matrix row)ᵀ := by
        refine smlsMatInv_orthogonal ⟨part.H.ge, part.H.ge⟩ (small.trans (by decide)) ?_
        rw [Orthogonal, invInput, Option.getD_none, kept (Bool.not_eq_true _ ▸ both)]
        exact orthogonal
      refine Returns.next inverted fun result _ facts => ?_
      obtain ⟨code, H⟩ := result
      obtain ⟨success, sizeH', transposed⟩ := facts
      obtain rfl : code = 0 := success
      have inside : row * row ≤ H.size := (sizeH'.trans part.H).ge
      apply Returns.known (if_pos ⟨room.Q, inside⟩)
      have copied :
          (⟨Q.size, fun i => if i < row * row then H.cells i else Q.cells i⟩ : Buffer ℝ).matrix row = Uᵀ := by
        rw [← kept (Bool.not_eq_true _ ▸ both), ← transposed]
        exact rectangle_copied
      refine Returns.done ⟨rfl, part.R.symm ▸ room.R, triangular, part.diagonal, fun _ => ⟨rfl, ?_, ?_⟩,
        fun only => absurd only both⟩
      · rw [Orthogonal, copied, Matrix.transpose_transpose]
        exact mul_eq_one_comm.mp orthogonal
      · refine (congrArg (· * reached.R.rectangle row column) copied).trans ?_
        rw [product, ← Matrix.mul_assoc, orthogonal, Matrix.one_mul]
  · rw [stuck]
    exact Or.inr ⟨rfl, dependent⟩

end

/-! Without `Q`. -/

section
variable [Field K] [LinearOrder K] {sqrtf : K → K} {row column : Nat}

/-- Whether the reflections are accumulated does not matter for `R`. -/
theorem qrTurn_onlyR {both both' only : Reflecting K} {k : Nat} (same : only.R = both.R)
    (ran : qrTurn sqrtf row column false both k = some both') :
    ∃ only', qrTurn sqrtf row column true only k = some only' ∧ only'.R = both'.R := by
  simp only [qrTurn, Option.bind_eq_bind, Option.bind_eq_some_iff] at ran
  obtain ⟨W, vector, Hi, reflector, H, -, ⟨code, HiR⟩, multiplied, R, copied, done⟩ := ran
  cases done
  refine ⟨⟨only.H, R⟩, ?_, rfl⟩
  simp only [qrTurn, same, vector, reflector, qrAccumulate, if_true, multiplied, copied,
    Option.bind_eq_bind, Option.bind_some, Option.pure_def]

theorem qrTurns_onlyR {turns : List Nat} {both both' only : Reflecting K} (same : only.R = both.R)
    (ran : turns.foldlM (qrTurn sqrtf row column false) both = some both') :
    ∃ only', turns.foldlM (qrTurn sqrtf row column true) only = some only' ∧ only'.R = both'.R := by
  induction turns generalizing both only with
  | nil =>
    cases ran
    exact ⟨only, rfl, same⟩
  | cons k rest ih =>
    rw [List.foldlM_cons] at ran
    obtain ⟨next, turned, rest_ran⟩ := Option.bind_eq_some_iff.mp ran
    obtain ⟨next', turned', same'⟩ := qrTurn_onlyR same turned
    rw [List.foldlM_cons, turned']
    exact ih same' rest_ran

theorem smlsMatQr_onlyR {A Q Q' R R' : Buffer K} {code : Int}
    (ran : smlsMatQr sqrtf A Q R row column false = some (code, Q', R')) :
    smlsMatQr sqrtf A Q R row column true = some (0, Q, R') := by
  simp only [smlsMatQr, Option.bind_eq_bind, Option.bind_eq_some_iff] at ran
  obtain ⟨R₀, copied, H₀, cleared, H₁, identity, both, turned, rest⟩ := ran
  have start : (⟨H₁, R₀⟩ : Reflecting K).R = (⟨H₁, R₀⟩ : Reflecting K).R := rfl
  obtain ⟨only, turned', same⟩ := qrTurns_onlyR start turned
  have last : both.R = R' := by
    simp only [qrFinish, Bool.false_eq_true, if_false, Option.bind_eq_bind, Option.bind_eq_some_iff]
      at rest
    obtain ⟨⟨ret, H⟩, -, rest⟩ := rest
    split at rest
    · cases rest
      rfl
    · obtain ⟨_, -, rest⟩ := Option.bind_eq_some_iff.mp rest
      cases rest
      rfl
  simp only [smlsMatQr, copied, cleared, identity, turned', Option.bind_eq_bind, Option.bind_some,
    qrFinish, if_true, Option.pure_def, same, last]

end

/-- A call goes through if and only if the columns that are reflected are independent. Then `Q` is
orthogonal, `R` is in triangular form, and their product is the matrix; a call that only computes
`R` comes to the same one. -/
theorem qr_iff {row column : Nat} {A Q R : Buffer ℝ} (room : QrRoom row column A Q R) (rows : 0 < row)
    (small : row ≤ 255) :
    (LeadingIndependent (qrTurns row column) (A.rectangle row column) → ∃ Q' R',
      smlsMatQr Real.sqrt A Q R row column false = some (0, Q', R') ∧
      smlsMatQr Real.sqrt A Q R row column true = some (0, Q, R') ∧
      (Q'.matrix row)ᵀ * Q'.matrix row = 1 ∧ Cleared row column (R'.entry column) ∧
      Q'.matrix row * R'.rectangle row column = A.rectangle row column) ∧
    (¬ LeadingIndependent (qrTurns row column) (A.rectangle row column) →
      ∀ onlyComputeR, smlsMatQr Real.sqrt A Q R row column onlyComputeR = none) := by
  constructor
  · intro independent
    rcases smlsMatQr_cases room rows small false with ⟨⟨⟨code, Q', R'⟩, called, done⟩, -⟩ | ⟨-, dependent⟩
    · obtain rfl : code = 0 := done.code
      obtain ⟨-, orthogonal, product⟩ := done.factors rfl
      exact ⟨Q', R', called, smlsMatQr_onlyR called, orthogonal, done.triangular, product⟩
    · exact absurd independent dependent
  · intro dependent onlyComputeR
    rcases smlsMatQr_cases room rows small onlyComputeR with ⟨-, independent⟩ | ⟨stuck, -⟩
    · exact absurd independent dependent
    · exact stuck

/-- One column with two ones. -/
def onesColumn : Buffer ℝ := ⟨2, fun _ => 1⟩

theorem onesColumn_independent : LeadingIndependent 1 (onesColumn.rectangle 2 1) := by
  intro c _ zero
  have row := congrFun zero 0
  rw [Matrix.mulVec, dotProduct, Fin.sum_univ_one] at row
  funext j
  rw [Subsingleton.elim j 0]
  exact (one_mul (c 0)).symm.trans row

theorem qr_iff_ones : ∃ Q' R', smlsMatQr Real.sqrt onesColumn ⟨4, fun _ => 0⟩ ⟨2, fun _ => 0⟩ 2 1 false =
      some (0, Q', R') ∧ Q'.matrix 2 * R'.rectangle 2 1 = onesColumn.rectangle 2 1 := by
  have room : QrRoom 2 1 onesColumn ⟨4, fun _ => 0⟩ ⟨2, fun _ => 0⟩ :=
    ⟨Nat.le_refl 2, Nat.le_refl 4, Nat.le_refl 2⟩
  obtain ⟨Q', R', called, -, -, -, product⟩ :=
    (qr_iff room (by decide) (by decide)).1 onesColumn_independent
  exact ⟨Q', R', called, product⟩

end Simuless.Linalg
