import Simuless.Linalg.Qr

/-! Least squares by QR factorisation.

The return value of the factorisation is not looked at. It is always success
where the factorisation has a result.
-/

set_option autoImplicit false

namespace Simuless.Linalg

open Foundation
open scoped Matrix

variable {K : Type}

/-- What `x` holds. `stack` is what the array for `Q` holds before it is written. -/
def smlsLinsolveQr [Field K] [LinearOrder K] (sqrtf : K → K) (stack : Nat → K) (A x b : Buffer K)
    (row column : Nat) : Option (Buffer K) := do
  let (_, Q, R) ← smlsMatQr sqrtf A ⟨row * row, stack⟩ ⟨row * column, fun _ => 0⟩ row column false
  let Q ← smlsMatTranspose Q Q row row
  let (_, QTb) ← smlsMatMul ⟨row, fun _ => 0⟩ Q b row row row 1
  smlsLinsolveUpperTriangular R x QTb column

/-- The buffers of a call are large enough. -/
structure QrSolveRoom (row column : Nat) (A x b : Buffer ℝ) : Prop where
  A : row * column ≤ A.size
  x : column ≤ x.size
  b : row ≤ b.size

section
variable {row column : Nat} {A Q R x b : Buffer ℝ} {stack : Nat → ℝ}

/-- What follows the factorisation is the substitution, for the right hand side seen from `Q`. -/
theorem projected_program (R x : Buffer ℝ) (column : Nat) (sizeQ : Q.size = row * row) (room : row ≤ b.size) :
    ∃ QTb : Buffer ℝ, row ≤ QTb.size ∧ QTb.vector row = (Q.matrix row)ᵀ *ᵥ b.vector row ∧ (do
      let Q ← smlsMatTranspose Q Q row row
      let (_, QTb) ← smlsMatMul ⟨row, fun _ => 0⟩ Q b row row row 1
      smlsLinsolveUpperTriangular R x QTb column) = smlsLinsolveUpperTriangular R x QTb column := by
  obtain ⟨Qt, turned, size, entries⟩ := smlsMatTranspose_returns sizeQ.ge sizeQ.ge
  have room' : row * 1 ≤ b.size := (Nat.mul_one row).le.trans room
  have room'' : row * 1 ≤ (⟨row, fun _ => 0⟩ : Buffer ℝ).size := (Nat.mul_one row).le
  obtain ⟨⟨code, QTb⟩, multiplied, -, sizeb, product⟩ :=
    smlsMatMul_returns (size.trans sizeQ).ge room' room''
  refine ⟨QTb, sizeb.ge, ?_, ?_⟩
  · funext i
    have entry := congrFun (congrFun product i) 0
    rw [Matrix.mul_apply] at entry
    have cell (buffer : Buffer ℝ) (t : Nat) : buffer.cells t = buffer.entry 1 t 0 := by
      rw [Buffer.entry, Nat.one_mul, Nat.add_zero]
    refine (cell QTb i).trans (entry.trans (Finset.sum_congr rfl fun t _ => ?_))
    exact congrArg₂ (· * ·) (entries t t.isLt i i.isLt) (cell b t).symm
  · rw [turned, Option.bind_eq_bind, Option.bind_some, multiplied]
    rfl

/-- The last diagonal entry of a square matrix is not reflected. It is zero only if the columns are
dependent. -/
theorem zero_diagonal_last (triangular : Cleared row column (R.entry column))
    (diagonal : ∀ j < qrTurns row column, R.entry column j j ≠ 0) (rows : 0 < row) (tall : column ≤ row)
    {i : Nat} (inside : i < column) (zero : R.entry column i i = 0) :
    i + 1 = column ∧ ¬ LeadingIndependent column (R.rectangle row column) := by
  have behind : row - 1 ≤ i ∧ qrTurns row column = i := by
    have outside : qrTurns row column ≤ i := Nat.not_lt.mp fun before => diagonal i before zero
    rw [qrTurns, if_neg rows.ne'] at outside ⊢
    split at outside
    case isTrue => exact ⟨outside, by rw [if_pos ‹_›]; omega⟩
    case isFalse => omega
  have last : i + 1 = column := by omega
  refine ⟨last, ?_⟩
  have dependent := cleared_dependent (n := column) (k := i) (m := row)
    (fun t below c before left => triangular t below c (before.trans inside) left) inside
    (fun j before => diagonal j (behind.2.symm ▸ before)) fun t below above => by
      obtain rfl : t = i := by omega
      exact zero
  rw [last] at dependent
  exact dependent

theorem upperTriangular_stuck {n : Nat} {A x b : Buffer ℝ} (rows : (n + 1) * (n + 1) ≤ intMax)
    (room : (n + 1) * (n + 1) ≤ A.size) (room' : n + 1 ≤ b.size) (room'' : n + 1 ≤ x.size)
    (zero : A.entry (n + 1) n n = 0) : smlsLinsolveUpperTriangular A x b (n + 1) = none := by
  have divided : upperRow (n + 1) A b ⟨x.size, fun i => if i < n + 1 then 0 else x.cells i⟩ n = none :=
    upperRow_zero rows room room' room'' (Nat.lt_succ_self n) zero
  rw [smlsLinsolveUpperTriangular, Buffer.clear, if_pos room'', Option.bind_eq_bind, Option.bind_some,
    downFrom_succ, List.foldlM_cons, divided]
  rfl

/-- A call goes through if and only if the columns are independent, and then leaves the vector
with the least residual. -/
theorem linsolveQr_iff (room : QrSolveRoom row column A x b) (rows : 0 < row) (small : row ≤ 255)
    (tall : column ≤ row) :
    (LeadingIndependent column (A.rectangle row column) → ∃ x',
      smlsLinsolveQr Real.sqrt stack A x b row column = some x' ∧
      ∀ y, residual (A.rectangle row column) (b.vector row) (x'.vector column) ≤
        residual (A.rectangle row column) (b.vector row) y) ∧
    (¬ LeadingIndependent column (A.rectangle row column) →
      smlsLinsolveQr Real.sqrt stack A x b row column = none) := by
  have room' : QrRoom row column A ⟨row * row, stack⟩ ⟨row * column, fun _ => 0⟩ :=
    ⟨room.A, le_rfl, le_rfl⟩
  rcases smlsMatQr_cases room' rows small false with ⟨⟨⟨code, Q, R⟩, called, done⟩, -⟩ | ⟨stuck, dependent⟩
  · obtain ⟨sizeQ, orthogonal, product⟩ := done.factors rfl
    obtain ⟨QTb, sizeb, projected, program⟩ := projected_program R x column sizeQ room.b
    have whole : smlsLinsolveQr Real.sqrt stack A x b row column =
        smlsLinsolveUpperTriangular R x QTb column := by
      rw [smlsLinsolveQr, called]
      exact program
    have squares := square_small (tall.trans (small.trans (by decide)))
    have square : column * column ≤ R.size := (Nat.mul_le_mul_right column tall).trans done.size
    rw [whole, ← product, leadingIndependent_mul orthogonal]
    by_cases diagonal : ∀ i < column, R.entry column i i ≠ 0
    · have independent := cleared_independent (n := column) done.triangular tall diagonal
      refine ⟨fun _ => ?_, fun dependent => absurd independent dependent⟩
      obtain ⟨x', solved, solution⟩ := smlsLinsolveUpperTriangular_solves squares square
        (tall.trans sizeb) room.x
        (fun t below c inside left => done.triangular t (below.trans_le tall) c inside left) diagonal
      refine ⟨x', solved, fun y => residual_least (triangular_normal orthogonal ?_ ?_) y⟩
      · intro i below j
        exact done.triangular i i.isLt j j.isLt (j.isLt.trans_le below)
      · intro i inside
        rw [← projected]
        exact congrFun solution ⟨i, inside⟩
    · push Not at diagonal
      obtain ⟨i, inside, zero⟩ := diagonal
      obtain ⟨rfl, dependent⟩ := zero_diagonal_last done.triangular done.diagonal rows tall inside zero
      exact ⟨fun independent => absurd independent dependent, fun _ =>
        upperTriangular_stuck squares square (tall.trans sizeb) room.x zero⟩
  · refine ⟨fun independent => absurd (independent.fewer ?_) dependent, fun _ => ?_⟩
    · rw [qrTurns, if_neg rows.ne']
      split
      · omega
      · exact le_rfl
    · rw [smlsLinsolveQr, stuck]
      rfl

end

theorem linsolveQr_iff_ones : ∃ x',
    smlsLinsolveQr Real.sqrt (fun _ => 0) onesColumn ⟨1, fun _ => 0⟩ ⟨2, fun i => i⟩ 2 1 = some x' ∧
    ∀ y, residual (onesColumn.rectangle 2 1) ((⟨2, fun i => i⟩ : Buffer ℝ).vector 2) (x'.vector 1) ≤
      residual (onesColumn.rectangle 2 1) ((⟨2, fun i => i⟩ : Buffer ℝ).vector 2) y := by
  have room : QrSolveRoom 2 1 onesColumn ⟨1, fun _ => 0⟩ ⟨2, fun i => i⟩ :=
    ⟨Nat.le_refl 2, Nat.le_refl 1, Nat.le_refl 2⟩
  exact (linsolveQr_iff room (by decide) (by decide) (by decide)).1 onesColumn_independent

end Simuless.Linalg
