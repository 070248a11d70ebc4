import Mathlib.Algebra.Order.Field.Basic
import Simuless.Linalg.MatOps

/-! The first norm.

The sums over the columns start from the entries of row 0 as they are, without
their absolute value.
-/

set_option autoImplicit false

namespace Simuless.Linalg

open Foundation

variable {K : Type} [Field K] [LinearOrder K]

/-- `sum_sqrt += sqrtf(A[i] * A[i])`. -/
def normVector (sqrtf : K → K) (A : Buffer K) (sum : K) (i : Nat) : Option K := do
  let item ← A.read i
  return sum + sqrtf (item * item)

/-- `A[j] += fabsf(A[i * column + j])`. -/
def normEntry (column i : Nat) (A : Buffer K) (j : Nat) : Option (Buffer K) := do
  let sum ← A.read j
  let entry ← A.read (i * column + j)
  A.write j (sum + |entry|)

def normRow (column : Nat) (A : Buffer K) (i : Nat) : Option (Buffer K) :=
  (upTo 0 column).foldlM (normEntry column i) A

def normLargest (A : Buffer K) (maxValue : K) (j : Nat) : Option K := do
  let sum ← A.read j
  return if maxValue < sum then sum else maxValue

/-- The call with `l = 1`; the array of the call itself is not set before it is written. -/
def smlsMatNormOne (sqrtf : K → K) (Ain : Buffer K) (row column : Nat) : Option K := do
  let A ← (⟨row * column, fun _ => 0⟩ : Buffer K).copy Ain (row * column)
  if row = 1 then (upTo 0 column).foldlM (normVector sqrtf A) 0
  else
    let A ← (upTo 1 row).foldlM (normRow column) A
    let maxValue ← A.read 0
    (upTo 1 column).foldlM (normLargest A) maxValue

/-! Sums over the columns. -/

/-- What the code sums up over a column: its first entry, and the others by magnitude. -/
def columnSum (row : Nat) (A : Nat → Nat → K) (j : Nat) : K :=
  ∑ i ∈ Finset.range row, if i = 0 then A i j else |A i j|

section
variable {row column i j : Nat} {A start : Buffer K}

/-- The first columns have taken up the rows up to this one, and the others those before it. -/
structure SummedTo (row column : Nat) (start : Buffer K) (i j : Nat) (A : Buffer K) : Prop where
  size : A.size = row * column
  sums : ∀ c < column, A.cells c = columnSum (if c < j then i + 1 else i) (start.entry column) c
  rest : ∀ k, column ≤ k → A.cells k = start.cells k

theorem SummedTo.next (part : SummedTo row column start i j A) (below : 1 ≤ i) (inRow : i < row)
    (inColumn : j < column) : Returns (normEntry column i A j) (SummedTo row column start i (j + 1)) := by
  have room : row * column ≤ A.size := part.size.ge
  have first : j < A.size := by
    have rows : 1 * column ≤ row * column := Nat.mul_le_mul_right column (below.trans inRow.le)
    rw [Nat.one_mul] at rows
    exact inColumn.trans_le (rows.trans room)
  have behind : column ≤ column * i + j :=
    (Nat.le_mul_of_pos_right column below).trans (Nat.le_add_right _ _)
  apply Returns.known (A.read_inside first)
  apply Returns.known (Buffer.read_entry room inRow inColumn)
  rw [A.write_inside first]
  refine Returns.done ⟨part.size, fun c inColumn' => ?_, fun k outside => ?_⟩
  · by_cases here : c = j
    · rw [here, Buffer.set_same, part.sums j inColumn, if_neg (Nat.lt_irrefl j),
        if_pos (Nat.lt_succ_self j), columnSum, columnSum, Finset.sum_range_succ, if_neg (by omega)]
      congr 2
      exact part.rest _ behind
    · rw [Buffer.set_other _ here, part.sums c inColumn']
      congr 1
      exact if_congr (by omega) rfl rfl
  · rw [Buffer.set_other _ (by omega)]
    exact part.rest k outside

omit [Field K] in
/-- The largest of the sums. -/
theorem normLargest_loop (room : column ≤ A.size) (positive : 0 < column) :
    Returns ((upTo 1 column).foldlM (normLargest A) (A.cells 0)) fun maxValue =>
      ∀ bound, bound < maxValue ↔ ∃ j < column, bound < A.cells j := by
  refine Returns.loop (fun j (maxValue : K) => ∀ bound, bound < maxValue ↔ ∃ t < j, bound < A.cells t)
    positive (fun bound => ?_) ?_
  · constructor
    · intro larger
      exact ⟨0, Nat.one_pos, larger⟩
    · rintro ⟨t, below, larger⟩
      obtain rfl : t = 0 := by omega
      exact larger
  · intro j maxValue _ inColumn largest
    apply Returns.known (A.read_inside (inColumn.trans_le room))
    refine Returns.done fun bound => ?_
    have either : bound < (if maxValue < A.cells j then A.cells j else maxValue) ↔
        bound < maxValue ∨ bound < A.cells j := by
      split
      case isTrue less => exact ⟨Or.inr, fun either => either.elim (·.trans less) id⟩
      case isFalse more => exact ⟨Or.inl, fun either => either.elim id (·.trans_le (not_lt.mp more))⟩
    rw [either, largest bound, Nat.exists_lt_succ_right]

/-- What the norm exceeds. -/
theorem smlsMatNormOne_returns {sqrtf : K → K} {Ain : Buffer K} (room : row * column ≤ Ain.size)
    (rows : 2 ≤ row) (columns : 0 < column) : Returns (smlsMatNormOne sqrtf Ain row column) fun norm =>
      ∀ bound, bound < norm ↔ ∃ j < column, bound < columnSum row (Ain.entry column) j := by
  let copied : Buffer K := ⟨row * column, fun k => if k < row * column then Ain.cells k else 0⟩
  have fits : column ≤ row * column := Nat.le_mul_of_pos_left column (by omega)
  have start : SummedTo row column copied 1 0 copied := by
    refine ⟨rfl, fun c _ => ?_, fun _ _ => rfl⟩
    rw [if_neg (Nat.not_lt_zero c), columnSum, Finset.sum_range_one, if_pos rfl, Buffer.entry,
      Nat.mul_zero, Nat.zero_add]
  apply Returns.known (Buffer.copy_whole Ain (row * column) _ room)
  rw [if_neg (by omega)]
  refine Returns.next (Returns.loop (fun i => SummedTo row column copied i 0) (by omega) start
    fun i A below inRow part => ?_) fun A _ part => ?_
  · refine (Returns.loop (fun j => SummedTo row column copied i j) (Nat.zero_le column) part
      fun j A _ inColumn part => part.next below inRow inColumn).weaken fun A part => ?_
    refine ⟨part.size, fun c inColumn => ?_, part.rest⟩
    rw [part.sums c inColumn, if_pos inColumn, if_neg (Nat.not_lt_zero c)]
  · have inside : column ≤ A.size := part.size.symm ▸ fits
    apply Returns.known (A.read_inside (columns.trans_le inside))
    refine (normLargest_loop inside columns).weaken fun norm largest bound => ?_
    rw [largest bound]
    refine exists_congr fun j => and_congr_right fun inColumn => ?_
    rw [part.sums j inColumn, if_neg (Nat.not_lt_zero j)]
    have same (i : Nat) (inRow : i < row) : copied.entry column i j = Ain.entry column i j :=
      if_pos (flat_lt_product inRow inColumn)
    refine Eq.to_iff (congrArg (bound < ·) (Finset.sum_congr rfl fun i member => ?_))
    rw [same i (Finset.mem_range.mp member)]

end

end Simuless.Linalg
