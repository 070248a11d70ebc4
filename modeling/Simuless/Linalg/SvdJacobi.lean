import Simuless.Foundation.DescendingSort
import Simuless.Foundation.PlaneRotation
import Simuless.Linalg.Chol
import Simuless.Linalg.MatOps

/-! Singular values by rotations.

The columns of a copy of the matrix are rotated pair by pair. What is divided by
zero does not always stop the call: where the columns of a pair are orthogonal
the number that is divided by their product is infinite, and the pair stays as
it is, unless both have the same length. Then it is not a number, nor is
anything that is computed from it.
-/

set_option autoImplicit false

namespace Simuless.Linalg

open Foundation
open scoped Matrix

variable {K : Type}

section
variable [Field K] [LinearOrder K]

structure ColumnSums (K : Type) where
  al : K
  b : K
  c : K

/-- `al`, `b` and `c`. -/
def svdSums (row i j : Nat) (A : Buffer K) (sums : ColumnSums K) (k : Nat) : Option (ColumnSums K) := do
  let Aki ← A.readFrom (row * k) i
  let Akj ← A.readFrom (row * k) j
  return ⟨sums.al + Aki * Aki, sums.b + Akj * Akj, sums.c + Aki * Akj⟩

/-- `t`; it is zero where `l` is infinite. -/
def svdTangent (sqrtf : K → K) (sums : ColumnSums K) : Option K :=
  if sums.c = 0 then
    if sums.b = sums.al then none else some 0
  else do
    let l ← quotient (sums.b - sums.al) ((2 : Nat) * sums.c)
    let sign : K := if l < 0 then -1 else 1
    let r ← root sqrtf (1 + l * l)
    quotient sign (sign * l + r)

/-- Row `k` of columns `i` and `j`. -/
def svdRotate (row i j : Nat) (cs sn : K) (M : Buffer K) (k : Nat) : Option (Buffer K) := do
  let tmp ← M.readFrom (row * k) i
  let Mkj ← M.readFrom (row * k) j
  let M ← M.writeFrom (row * k) i (cs * tmp - sn * Mkj)
  let Mkj ← M.readFrom (row * k) j
  M.writeFrom (row * k) j (sn * tmp + cs * Mkj)

/-- The array of the call itself and the right singular vectors. -/
structure Columns (K : Type) where
  A : Buffer K
  V : Buffer K

def svdTurn (sqrtf : K → K) (row i : Nat) (columns : Columns K) (j : Nat) : Option (Columns K) := do
  let sums ← (upTo 0 row).foldlM (svdSums row i j columns.A) ⟨0, 0, 0⟩
  let t ← svdTangent sqrtf sums
  let r ← root sqrtf (1 + t * t)
  let cs ← quotient 1 r
  let sn := cs * t
  let A ← (upTo 0 row).foldlM (svdRotate row i j cs sn) columns.A
  let V ← (upTo 0 row).foldlM (svdRotate row i j cs sn) columns.V
  return ⟨A, V⟩

def svdRow (sqrtf : K → K) (row : Nat) (columns : Columns K) (i : Nat) : Option (Columns K) :=
  (upTo (i + 1) row).foldlM (svdTurn sqrtf row i) columns

def svdSweep (sqrtf : K → K) (row : Nat) (columns : Columns K) (_p : Nat) : Option (Columns K) :=
  (upTo 0 row).foldlM (svdRow sqrtf row) columns

/-- `*(S + j) += *(A + row * i + j) * *(A + row * i + j)`. -/
def svdSquare (row j : Nat) (A S : Buffer K) (i : Nat) : Option (Buffer K) := do
  let Aij ← A.readFrom (row * i) j
  let Sj ← S.read j
  S.write j (Sj + Aij * Aij)

/-- `S[j]`. -/
def svdLength (sqrtf : K → K) (row : Nat) (A S : Buffer K) (j : Nat) : Option (Buffer K) := do
  let S ← (upTo 0 row).foldlM (svdSquare row j A) S
  let Sj ← S.read j
  let r ← root sqrtf Sj
  S.write j r

/-- Row `i` of columns `j` and `j + 1`. -/
def svdExchange (row j : Nat) (M : Buffer K) (i : Nat) : Option (Buffer K) := do
  let tmp ← M.readFrom (row * i) j
  let Mi ← M.readFrom (row * i) (j + 1)
  let M ← M.writeFrom (row * i) j Mi
  M.writeFrom (row * i) (j + 1) tmp

def svdExchanges (row j : Nat) (columns : Columns K) (i : Nat) : Option (Columns K) := do
  let V ← svdExchange row j columns.V i
  let A ← svdExchange row j columns.A i
  return ⟨A, V⟩

structure Sorting (K : Type) where
  S : Buffer K
  columns : Columns K

/-- `S[j]`, `S[j + 1]` and the columns that belong to them in the other order. -/
def svdSwap (row j : Nat) (sorting : Sorting K) (Sj Sj1 : K) : Option (Sorting K) := do
  let S ← sorting.S.write j Sj1
  let S ← S.write (j + 1) Sj
  let columns ← (upTo 0 row).foldlM (svdExchanges row j) sorting.columns
  return ⟨S, columns⟩

def svdCompare (row : Nat) (sorting : Sorting K) (j : Nat) : Option (Sorting K) := do
  let Sj ← sorting.S.read j
  let Sj1 ← sorting.S.read (j + 1)
  if Sj < Sj1 then svdSwap row j sorting Sj Sj1 else return sorting

def svdPass (row : Nat) (sorting : Sorting K) (p : Nat) : Option (Sorting K) :=
  (upTo 0 (row - p - 1)).foldlM (svdCompare row) sorting

/-- `*(A + row * i + j) = *(A + row * i + j) / *(S + j)`. -/
def svdQuotient (row i : Nat) (S A : Buffer K) (j : Nat) : Option (Buffer K) := do
  let Aij ← A.readFrom (row * i) j
  let Sj ← S.read j
  let q ← quotient Aij Sj
  A.writeFrom (row * i) j q

def svdQuotients (row : Nat) (S A : Buffer K) (i : Nat) : Option (Buffer K) :=
  (upTo 0 row).foldlM (svdQuotient row i S) A

/-- `*(M + row * i + i) = 1`. -/
def svdIdentity (row : Nat) (M : Buffer K) (i : Nat) : Option (Buffer K) := M.writeFrom (row * i) i 1

/-- `U`, `S` and `V`. -/
structure SingularValues (K : Type) where
  U : Buffer K
  S : Buffer K
  V : Buffer K

/-- `S` and `V` as a call leaves them. -/
def svdSorted (sqrtf : K → K) (row : Nat) (S : Buffer K) (columns : Columns K) : Option (Sorting K) := do
  let S ← (upTo 0 row).foldlM (svdLength sqrtf row columns.A) S
  (upTo 0 (row - 1)).foldlM (svdPass row) ⟨S, columns⟩

/-- What follows the rotations. -/
def svdFinish (sqrtf : K → K) (row : Nat) (U S : Buffer K) (columns : Columns K) :
    Option (SingularValues K) := do
  let sorting ← svdSorted sqrtf row S columns
  let A ← (upTo 0 row).foldlM (svdQuotients row sorting.S) sorting.columns.A
  let U ← U.copyInt A (row * row)
  return ⟨U, sorting.S, sorting.columns.V⟩

/-- `U`, `S` and the columns before the first rotation. -/
structure Unrotated (K : Type) where
  U : Buffer K
  S : Buffer K
  columns : Columns K

def svdPrepare (Ain : Buffer K) (row : Nat) (svd : SingularValues K) : Option (Unrotated K) := do
  let size ← asInt (row * row)
  let A ← (⟨size, fun _ => 0⟩ : Buffer K).copy Ain size
  let U ← svd.U.clearInt (row * row)
  let V ← svd.V.clearInt (row * row)
  let S ← svd.S.clear row
  let U ← (upTo 0 row).foldlM (svdIdentity row) U
  let V ← (upTo 0 row).foldlM (svdIdentity row) V
  return ⟨U, S, ⟨A, V⟩⟩

def svdJacobiOneSided (sqrtf : K → K) (Ain : Buffer K) (row maxIterations : Nat) (svd : SingularValues K) :
    Option (SingularValues K) := do
  let start ← svdPrepare Ain row svd
  let columns ← (upTo 0 maxIterations).foldlM (svdSweep sqrtf row) start.columns
  svdFinish sqrtf row start.U start.S columns

/-- `S` alone, for callers that do not read `U`. -/
def svdValues (sqrtf : K → K) (Ain : Buffer K) (row maxIterations : Nat) (svd : SingularValues K) :
    Option (Buffer K) := do
  let start ← svdPrepare Ain row svd
  let columns ← (upTo 0 maxIterations).foldlM (svdSweep sqrtf row) start.columns
  let sorting ← svdSorted sqrtf row start.S columns
  return sorting.S

/-- `MAX_ITERATION_COUNT_SVD`. -/
def maxIterationCountSvd : Nat := 30

/-- The arrays of a caller, which are not set before they are written. -/
def svdArrays (row : Nat) : SingularValues K :=
  ⟨⟨row * row, fun _ => 0⟩, ⟨row, fun _ => 0⟩, ⟨row * row, fun _ => 0⟩⟩

end

/-! One pair. -/

section
variable {row : Nat} {i j : Fin row}

/-- The products of a pair of columns. -/
theorem svdSums_loop [Field K] {A : Buffer K} (rows : row ≤ 46340) (room : row * row ≤ A.size)
    (i j : Fin row) : Returns ((upTo 0 row).foldlM (svdSums row i j A) ⟨0, 0, 0⟩) fun sums =>
      sums = ⟨products (A.matrix row) i i, products (A.matrix row) j j, products (A.matrix row) i j⟩ := by
  let upto (t p q : Nat) : K := ∑ k ∈ Finset.range t, A.entry row k p * A.entry row k q
  have whole (p q : Fin row) : upto row p q = products (A.matrix row) p q :=
    (Finset.sum_range _).trans (products_apply (M := A.matrix row)).symm
  rw [← whole, ← whole, ← whole]
  refine Returns.loop (fun t (sums : ColumnSums K) => sums = ⟨upto t i i, upto t j j, upto t i j⟩)
    (Nat.zero_le row) ?_ ?_
  · simp only [upto, Finset.range_zero, Finset.sum_empty]
  · rintro t sums - below rfl
    apply Returns.known (Buffer.readFrom_flat rows room below i.isLt)
    apply Returns.known (Buffer.readFrom_flat rows room below j.isLt)
    refine Returns.done ?_
    simp only [upto, Finset.sum_range_succ]
    rfl

/-- A loop over the rows rotates the columns. -/
theorem svdRotate_loop [Field K] {M : Buffer K} (rows : row ≤ 46340) (room : row * row ≤ M.size)
    (apart : i ≠ j) (cs sn : K) : Returns ((upTo 0 row).foldlM (svdRotate row i j cs sn) M) fun M' =>
      M'.size = M.size ∧ M'.matrix row = columnsRotated (M.matrix row) i j cs sn := by
  refine rows_loop _ fun t M' size old => ?_
  rw [← size] at room ⊢
  have second : row * (t : Nat) + j ≠ row * t + i := by
    have different : (j : Nat) ≠ i := fun same => apart (Fin.ext same.symm)
    omega
  have first (q : Fin row) : M'.cells (row * t + q) = M.matrix row t q := old q
  apply Returns.known (Buffer.readFrom_flat rows room t.isLt i.isLt)
  apply Returns.known (Buffer.readFrom_flat rows room t.isLt j.isLt)
  apply Returns.known (Buffer.writeFrom_flat rows room t.isLt i.isLt _)
  have room' (item : K) : row * row ≤ (M'.set (row * t + i) item).size := room
  apply Returns.known (Buffer.readFrom_flat rows (room' _) t.isLt j.isLt)
  rw [Buffer.set_other _ second, first, first]
  refine ⟨_, Buffer.writeFrom_flat rows (room' _) t.isLt j.isLt _, rfl, fun k q => ?_⟩
  change (Buffer.set _ _ _).entry row k q = _
  rw [Buffer.entry_set j.isLt q.isLt, Buffer.entry_set i.isLt q.isLt]
  by_cases here : k = t
  · rw [here, if_pos rfl]
    by_cases last : q = j
    · rw [if_pos ⟨rfl, congrArg Fin.val last⟩, last, rotated_second _ _ _ apart]
    · rw [if_neg fun same => last (Fin.ext same.2)]
      by_cases first : q = i
      · rw [if_pos ⟨rfl, congrArg Fin.val first⟩, first, rotated_first]
      · rw [if_neg fun same => first (Fin.ext same.2), rotated_other _ _ _ first last]
        exact old q
  · rw [if_neg here, if_neg fun same => here (Fin.ext same.1), if_neg fun same => here (Fin.ext same.1)]
    rfl

/-- A pair of orthogonal columns of the same length. -/
def Undefined [Field K] (M : Matrix (Fin row) (Fin row) K) (i j : Fin row) : Prop :=
  products M i j = 0 ∧ products M i i = products M j j

/-- Both matrices with the same pair rotated, so that it is orthogonal in one of them. -/
structure Turned (i j : Fin row) (columns columns' : Columns ℝ) : Prop where
  sizeA : columns'.A.size = columns.A.size
  sizeV : columns'.V.size = columns.V.size
  turn : ∃ cs sn, cs * cs + sn * sn = 1 ∧
    columns'.A.matrix row = columnsRotated (columns.A.matrix row) i j cs sn ∧
    columns'.V.matrix row = columnsRotated (columns.V.matrix row) i j cs sn
  orthogonal : products (columns'.A.matrix row) i j = 0
  unchanged : products (columns.A.matrix row) i j = 0 →
    columns'.A.matrix row = columns.A.matrix row ∧ columns'.V.matrix row = columns.V.matrix row

/-- What `t` has to do. -/
theorem svdTangent_returns {al b c : ℝ} (defined : ¬ (c = 0 ∧ al = b)) :
    Returns (svdTangent Real.sqrt ⟨al, b, c⟩) fun t =>
      (c = 0 → t = 0) ∧ (c ≠ 0 → ∃ l, b - al = 2 * c * l ∧ t * t + 2 * l * t = 1) := by
  rw [svdTangent]
  by_cases zero : c = 0
  · rw [if_pos zero, if_neg fun same => defined ⟨zero, same.symm⟩]
    exact Returns.done ⟨fun _ => rfl, fun nonzero => absurd zero nonzero⟩
  · have twice : (2 : Nat) * c ≠ 0 := mul_ne_zero (Nat.cast_ne_zero.mpr two_ne_zero) zero
    rw [if_neg zero]
    apply Returns.known (quotient_nonzero twice _)
    have middle : b - al = 2 * c * ((b - al) / ((2 : Nat) * c)) := by
      rw [Nat.cast_ofNat] at twice ⊢
      exact (mul_div_cancel₀ _ twice).symm
    generalize (b - al) / ((2 : Nat) * c) = l at *
    have positive : 0 ≤ 1 + l * l := add_nonneg zero_le_one (mul_self_nonneg l)
    apply Returns.known (if_neg (not_lt.mpr positive))
    have unit : (if l < 0 then (-1 : ℝ) else 1) * (if l < 0 then -1 else 1) = 1 := by
      split <;> norm_num
    have same : 0 ≤ (if l < 0 then (-1 : ℝ) else 1) * l := by
      split
      case isTrue negative => linarith
      case isFalse other => linarith
    obtain ⟨total, equation⟩ := tangent_solves l unit same
    exact ⟨_, quotient_nonzero total.ne' _, fun none => absurd none zero, fun _ => ⟨l, middle, equation⟩⟩

theorem svdTurn_returns {columns : Columns ℝ} (rows : row ≤ 46340) (roomA : row * row ≤ columns.A.size)
    (roomV : row * row ≤ columns.V.size) (apart : i ≠ j)
    (defined : ¬ Undefined (columns.A.matrix row) i j) :
    Returns (svdTurn Real.sqrt row i columns j) (Turned i j columns) := by
  refine Returns.next (svdSums_loop rows roomA i j) fun _ _ same => ?_
  subst same
  refine Returns.next (svdTangent_returns defined) fun t _ ⟨small, large⟩ => ?_
  have positive : 0 < 1 + t * t := add_pos_of_pos_of_nonneg one_pos (mul_self_nonneg t)
  have square := Real.mul_self_sqrt positive.le
  have root := Real.sqrt_pos.mpr positive
  apply Returns.known (if_neg (not_lt.mpr positive.le))
  apply Returns.known (quotient_nonzero root.ne' _)
  have unit : 1 / Real.sqrt (1 + t * t) * (1 / Real.sqrt (1 + t * t)) +
      1 / Real.sqrt (1 + t * t) * t * (1 / Real.sqrt (1 + t * t) * t) = 1 := by
    have inverse := one_div_mul_cancel root.ne'
    linear_combination (1 / Real.sqrt (1 + t * t) * Real.sqrt (1 + t * t) + 1) * inverse -
      1 / Real.sqrt (1 + t * t) * (1 / Real.sqrt (1 + t * t)) * square
  have still : t = 0 → 1 / Real.sqrt (1 + t * t) = 1 := by
    rintro rfl
    rw [mul_zero, add_zero, Real.sqrt_one, div_one]
  generalize 1 / Real.sqrt (1 + t * t) = cs at *
  refine Returns.next (svdRotate_loop rows roomA apart cs (cs * t)) fun A _ ⟨sizeA, turnedA⟩ => ?_
  refine Returns.next (svdRotate_loop rows roomV apart cs (cs * t)) fun V _ ⟨sizeV, turnedV⟩ => ?_
  refine Returns.done ⟨sizeA, sizeV, ⟨cs, cs * t, unit, turnedA, turnedV⟩, ?_, fun zero => ?_⟩
  · change products (A.matrix row) i j = 0
    rw [turnedA]
    by_cases zero : products (columns.A.matrix row) i j = 0
    · rw [small zero, mul_zero, rotated_pair _ _ _ apart, zero, mul_zero, mul_zero, zero_mul, add_zero]
    · obtain ⟨l, middle, equation⟩ := large zero
      exact rotated_orthogonal apart middle equation
  · change A.matrix row = _ ∧ V.matrix row = _
    rw [turnedA, turnedV, still (small zero), small zero, mul_zero, rotated_zero, rotated_zero]
    exact ⟨rfl, rfl⟩

/-- An undefined pair stops the call. -/
theorem svdTurn_undefined {columns : Columns ℝ} (rows : row ≤ 46340)
    (roomA : row * row ≤ columns.A.size) (undefined : Undefined (columns.A.matrix row) i j) :
    svdTurn Real.sqrt row i columns j = none := by
  obtain ⟨sums, summed, rfl⟩ := svdSums_loop rows roomA i j
  rw [svdTurn, summed, Option.bind_eq_bind, Option.bind_some, svdTangent, if_pos undefined.1,
    if_pos undefined.2.symm]
  rfl

end

/-! Sweeps. -/

section
variable {row : Nat} {Ain : Matrix (Fin row) (Fin row) ℝ} {columns columns' start : Columns ℝ}

/-- What is not orthogonal yet. -/
def apartness (row : Nat) (columns : Columns ℝ) : ℝ := offDiagonal (products (columns.A.matrix row))

/-- The columns of a matrix, rotated as those of an orthogonal one are. -/
structure SvdTo (Ain : Matrix (Fin row) (Fin row) ℝ) (columns : Columns ℝ) : Prop where
  rows : row ≤ 46340
  roomA : row * row ≤ columns.A.size
  roomV : row * row ≤ columns.V.size
  orthogonal : (columns.V.matrix row)ᵀ * columns.V.matrix row = 1
  product : columns.A.matrix row = Ain * columns.V.matrix row

theorem SvdTo.turn {i j : Fin row} (part : SvdTo Ain columns) (apart : i ≠ j)
    (turned : Turned i j columns columns') : SvdTo Ain columns' := by
  obtain ⟨cs, sn, unit, turnedA, turnedV⟩ := turned.turn
  refine ⟨part.rows, turned.sizeA ▸ part.roomA, turned.sizeV ▸ part.roomV, ?_, ?_⟩
  · rw [turnedV, ← mul_planeRotation]
    exact orthogonal_mul part.orthogonal (planeRotation_orthogonal apart unit)
  · rw [turnedA, turnedV, ← mul_planeRotation, ← mul_planeRotation, part.product, Matrix.mul_assoc]

/-- A turn takes what the pair was apart. -/
theorem Turned.nearer {i j : Fin row} (turned : Turned i j columns columns') (apart : i ≠ j) :
    apartness row columns' = apartness row columns -
      2 * (products (columns.A.matrix row) i j * products (columns.A.matrix row) i j) := by
  have orthogonal := turned.orthogonal
  obtain ⟨cs, sn, unit, turnedA, -⟩ := turned.turn
  rw [turnedA] at orthogonal
  rw [apartness, turnedA, offDiagonal_rotated _ apart unit, orthogonal, mul_zero, mul_zero, add_zero]
  rfl

/-- A turn with a result. -/
theorem svdTurn_ran {i j : Fin row} (part : SvdTo Ain columns) (apart : i ≠ j)
    (ran : svdTurn Real.sqrt row i columns j = some columns') :
    Turned i j columns columns' ∧ ¬ Undefined (columns.A.matrix row) i j := by
  by_cases undefined : Undefined (columns.A.matrix row) i j
  · rw [svdTurn_undefined part.rows part.roomA undefined] at ran
    cases ran
  · obtain ⟨reached, same, turned⟩ := svdTurn_returns part.rows part.roomA part.roomV apart undefined
    rw [ran] at same
    cases same
    exact ⟨turned, undefined⟩

/-- Both matrices as they were. -/
def Still (row : Nat) (start columns : Columns ℝ) : Prop :=
  columns.A.matrix row = start.A.matrix row ∧ columns.V.matrix row = start.V.matrix row

/-- The turns before a pair have come nearer, or have met orthogonal pairs only. -/
def NearerTo (row : Nat) (start : Columns ℝ) (i j : Nat) (columns : Columns ℝ) : Prop :=
  apartness row columns < apartness row start ∨ Still row start columns ∧
    ∀ p q : Fin row, p < q → (p : Nat) < i ∨ (p : Nat) = i ∧ (q : Nat) < j →
      products (start.A.matrix row) p q = 0 ∧ ¬ Undefined (start.A.matrix row) p q

theorem NearerTo.turn {i j : Fin row} (nearer : NearerTo row start i j columns) (apart : i ≠ j)
    (turned : Turned i j columns columns') (defined : ¬ Undefined (columns.A.matrix row) i j) :
    NearerTo row start i (j + 1) columns' := by
  have less := turned.nearer apart
  have square := mul_self_nonneg (products (columns.A.matrix row) i j)
  rcases nearer with closer | ⟨⟨sameA, sameV⟩, before⟩
  · exact Or.inl (by linarith)
  · by_cases zero : products (columns.A.matrix row) i j = 0
    · obtain ⟨sameA', sameV'⟩ := turned.unchanged zero
      refine Or.inr ⟨⟨sameA'.trans sameA, sameV'.trans sameV⟩, fun p q order passed => ?_⟩
      by_cases here : p = i ∧ q = j
      · rw [here.1, here.2, ← sameA]
        exact ⟨zero, defined⟩
      · refine before p q order ?_
        rw [Fin.ext_iff, Fin.ext_iff] at here
        omega
    · have positive := mul_self_pos.mpr zero
      have same : apartness row columns = apartness row start := by rw [apartness, sameA, apartness]
      exact Or.inl (by linarith)

theorem NearerTo.later {i j i' j' : Nat} (nearer : NearerTo row start i j columns)
    (order : ∀ p q, p < q → q < row → p < i' ∨ p = i' ∧ q < j' → p < i ∨ p = i ∧ q < j) :
    NearerTo row start i' j' columns := by
  rcases nearer with closer | ⟨still, before⟩
  · exact Or.inl closer
  · exact Or.inr ⟨still, fun p q below passed => before p q below (order p q below q.isLt passed)⟩

theorem svdRow_ran {i : Nat} (inside : i < row) (part : SvdTo Ain columns)
    (nearer : NearerTo row start i (i + 1) columns)
    (ran : svdRow Real.sqrt row columns i = some columns') :
    SvdTo Ain columns' ∧ NearerTo row start (i + 1) (i + 2) columns' := by
  obtain ⟨part', nearer'⟩ := Returns.loop_ran
    (fun j columns => SvdTo Ain columns ∧ NearerTo row start i j columns) (Nat.succ_le_of_lt inside)
    ⟨part, nearer⟩ (fun j columns columns' above below held turned => by
      obtain ⟨part, nearer⟩ := held
      have apart : (⟨i, inside⟩ : Fin row) ≠ ⟨j, below⟩ := fun same => by
        have values := congrArg Fin.val same
        simp only at values
        omega
      obtain ⟨turn, defined⟩ := svdTurn_ran part apart turned
      exact ⟨part.turn apart turn, nearer.turn apart turn defined⟩) ran
  exact ⟨part', nearer'.later fun p q below within passed => by omega⟩

/-- A sweep comes nearer, unless the columns are orthogonal and of different lengths, which it
leaves as they are. -/
def Progress (row : Nat) (columns columns' : Columns ℝ) : Prop :=
  apartness row columns' < apartness row columns ∨ apartness row columns = 0 ∧
    Still row columns columns' ∧ ∀ p q : Fin row, p < q → ¬ Undefined (columns.A.matrix row) p q

theorem products_zero {M : Matrix (Fin row) (Fin row) ℝ}
    (zero : ∀ p q : Fin row, p < q → products M p q = 0) : offDiagonal (products M) = 0 := by
  rw [offDiagonal_zero_iff]
  intro p q apart
  rcases lt_or_gt_of_ne apart with before | behind
  · exact zero p q before
  · rw [products_comm]
    exact zero q p behind

theorem svdSweep_ran {p : Nat} (part : SvdTo Ain columns)
    (ran : svdSweep Real.sqrt row columns p = some columns') :
    SvdTo Ain columns' ∧ Progress row columns columns' := by
  have start : NearerTo row columns 0 1 columns :=
    Or.inr ⟨⟨rfl, rfl⟩, fun p q below passed => by
      have order : (p : Nat) < q := below
      omega⟩
  obtain ⟨part', nearer⟩ := Returns.loop_ran
    (fun i columns' => SvdTo Ain columns' ∧ NearerTo row columns i (i + 1) columns') (Nat.zero_le row)
    ⟨part, start⟩ (fun i _ _ _ below held turned => svdRow_ran below held.1 held.2 turned) ran
  refine ⟨part', nearer.imp id fun ⟨still, before⟩ => ⟨?_, still, fun p q below => ?_⟩⟩
  · exact products_zero fun p q below => (before p q below (Or.inl p.isLt)).1
  · exact (before p q below (Or.inl p.isLt)).2

theorem Progress.next {middle : Columns ℝ} (first : Progress row columns middle)
    (second : Progress row middle columns') : Progress row columns columns' := by
  rcases first with nearer | ⟨zero, ⟨sameA, sameV⟩, defined⟩
  · rcases second with nearer' | ⟨zero', ⟨sameA', -⟩, -⟩
    · exact Or.inl (nearer'.trans nearer)
    · have same : apartness row columns' = apartness row middle := by rw [apartness, sameA', apartness]
      exact Or.inl (same ▸ nearer)
  · rcases second with nearer' | ⟨-, ⟨sameA', sameV'⟩, -⟩
    · have same : apartness row middle = apartness row columns := by rw [apartness, sameA, apartness]
      rw [same, zero] at nearer'
      exact absurd (offDiagonal_nonneg _) (not_le.mpr nearer')
    · exact Or.inr ⟨zero, ⟨sameA'.trans sameA, sameV'.trans sameV⟩, defined⟩

/-- So does any number of sweeps. -/
theorem svdSweeps_ran {m n : Nat} (more : m < n) (part : SvdTo Ain columns)
    (ran : (upTo m n).foldlM (svdSweep Real.sqrt row) columns = some columns') :
    SvdTo Ain columns' ∧ Progress row columns columns' := by
  rw [upTo_cons more, List.foldlM_cons] at ran
  obtain ⟨middle, swept, rest⟩ := Option.bind_eq_some_iff.mp ran
  obtain ⟨part', progress⟩ := svdSweep_ran part swept
  refine Returns.loop_ran (fun _ columns' => SvdTo Ain columns' ∧ Progress row columns columns')
    (Nat.succ_le_of_lt more) ⟨part', progress⟩ ?_ rest
  intro i reached next _ _ held swept
  obtain ⟨further, closer⟩ := svdSweep_ran held.1 swept
  exact ⟨further, held.2.next closer⟩

end

end Simuless.Linalg
