import Simuless.Foundation.RowOperations
import Simuless.Linalg.MatOps

/-! Elimination in natural order, with and without regularisation.

Nothing is tested before a division, so that a call goes through exactly where
no leading principal minor is zero. A regularised system is of that kind.
-/

set_option autoImplicit false

namespace Simuless.Linalg

open Foundation
open scoped Matrix

variable {K : Type} [Field K] [LinearOrder K]

structure System (K : Type) where
  A : Buffer K
  b : Buffer K

/-- `A[i * row + k] = A[i * row + k] - pivot * A[j * row + k]`. -/
def triuEntry (row i j : Nat) (pivot : K) (A : Buffer K) (k : Nat) : Option (Buffer K) := do
  let entry ← A.readInt (i * row + k)
  let upper ← A.readInt (j * row + k)
  A.writeInt (i * row + k) (entry - pivot * upper)

def triuRow (row j : Nat) (system : System K) (i : Nat) : Option (System K) := do
  if j < i then
    let entry ← system.A.readInt (i * row + j)
    let diagonal ← system.A.readInt (j * row + j)
    let pivot ← quotient entry diagonal
    let A ← (upTo 0 row).foldlM (triuEntry row i j pivot) system.A
    let bi ← system.b.read i
    let bj ← system.b.read j
    let b ← system.b.write i (bi - pivot * bj)
    return ⟨A, b⟩
  return system

def triuColumn (row : Nat) (system : System K) (j : Nat) : Option (System K) :=
  (upTo 0 row).foldlM (triuRow row j) system

def triu (A b : Buffer K) (row : Nat) : Option (System K) :=
  (upTo 0 row).foldlM (triuColumn row) ⟨A, b⟩

/-- `sum += A[i * column + j] * x[j]`. -/
def upperTerm (column i : Nat) (A x : Buffer K) (sum : K) (j : Nat) : Option K := do
  let entry ← A.readInt (i * column + j)
  let xj ← x.read j
  return sum + entry * xj

def upperRow (column : Nat) (A b x : Buffer K) (i : Nat) : Option (Buffer K) := do
  let sum ← (upTo i column).foldlM (upperTerm column i A x) 0
  let bi ← b.read i
  let diagonal ← A.readInt (i * column + i)
  let xi ← quotient (bi - sum) diagonal
  x.write i xi

def smlsLinsolveUpperTriangular (A x b : Buffer K) (column : Nat) : Option (Buffer K) := do
  let x ← x.clear column
  (downFrom column).foldlM (upperRow column A b) x

/-- `ATA[i * column_a + i] = ATA[i * column_a + i] + alpha`. -/
def tikhonovDiagonal (columnA : Nat) (alpha : K) (ATA : Buffer K) (i : Nat) : Option (Buffer K) := do
  let entry ← ATA.readInt (i * columnA + i)
  ATA.writeInt (i * columnA + i) (entry + alpha)

/-- `ATA` and `ATb`; the array of the call itself is not set before it is written. -/
def tikhonov (A b ATA ATb : Buffer K) (rowA columnA : Nat) (alpha : K) : Option (System K) := do
  let size ← asInt (columnA * rowA)
  let AT ← (⟨size, fun _ => 0⟩ : Buffer K).copy A size
  let AT ← smlsMatTranspose AT AT rowA columnA
  let ATb ← ATb.clear rowA
  let (_, ATb) ← smlsMatMul ATb AT b columnA rowA rowA 1
  let ATA ← ATA.clearInt (columnA * columnA)
  let (_, ATA) ← smlsMatMul ATA AT A columnA rowA rowA columnA
  let ATA ← (upTo 0 columnA).foldlM (tikhonovDiagonal columnA alpha) ATA
  return ⟨ATA, ATb⟩

/-- What `x` holds; the arrays of the call itself are not set before they are written. -/
def smlsLinsolveGauss (A x b : Buffer K) (row column : Nat) (alpha : K) : Option (Buffer K) := do
  if alpha ≤ 0 ∧ row = column then
    let size ← asInt (row * row)
    let A ← (⟨size, fun _ => 0⟩ : Buffer K).copy A size
    let b ← (⟨column, fun _ => 0⟩ : Buffer K).copy b column
    let system ← triu A b row
    smlsLinsolveUpperTriangular system.A x system.b column
  else
    let size ← asInt (column * column)
    let system ← tikhonov A b ⟨size, fun _ => 0⟩ ⟨column, fun _ => 0⟩ row column alpha
    let system ← triu system.A system.b column
    smlsLinsolveUpperTriangular system.A x system.b column

/-! One row operation. -/

/-- The arrays of a system hold what elimination accesses, and its indices are in range. -/
structure System.Fits (system : System K) (n : Nat) : Prop where
  small : n * n ≤ intMax
  A : n * n ≤ system.A.size
  b : n ≤ system.b.size

section
variable {n i j : Nat} {pivot : K} {start system : System K}

omit [LinearOrder K] in
theorem triuEntry_loop {A : Buffer K} (small : n * n ≤ intMax) (room : n * n ≤ A.size) (inRow : i < n)
    (below : j < i) : Returns ((upTo 0 n).foldlM (triuEntry n i j pivot) A) fun A' => A'.size = A.size ∧
      ∀ t < n, ∀ c < n, A'.entry n t c = subtractRow i j pivot (A.entry n) t c := by
  refine (rowwise_loop (i := i) (fun k entry => entry - pivot * A.entry n j k)
    fun k inColumn A' size others => ?_).weaken fun A' ⟨size, entries⟩ =>
      ⟨size, fun t _ c inColumn => ?_⟩
  · have fits : n * n ≤ A'.size := size.symm ▸ room
    rw [triuEntry, Buffer.readInt_entry small fits inRow inColumn, Option.bind_eq_bind, Option.bind_some,
      Buffer.readInt_entry small fits (below.trans inRow) inColumn, others j (Nat.ne_of_lt below) k inColumn]
    exact Buffer.writeInt_entry small fits inRow inColumn _
  · rw [entries t c inColumn, subtractRow]
    by_cases here : t = i
    · rw [if_pos here, if_pos here, here]
    · rw [if_neg here, if_neg here]

/-- The first columns are cleared, with the solutions and the minors of the start. -/
structure ReducedTo (n : Nat) (start : System K) (j : Nat) (system : System K) : Prop where
  fits : system.Fits n
  cleared : Cleared n j (system.A.entry n)
  corners : ∀ k ≤ n, (corner k (system.A.entry n)).det = (corner k (start.A.entry n)).det
  solutions : ∀ x : Fin n → K, system.A.matrix n *ᵥ x = system.b.vector n ↔
    start.A.matrix n *ᵥ x = start.b.vector n

omit [LinearOrder K] in
theorem ReducedTo.begun (fits : start.Fits n) : ReducedTo n start 0 start :=
  ⟨fits, fun _ _ c before => absurd before (Nat.not_lt_zero c), fun _ _ => rfl, fun _ => Iff.rfl⟩

/-- In the next column the rows up to `i` are cleared. -/
structure ReducedRows (n : Nat) (start : System K) (j i : Nat) (system : System K) : Prop where
  reduced : ReducedTo n start j system
  rows : ∀ t < n, t < i → j < t → system.A.entry n t j = 0

omit [LinearOrder K] in
/-- Taking a multiple of a row off one below it keeps what is cleared, the minors and the
solutions. -/
theorem ReducedTo.subtracted {next : System K} (reduced : ReducedTo n start j system) (below : j < i)
    (inRow : i < n) (factor : K) (fits : next.Fits n)
    (entries : ∀ t < n, ∀ c < n, next.A.entry n t c = subtractRow i j factor (system.A.entry n) t c)
    (rights : ∀ t, next.b.cells t = subtractEntry i j factor system.b.cells t) :
    ReducedTo n start j next := by
  have inColumn : j < n := below.trans inRow
  have same (k : Nat) (inside : k ≤ n) : corner k (next.A.entry n) =
      corner k (subtractRow i j factor (system.A.entry n)) :=
    corner_congr fun t inRow c inColumn =>
      entries t (inRow.trans_le inside) c (inColumn.trans_le inside)
  refine ⟨fits, fun t inRow' c before under => ?_, fun k inside => ?_, fun x => ?_⟩
  · have before' : c < n := before.trans inColumn
    rw [entries t inRow' c before', subtractRow]
    split
    · rw [reduced.cleared i inRow c before (before.trans below),
        reduced.cleared j inColumn c before before, mul_zero, sub_zero]
    · exact reduced.cleared t inRow' c before under
  · rw [same k inside, det_corner_subtractRow below]
    exact reduced.corners k inside
  · rw [← reduced.solutions x]
    have operated := solutions_subtractRow (A := system.A.entry n) (b := system.b.cells) below inRow
      factor x
    rw [← same n (Nat.le_refl n)] at operated
    refine Iff.trans (Eq.to_iff (congrArg _ ?_)) operated
    funext t
    exact rights t

theorem ReducedRows.next (part : ReducedRows n start j i system) (inRow : i < n) (inColumn : j < n)
    (pivot : j + 1 < n → system.A.entry n j j ≠ 0) :
    Returns (triuRow n j system i) fun next => ReducedRows n start j (i + 1) next ∧
      next.A.entry n j j = system.A.entry n j j := by
  have fits := part.reduced.fits
  apply Returns.check
  · intro below
    have nonzero := pivot (by omega)
    have inB : i < system.b.size := inRow.trans_le fits.b
    apply Returns.known (Buffer.readInt_entry fits.small fits.A inRow inColumn)
    apply Returns.known (Buffer.readInt_entry fits.small fits.A inColumn inColumn)
    apply Returns.known (quotient_nonzero nonzero _)
    refine Returns.next (triuEntry_loop fits.small fits.A inRow below) fun A' _ ⟨size, entries⟩ => ?_
    apply Returns.known (system.b.read_inside inB)
    apply Returns.known (system.b.read_inside (inColumn.trans_le fits.b))
    apply Returns.known (system.b.write_inside inB _)
    refine Returns.done ⟨⟨?_, fun t inRow' before under => ?_⟩, ?_⟩
    · refine part.reduced.subtracted below inRow _ ⟨fits.small, size.symm ▸ fits.A, fits.b⟩ entries
        fun t => ?_
      rw [subtractEntry]
      by_cases here : t = i
      · rw [if_pos here, here, Buffer.set_same]
      · rw [if_neg here, Buffer.set_other _ here]
    · rw [entries t inRow' j inColumn, subtractRow]
      split
      · rw [div_mul_cancel₀ _ nonzero, sub_self]
      · exact part.rows t inRow' (by omega) under
    · rw [entries j inColumn j inColumn, subtractRow, if_neg (Nat.ne_of_lt below)]
  · intro above
    refine Returns.done ⟨⟨part.reduced, fun t inRow' before under => ?_⟩, rfl⟩
    exact part.rows t inRow' (by omega) under

/-- A column is cleared if its pivot is not zero, or if nothing is below it. -/
theorem ReducedTo.column (reduced : ReducedTo n start j system) (inside : j < n)
    (pivot : j + 1 < n → system.A.entry n j j ≠ 0) :
    Returns (triuColumn n system j) (ReducedTo n start (j + 1)) := by
  have loop := Returns.loop (fun i next => ReducedRows n start j i next ∧
    next.A.entry n j j = system.A.entry n j j) (Nat.zero_le n)
    ⟨⟨reduced, fun t _ before => absurd before (Nat.not_lt_zero t)⟩, rfl⟩
    fun i next _ inRow ⟨part, same⟩ =>
      (part.next inRow inside (same.symm ▸ pivot)).weaken fun _ ⟨part', same'⟩ =>
        ⟨part', same'.trans same⟩
  refine loop.weaken fun next ⟨⟨⟨fits, cleared, corners, solutions⟩, rows⟩, _⟩ =>
    ⟨fits, fun t inRow c before under => ?_, corners, solutions⟩
  rcases Nat.lt_succ_iff_lt_or_eq.mp before with before | rfl
  · exact cleared t inRow c before under
  · exact rows t inRow inRow under

/-- A pivot of zero that something is below has no quotient. -/
theorem triuColumn_zero (fits : system.Fits n) (below : j + 1 < n)
    (zero : system.A.entry n j j = 0) : triuColumn n system j = none := by
  have inside : j < n := Nat.lt_of_succ_lt below
  refine Returns.loop_stuck (fun _ next => next = system) (Nat.zero_le (j + 1)) below rfl ?_ ?_
  · rintro i next - above rfl
    exact ⟨next, if_neg (by omega), rfl⟩
  · rintro next rfl
    rw [triuRow, if_pos (Nat.lt_succ_self j), Buffer.readInt_entry fits.small fits.A below inside,
      Option.bind_eq_bind, Option.bind_some, Buffer.readInt_entry fits.small fits.A inside inside,
      Option.bind_eq_bind, Option.bind_some, zero]
    simp only [quotient, if_true, Option.bind_none]

end

/-! Triangular systems. -/

section
variable {n i : Nat} {A b x : Buffer K}

omit [LinearOrder K] in
theorem upperTerm_loop (small : n * n ≤ intMax) (room : n * n ≤ A.size) (room' : n ≤ x.size) (inRow : i < n) :
    Returns ((upTo i n).foldlM (upperTerm n i A x) 0) fun sum =>
      sum = ∑ j ∈ Finset.Ico i n, A.entry n i j * x.cells j := by
  refine Returns.loop (fun j (sum : K) => sum = ∑ t ∈ Finset.Ico i j, A.entry n i t * x.cells t)
    inRow.le ?_ ?_
  · rw [Finset.Ico_self, Finset.sum_empty]
  · rintro j sum above inColumn rfl
    apply Returns.known (Buffer.readInt_entry small room inRow inColumn)
    apply Returns.known (x.read_inside (inColumn.trans_le room'))
    exact Returns.done (Finset.sum_Ico_succ_top above _).symm

/-- The entries from `i` on solve the rows from there, and those before are still zero. -/
structure UpperPart (n : Nat) (A b : Buffer K) (size i : Nat) (x : Buffer K) : Prop where
  size : x.size = size
  solved : ∀ t, i ≤ t → t < n →
    A.entry n t t * x.cells t = b.cells t - ∑ j ∈ Finset.Ico (t + 1) n, A.entry n t j * x.cells j
  waiting : ∀ t < i, x.cells t = 0

theorem UpperPart.row {size : Nat} (part : UpperPart n A b size (i + 1) x) (small : n * n ≤ intMax)
    (room : n * n ≤ A.size) (room' : n ≤ b.size) (room'' : n ≤ size) (inRow : i < n)
    (pivot : A.entry n i i ≠ 0) : Returns (upperRow n A b x i) (UpperPart n A b size i) := by
  have fits : n ≤ x.size := part.size.symm ▸ room''
  refine Returns.next (upperTerm_loop small room fits inRow) fun sum _ summed => ?_
  apply Returns.known (b.read_inside (inRow.trans_le room'))
  apply Returns.known (Buffer.readInt_entry small room inRow inRow)
  apply Returns.known (quotient_nonzero pivot _)
  rw [x.write_inside (inRow.trans_le fits)]
  refine Returns.done ⟨part.size, fun t above below => ?_, fun t before => ?_⟩
  · have same : ∑ j ∈ Finset.Ico (t + 1) n,
        A.entry n t j * (x.set i ((b.cells i - sum) / A.entry n i i)).cells j =
          ∑ j ∈ Finset.Ico (t + 1) n, A.entry n t j * x.cells j := by
      apply Finset.sum_congr rfl
      intro j member
      have later := (Finset.mem_Ico.mp member).1
      rw [Buffer.set_other _ (by omega)]
    rw [same]
    rcases Nat.lt_or_eq_of_le above with behind | rfl
    · rw [Buffer.set_other _ (by omega)]
      exact part.solved t behind below
    · rw [Buffer.set_same, mul_div_cancel₀ _ pivot, summed, Finset.sum_eq_sum_Ico_succ_bot below,
        part.waiting i (Nat.lt_succ_self i), mul_zero, zero_add]
  · rw [Buffer.set_other _ (by omega)]
    exact part.waiting t (by omega)

theorem upperRow_zero (small : n * n ≤ intMax) (room : n * n ≤ A.size) (room' : n ≤ b.size)
    (room'' : n ≤ x.size) (inRow : i < n) (pivot : A.entry n i i = 0) : upperRow n A b x i = none := by
  obtain ⟨sum, summed, -⟩ := upperTerm_loop small room room'' inRow
  simp only [upperRow, summed, b.read_inside (inRow.trans_le room'),
    Buffer.readInt_entry small room inRow inRow, pivot, quotient, Option.bind_eq_bind, Option.bind_some,
    if_true, Option.bind_none]

/-- An upper triangular system without a zero on the diagonal is solved. -/
theorem smlsLinsolveUpperTriangular_solves (small : n * n ≤ intMax) (room : n * n ≤ A.size)
    (room' : n ≤ b.size) (room'' : n ≤ x.size) (cleared : Cleared n n (A.entry n))
    (pivots : ∀ i < n, A.entry n i i ≠ 0) : Returns (smlsLinsolveUpperTriangular A x b n) fun x' =>
      A.matrix n *ᵥ x'.vector n = b.vector n := by
  apply Returns.known (if_pos room'')
  have start : UpperPart n A b x.size n ⟨x.size, fun i => if i < n then 0 else x.cells i⟩ :=
    ⟨rfl, fun t above below => absurd below (Nat.not_lt.mpr above), fun t before => if_pos before⟩
  have upper : A.matrix n = upperMatrix n (A.entry n) := by
    ext i j
    rw [upperMatrix]
    split
    case isTrue below => exact cleared i i.isLt j j.isLt below
    case isFalse => rfl
  rw [upper]
  refine (Returns.loop_down _ start fun i x' inRow part =>
    part.row small room room' room'' inRow (pivots i inRow)).weaken fun x' part => ?_
  exact upper_solved fun i inRow => part.solved i (Nat.zero_le i) inRow

end

/-! Square systems. -/

section
variable {n : Nat} {A b x : Buffer K}

/-- What both calls do with their own arrays. -/
def eliminated (A b x : Buffer K) (n : Nat) : Option (Buffer K) := do
  let system ← triu A b n
  smlsLinsolveUpperTriangular system.A x system.b n

/-- Elimination in natural order solves a system whose minors are not zero. -/
theorem eliminated_solves (fits : System.Fits ⟨A, b⟩ n) (room : n ≤ x.size)
    (regular : RegularCorners n (A.entry n)) :
    Returns (eliminated A b x n) fun x' => A.matrix n *ᵥ x'.vector n = b.vector n := by
  have start := ReducedTo.begun fits
  have pivots {j : Nat} {system : System K} (reduced : ReducedTo n ⟨A, b⟩ j system) {i : Nat}
      (inside : i < n) (width : i ≤ j) : system.A.entry n i i ≠ 0 := by
    apply pivot_of_corner reduced.cleared inside width
    rw [reduced.corners _ inside]
    exact regular _ inside
  refine Returns.next (Returns.loop (ReducedTo n ⟨A, b⟩) (Nat.zero_le n) start
    fun j system _ inside reduced => reduced.column inside fun _ => pivots reduced inside (Nat.le_refl j))
    fun system _ reduced => ?_
  refine (smlsLinsolveUpperTriangular_solves fits.small reduced.fits.A reduced.fits.b room reduced.cleared
    fun i inside => pivots reduced inside inside.le).weaken fun x' solved => ?_
  exact (reduced.solutions _).mp solved

/-- It has no result on any other system. -/
theorem eliminated_fails (fits : System.Fits ⟨A, b⟩ n) (room : n ≤ x.size)
    (singular : ¬ RegularCorners n (A.entry n)) : eliminated A b x n = none := by
  obtain ⟨k, inside, before, zero⟩ := first_singular singular
  have start := ReducedTo.begun fits
  have earlier (j : Nat) (system : System K) (above : j < k) (reduced : ReducedTo n ⟨A, b⟩ j system) :
      system.A.entry n j j ≠ 0 := by
    apply pivot_of_corner reduced.cleared (above.trans inside) (Nat.le_refl j)
    rw [reduced.corners _ (by omega)]
    exact before _ above
  have stuck {j : Nat} {system : System K} (reduced : ReducedTo n ⟨A, b⟩ j system) (width : k ≤ j) :
      system.A.entry n k k = 0 := by
    apply corner_of_pivot reduced.cleared inside width
    · rw [reduced.corners _ inside.le]
      exact before k (Nat.le_refl k)
    · rw [reduced.corners _ inside]
      exact zero
  by_cases last : k + 1 < n
  · have triangular : triu A b n = none := by
      refine Returns.loop_stuck (ReducedTo n ⟨A, b⟩) (Nat.zero_le k) inside start ?_ ?_
      · intro j system _ above reduced
        exact reduced.column (above.trans inside) fun _ => earlier j system above reduced
      · intro system reduced
        exact triuColumn_zero reduced.fits last (stuck reduced (Nat.le_refl k))
    rw [eliminated, triangular]
    rfl
  · obtain rfl : n = k + 1 := by omega
    obtain ⟨system, ran, reduced⟩ := Returns.loop (ReducedTo (k + 1) ⟨A, b⟩) (Nat.zero_le (k + 1)) start
      fun j system _ inside' reduced => reduced.column inside' fun below =>
        earlier j system (Nat.lt_of_succ_lt_succ below) reduced
    have triangular : triu A b (k + 1) = some system := ran
    have divided : upperRow (k + 1) system.A system.b
        ⟨x.size, fun i => if i < k + 1 then 0 else x.cells i⟩ k = none :=
      upperRow_zero fits.small reduced.fits.A reduced.fits.b room inside (stuck reduced (Nat.le_succ k))
    rw [eliminated, triangular, Option.bind_eq_bind, Option.bind_some, smlsLinsolveUpperTriangular,
      Buffer.clear, if_pos room, Option.bind_eq_bind, Option.bind_some, downFrom_succ,
      List.foldlM_cons, divided]
    rfl

end

end Simuless.Linalg
