import Simuless.Foundation.Hessenberg
import Simuless.Linalg.Balance

/-! Reducing a matrix to Hessenberg form.

The eigenvalues of a general matrix are found from a balanced one, of which the
entries behind those next to the diagonal are cleared first. Their cells keep
the multipliers, which nothing reads.
-/

set_option autoImplicit false

namespace Simuless.Linalg

open Foundation

variable {K : Type} [Field K] [LinearOrder K]

/-- `x` and `i`. -/
structure PreparePivot (K : Type) where
  x : K
  i : Nat

def prepareSearch (row m : Nat) (A : Buffer K) (pivot : PreparePivot K) (j : Nat) :
    Option (PreparePivot K) := do
  let entry ← A.readFrom (row * j) (m - 1)
  if |pivot.x| < |entry| then return ⟨entry, j⟩ else return pivot

def prepareSwapRows (row i m : Nat) (A : Buffer K) (j : Nat) : Option (Buffer K) := do
  let t ← A.readFrom (row * i) j
  let other ← A.readFrom (row * m) j
  let A ← A.writeFrom (row * i) j other
  A.writeFrom (row * m) j t

def prepareSwapColumns (row i m : Nat) (A : Buffer K) (j : Nat) : Option (Buffer K) := do
  let t ← A.readFrom (row * j) i
  let other ← A.readFrom (row * j) m
  let A ← A.writeFrom (row * j) i other
  A.writeFrom (row * j) m t

def prepareSwap (row i m : Nat) (A : Buffer K) : Option (Buffer K) := do
  if i = m then return A
  let A ← (upTo (m - 1) row).foldlM (prepareSwapRows row i m) A
  (upTo 0 row).foldlM (prepareSwapColumns row i m) A

/-- `*(A + row * i + j) -= y * *(A + row * m + j)`. -/
def prepareRow (row i m : Nat) (y : K) (A : Buffer K) (j : Nat) : Option (Buffer K) := do
  let Aij ← A.readFrom (row * i) j
  let Amj ← A.readFrom (row * m) j
  A.writeFrom (row * i) j (Aij - y * Amj)

/-- `*(A + row * j + m) += y * *(A + row * j + i)`. -/
def prepareColumn (row i m : Nat) (y : K) (A : Buffer K) (j : Nat) : Option (Buffer K) := do
  let Ajm ← A.readFrom (row * j) m
  let Aji ← A.readFrom (row * j) i
  A.writeFrom (row * j) m (Ajm + y * Aji)

def prepareEliminate (row m : Nat) (x : K) (A : Buffer K) (i : Nat) : Option (Buffer K) := do
  let y ← A.readFrom (row * i) (m - 1)
  if y = 0 then return A
  let y ← quotient y x
  let A ← A.writeFrom (row * i) (m - 1) y
  let A ← (upTo m row).foldlM (prepareRow row i m y) A
  (upTo 0 row).foldlM (prepareColumn row i m y) A

def prepareStage (row : Nat) (A : Buffer K) (m : Nat) : Option (Buffer K) := do
  let pivot ← (upTo m row).foldlM (prepareSearch row m A) ⟨0, m⟩
  let A ← prepareSwap row pivot.i m A
  if pivot.x = 0 then return A
  (upTo (m + 1) row).foldlM (prepareEliminate row m pivot.x) A

/-- `A`. -/
def prepare (A : Buffer K) (row : Nat) : Option (Buffer K) :=
  (upTo 1 row).foldlM (prepareStage row) A

/-- What `smlsMatEig` hands to the QR algorithm. -/
def smlsMatEigPrepared (fuel : Nat) (AA : Buffer K) (row : Nat) : Option (Buffer K) := do
  let size ← asInt (row * row)
  let A ← (⟨size, fun _ => 0⟩ : Buffer K).copy AA size
  let A ← smlsMatBalance fuel A row
  prepare A row

/-! One column. -/

section
variable [IsStrictOrderedRing K] {row : Nat} {A : Buffer K} {p m : Fin row}

/-- The largest entry of a column from the row next to the diagonal on. -/
structure LargestOf (A : Buffer K) (p m i : Fin row) (pivot : PreparePivot K) : Prop where
  index : pivot.i = i
  behind : m ≤ i
  entry : pivot.x = A.matrix row i p
  largest : ∀ r, m ≤ r → |A.matrix row r p| ≤ |pivot.x|

theorem prepareSearch_loop (rows : row ≤ 46340) (room : row * row ≤ A.size) (next : (p : Nat) + 1 = m) :
    Returns ((upTo m row).foldlM (prepareSearch row m A) ⟨0, m⟩) fun pivot =>
      ∃ i, LargestOf A p m i pivot := by
  have loop : Returns ((upTo m row).foldlM (prepareSearch row m A) ⟨0, m⟩) fun pivot =>
      (∃ i : Fin row, pivot.i = i ∧ m ≤ i ∧ (pivot.x = A.matrix row i p ∨ pivot.x = 0 ∧ i = m)) ∧
        ∀ r : Fin row, m ≤ r → (r : Nat) < row → |A.matrix row r p| ≤ |pivot.x| := by
    refine Returns.loop (fun j (pivot : PreparePivot K) =>
      (∃ i : Fin row, pivot.i = i ∧ m ≤ i ∧ (pivot.x = A.matrix row i p ∨ pivot.x = 0 ∧ i = m)) ∧
        ∀ r : Fin row, m ≤ r → (r : Nat) < j → |A.matrix row r p| ≤ |pivot.x|) m.isLt.le
          ⟨⟨m, rfl, le_rfl, Or.inr ⟨rfl, rfl⟩⟩, fun r behind before => ?_⟩ ?_
    · exact absurd before (Nat.not_lt.mpr behind)
    · rintro j pivot since below ⟨found, largest⟩
      rw [prepareSearch, Nat.sub_eq_of_eq_add next.symm]
      apply Returns.known (Buffer.readFrom_flat rows room below p.isLt)
      have here : A.cells (row * j + p) = A.matrix row ⟨j, below⟩ p := rfl
      rw [here]
      split
      case isTrue larger =>
        refine Returns.done ⟨⟨⟨j, below⟩, rfl, since, Or.inl rfl⟩, fun r behind before => ?_⟩
        rcases Nat.lt_succ_iff_lt_or_eq.mp before with before | same
        · exact (largest r behind before).trans larger.le
        · obtain rfl : r = ⟨j, below⟩ := Fin.ext same
          exact le_rfl
      case isFalse smaller =>
        refine Returns.done ⟨found, fun r behind before => ?_⟩
        rcases Nat.lt_succ_iff_lt_or_eq.mp before with before | same
        · exact largest r behind before
        · obtain rfl : r = ⟨j, below⟩ := Fin.ext same
          exact not_lt.mp smaller
  refine loop.weaken fun pivot ⟨⟨i, at_i, behind, x⟩, largest⟩ => ?_
  refine ⟨i, at_i, behind, ?_, fun r behind => largest r behind r.isLt⟩
  rcases x with x | ⟨zero, rfl⟩
  · exact x
  · have none := largest i le_rfl i.isLt
    rw [zero, abs_zero, abs_nonpos_iff] at none
    rw [zero, none]

omit [IsStrictOrderedRing K] [LinearOrder K] [Field K] in
theorem prepareSwapRows_loop (rows : row ≤ 46340) (room : row * row ≤ A.size) (p i m : Fin row) :
    Returns ((upTo p row).foldlM (prepareSwapRows row i m) A) fun A' => A'.size = A.size ∧
      ∀ r c : Fin row, A'.matrix row r c =
        if (p : Nat) ≤ c then A.matrix row (Equiv.swap i m r) c else A.matrix row r c := by
  refine columns_loop (fun r c => A.matrix row (Equiv.swap i m r) c) p.isLt.le fun j _ A' size old => ?_
  rw [← size] at room ⊢
  have entry : A'.cells (row * i + j) = A.matrix row i j := old i
  have entry' : A'.cells (row * m + j) = A.matrix row m j := old m
  apply Returns.known (Buffer.readFrom_flat rows room i.isLt j.isLt)
  apply Returns.known (Buffer.readFrom_flat rows room m.isLt j.isLt)
  apply Returns.known (Buffer.writeFrom_flat rows room i.isLt j.isLt _)
  have room' (item : K) : row * row ≤ (A'.set (row * i + j) item).size := room
  refine ⟨_, Buffer.writeFrom_flat rows (room' _) m.isLt j.isLt _, rfl, fun r q => ?_⟩
  rw [entry, entry']
  change (Buffer.set _ _ _).entry row r q = _
  rw [Buffer.entry_set j.isLt q.isLt, Buffer.entry_set j.isLt q.isLt, Equiv.swap_apply_def]
  simp only [← Fin.ext_iff]
  by_cases here : q = j
  · subst here
    have same (r : Fin row) : A'.entry row r q = A.matrix row r q := old r
    simp only [and_true, if_true, same]
    split_ifs with at_m at_i
    · rw [← at_i, at_m]
    · rfl
    · rfl
    · rfl
  · simp only [here, and_false, if_false]
    rfl

omit [IsStrictOrderedRing K] [LinearOrder K] [Field K] in
theorem prepareSwapColumns_loop (rows : row ≤ 46340) (room : row * row ≤ A.size) (i m : Fin row) :
    Returns ((upTo 0 row).foldlM (prepareSwapColumns row i m) A) fun A' => A'.size = A.size ∧
      A'.matrix row = fun r c => A.matrix row r (Equiv.swap i m c) := by
  refine rows_loop _ fun j A' size old => ?_
  rw [← size] at room ⊢
  have entry : A'.cells (row * j + i) = A.matrix row j i := old i
  have entry' : A'.cells (row * j + m) = A.matrix row j m := old m
  apply Returns.known (Buffer.readFrom_flat rows room j.isLt i.isLt)
  apply Returns.known (Buffer.readFrom_flat rows room j.isLt m.isLt)
  apply Returns.known (Buffer.writeFrom_flat rows room j.isLt i.isLt _)
  have room' (item : K) : row * row ≤ (A'.set (row * j + i) item).size := room
  refine ⟨_, Buffer.writeFrom_flat rows (room' _) j.isLt m.isLt _, rfl, fun r q => ?_⟩
  rw [entry, entry']
  change (Buffer.set _ _ _).entry row r q = _
  rw [Buffer.entry_set m.isLt q.isLt, Buffer.entry_set i.isLt q.isLt, Equiv.swap_apply_def]
  simp only [← Fin.ext_iff]
  by_cases here : r = j
  · subst here
    have same (q : Fin row) : A'.entry row r q = A.matrix row r q := old q
    simp only [true_and, if_true, same]
    split_ifs with at_m at_i
    · rw [← at_i, at_m]
    · rfl
    · rfl
    · rfl
  · simp only [here, false_and, if_false]
    rfl

omit [IsStrictOrderedRing K] [LinearOrder K] [Field K] in
/-- Two rows change places from a column on, and then the columns of the same numbers. -/
theorem prepareSwap_returns (rows : row ≤ 46340) (room : row * row ≤ A.size)
    (next : (p : Nat) + 1 = m) (i : Fin row) :
    Returns (prepareSwap row i m A) fun A' => A'.size = A.size ∧ ∀ r c, A'.matrix row r c =
      A.matrix row (if (p : Nat) ≤ (Equiv.swap i m c : Fin row) then Equiv.swap i m r else r)
        (Equiv.swap i m c) := by
  rw [prepareSwap]
  split
  case isTrue same =>
    obtain rfl : i = m := Fin.ext same
    refine Returns.done ⟨rfl, fun r c => ?_⟩
    rw [Equiv.swap_self, Equiv.refl_apply, Equiv.refl_apply, ite_self]
  case isFalse apart =>
    have start : (m : Nat) - 1 = p := by omega
    rw [start]
    refine Returns.next (prepareSwapRows_loop rows room p i m) fun A' _ ⟨size, entries⟩ => ?_
    refine (prepareSwapColumns_loop rows (size.symm ▸ room) i m).weaken fun A'' ⟨size', entries'⟩ => ?_
    refine ⟨size'.trans size, fun r c => ?_⟩
    rw [congrFun (congrFun entries' r) c, entries]
    split <;> rfl

omit [IsStrictOrderedRing K] [LinearOrder K] in
/-- A multiple of row `m` is taken from another row, from column `m` on. -/
theorem prepareRow_loop (rows : row ≤ 46340) (room : row * row ≤ A.size) (i m : Fin row) (y : K) :
    Returns ((upTo m row).foldlM (prepareRow row i m y) A) fun A' => A'.size = A.size ∧
      ∀ r c : Fin row, A'.matrix row r c = if (m : Nat) ≤ c then
        if r = i then A.matrix row r c - y * A.matrix row m c else A.matrix row r c
          else A.matrix row r c := by
  refine (columns_entry_loop m.isLt.le i (fun q => A.matrix row i q - y * A.matrix row m q)
    fun j A' size old => ?_).weaken fun A' ⟨size, entries⟩ => ⟨size, fun r c => ?_⟩
  · rw [← size] at room
    have entry : A'.cells (row * i + j) = A.matrix row i j := old i
    have entry' : A'.cells (row * m + j) = A.matrix row m j := old m
    rw [prepareRow, Buffer.readFrom_flat rows room i.isLt j.isLt,
      Buffer.readFrom_flat rows room m.isLt j.isLt, entry, entry']
    exact Buffer.writeFrom_flat rows room i.isLt j.isLt _
  · rw [entries]
    split_ifs with behind at_i
    · rw [at_i]
    · rfl
    · rfl

omit [IsStrictOrderedRing K] [LinearOrder K] in
/-- The other column is added back. -/
theorem prepareColumn_loop (rows : row ≤ 46340) (room : row * row ≤ A.size) (i m : Fin row) (y : K) :
    Returns ((upTo 0 row).foldlM (prepareColumn row i m y) A) fun A' => A'.size = A.size ∧
      A'.matrix row = fun r c => A.matrix row r c + if c = m then y * A.matrix row r i else 0 := by
  refine (rows_entry_loop m (fun r => A.matrix row r m + y * A.matrix row r i)
    fun j A' size old => ?_).weaken fun A' ⟨size, entries⟩ => ⟨size, entries.trans ?_⟩
  · rw [← size] at room
    have entry : A'.cells (row * j + m) = A.matrix row j m := old m
    have entry' : A'.cells (row * j + i) = A.matrix row j i := old i
    rw [prepareColumn, Buffer.readFrom_flat rows room j.isLt m.isLt,
      Buffer.readFrom_flat rows room j.isLt i.isLt, entry, entry']
    exact Buffer.writeFrom_flat rows room j.isLt m.isLt _
  · funext r c
    split
    case isTrue at_m => rw [at_m]
    case isFalse other => rw [add_zero]

/-- The row of a step has its multiplier in place. -/
structure Eliminated (p i : Fin row) (x : K) (A A' : Buffer K) : Prop where
  size : A'.size = A.size
  similar : SimilarTo (clearedTo p i (A.matrix row)) (clearedTo p (i + 1) (A'.matrix row))
  multiplier : A'.matrix row i p = A.matrix row i p / x
  kept : ∀ r c : Fin row, c ≤ p → ¬ (r = i ∧ c = p) → A'.matrix row r c = A.matrix row r c

omit [IsStrictOrderedRing K] in
theorem prepareEliminate_returns (rows : row ≤ 46340) (room : row * row ≤ A.size)
    (next : (p : Nat) + 1 = m) {i : Fin row} (behind : m < i) (nonzero : A.matrix row m p ≠ 0) :
    Returns (prepareEliminate row m (A.matrix row m p) A i) (Eliminated p i (A.matrix row m p) A) := by
  rw [prepareEliminate, Nat.sub_eq_of_eq_add next.symm]
  apply Returns.known (Buffer.readFrom_flat rows room i.isLt p.isLt)
  have here : A.cells (row * i + p) = A.matrix row i p := rfl
  rw [here]
  split
  case isTrue zero =>
    -- the step with a multiplier of zero
    refine Returns.done ⟨rfl, ?_, by rw [zero, zero_div], fun r c _ _ => rfl⟩
    rw [clearedTo_eliminated (y := 0) next behind (by rw [zero, zero_mul]) (fun r c _ _ => rfl)]
    · exact SimilarTo.eliminated _ behind.ne' 0
    · intro r c _
      simp only [zero_mul, sub_zero, ite_self, add_zero]
  case isFalse other =>
    apply Returns.known (quotient_nonzero nonzero _)
    apply Returns.known (Buffer.writeFrom_flat rows room i.isLt p.isLt _)
    set y := A.matrix row i p / A.matrix row m p
    have written (r c : Fin row) : (A.set (row * i + p) y).matrix row r c =
        if r = i ∧ c = p then y else A.matrix row r c := by
      refine (Buffer.entry_set p.isLt c.isLt y).trans ?_
      simp only [← Fin.ext_iff]
      rfl
    have room' : row * row ≤ (A.set (row * i + p) y).size := room
    refine Returns.next (prepareRow_loop rows room' i m y) fun A' _ ⟨size, across⟩ => ?_
    refine (prepareColumn_loop rows (size.symm ▸ room') i m y).weaken fun A'' ⟨size', columns⟩ => ?_
    -- up to the column of the multiplier the loops have left all as it was written
    have left (r c : Fin row) (before : c ≤ p) :
        A''.matrix row r c = (A.set (row * i + p) y).matrix row r c := by
      rw [Fin.le_def] at before
      have apart : c ≠ m := by
        rintro rfl
        omega
      rw [congrFun (congrFun columns r) c, if_neg apart, add_zero, across, if_neg (by omega)]
    have right (r c : Fin row) (after : p < c) : A'.matrix row r c =
        if r = i then A.matrix row r c - y * A.matrix row m c else A.matrix row r c := by
      have elsewhere (r : Fin row) : (A.set (row * i + p) y).matrix row r c = A.matrix row r c := by
        rw [written, if_neg fun both => after.ne' both.2]
      rw [Fin.lt_def] at after
      rw [across, if_pos (by omega), elsewhere, elsewhere]
    have kept (r c : Fin row) (before : c ≤ p) (elsewhere : ¬ (r = i ∧ c = p)) :
        A''.matrix row r c = A.matrix row r c := by
      rw [left r c before, written, if_neg elsewhere]
    refine ⟨size'.trans size, ?_, ?_, kept⟩
    · rw [clearedTo_eliminated next behind (div_mul_cancel₀ _ nonzero).symm kept]
      · exact SimilarTo.eliminated _ behind.ne' y
      · intro r c after
        have start : p < i := by
          rw [Fin.lt_def] at behind ⊢
          omega
        rw [congrFun (congrFun columns r) c, right r c after, right r i start]
    · rw [left i p le_rfl, written, if_pos ⟨rfl, rfl⟩]

end

/-! Stages. -/

section
variable [IsStrictOrderedRing K] {row t i : Nat} {A : Buffer K} {start : Matrix (Fin row) (Fin row) K}

/-- The entries cleared so far are left out, and their cells keep multipliers. -/
structure PreparedTo (start : Matrix (Fin row) (Fin row) K) (t i : Nat) (A : Buffer K) : Prop where
  similar : SimilarTo start (clearedTo t i (A.matrix row))
  small : ∀ r c : Fin row, Emptied t i r c → |A.matrix row r c| ≤ 1

omit [IsStrictOrderedRing K] in
theorem PreparedTo.congr {t' i' : Nat} (prepared : PreparedTo start t i A)
    (same : ∀ r c : Fin row, Emptied t i r c ↔ Emptied t' i' r c) : PreparedTo start t' i' A where
  similar := by
    rw [← clearedTo_congr same]
    exact prepared.similar
  small r c below := prepared.small r c ((same r c).mpr below)

variable {p m : Fin row}

omit [IsStrictOrderedRing K] in
/-- Rows and columns behind the entry next to the diagonal change places. -/
theorem PreparedTo.exchange {i : Fin row} {A' : Buffer K} (prepared : PreparedTo start p 0 A)
    (next : (p : Nat) + 1 = m) (behind : m ≤ i) (entries : ∀ r c, A'.matrix row r c =
      A.matrix row (if (p : Nat) ≤ (Equiv.swap i m c : Fin row) then Equiv.swap i m r else r)
        (Equiv.swap i m c)) : PreparedTo start p 0 A' := by
  rw [Fin.le_def] at behind
  constructor
  · rw [clearedTo_exchanged (by omega) (by omega) entries]
    exact prepared.similar.trans (SimilarTo.submatrix _ _)
  · intro r c below
    have earlier : (c : Nat) < p := by
      rw [Emptied] at below
      omega
    have still : Equiv.swap i m c = c := swap_early (t := p) (by omega) (by omega) earlier.le
    rw [entries, still, if_neg (Nat.not_le.mpr earlier)]
    exact prepared.small r c below

theorem PreparedTo.eliminate {i : Fin row} {A' : Buffer K} {x : K} (prepared : PreparedTo start p i A)
    (eliminated : Eliminated p i x A A') (largest : |A.matrix row i p| ≤ |x|) :
    PreparedTo start p (i + 1) A' := by
  refine ⟨prepared.similar.trans eliminated.similar, fun r c below => ?_⟩
  by_cases here : r = i ∧ c = p
  · rw [here.1, here.2, eliminated.multiplier, abs_div]
    exact div_le_one_of_le₀ largest (abs_nonneg x)
  · have before : c ≤ p := by
      rw [Emptied] at below
      rw [Fin.le_def]
      omega
    rw [eliminated.kept r c before here]
    apply prepared.small r c
    rw [Fin.ext_iff, Fin.ext_iff] at here
    rw [Emptied] at below ⊢
    omega

/-- The rows behind row `m` are cleared one after the other; their entries of the column have not
changed before. -/
theorem prepareEliminate_loop {x : K} (rows : row ≤ 46340) (room : row * row ≤ A.size)
    (next : (p : Nat) + 1 = m) (nonzero : x ≠ 0) (prepared : PreparedTo start p 0 A)
    (pivot : A.matrix row m p = x) (largest : ∀ r, m ≤ r → |A.matrix row r p| ≤ |x|) :
    Returns ((upTo (m + 1) row).foldlM (prepareEliminate row m x) A) fun A' =>
      A'.size = A.size ∧ PreparedTo start (p + 1) 0 A' := by
  have loop : Returns ((upTo (m + 1) row).foldlM (prepareEliminate row m x) A) fun A' =>
      A'.size = A.size ∧ PreparedTo start p row A' ∧ A'.matrix row m p = x ∧
        ∀ r : Fin row, row ≤ (r : Nat) → |A'.matrix row r p| ≤ |x| := by
    refine Returns.loop (fun i (A' : Buffer K) => A'.size = A.size ∧ PreparedTo start p i A' ∧
      A'.matrix row m p = x ∧ ∀ r : Fin row, i ≤ r → |A'.matrix row r p| ≤ |x|) m.isLt
        ⟨rfl, prepared.congr fun r c => by rw [Emptied, Emptied]; omega, pivot, fun r later => ?_⟩ ?_
    · exact largest r (Fin.le_def.mpr (by omega))
    · rintro i A' since below ⟨size, prepared', pivot', largest'⟩
      have nonzero' : A'.matrix row m p ≠ 0 := pivot'.symm ▸ nonzero
      have step := prepareEliminate_returns rows (size.symm ▸ room) next (i := ⟨i, below⟩) since nonzero'
      rw [pivot'] at step
      refine step.weaken fun A'' eliminated => ?_
      have untouched (r : Fin row) (other : r ≠ ⟨i, below⟩) : A''.matrix row r p = A'.matrix row r p :=
        eliminated.kept r p le_rfl fun both => other both.1
      refine ⟨eliminated.size.trans size, ?_, ?_, fun r later => ?_⟩
      · exact prepared'.eliminate eliminated (largest' ⟨i, below⟩ le_rfl)
      · rw [untouched m fun same => by rw [same] at since; exact Nat.lt_irrefl _ since, pivot']
      · rw [untouched r fun same => by rw [same] at later; exact Nat.lt_irrefl _ later]
        exact largest' r (by omega)
  refine loop.weaken fun A' reached => ?_
  obtain ⟨size, prepared', -⟩ := reached
  refine ⟨size, prepared'.congr fun r c => ?_⟩
  rw [Emptied, Emptied]
  omega

theorem prepareStage_returns (rows : row ≤ 46340) (room : row * row ≤ A.size)
    (next : (p : Nat) + 1 = m) (prepared : PreparedTo start p 0 A) : Returns (prepareStage row A m) fun A' =>
      A'.size = A.size ∧ PreparedTo start (p + 1) 0 A' := by
  refine Returns.next (prepareSearch_loop rows room next) fun pivot _ searched => ?_
  obtain ⟨i, found⟩ := searched
  rw [found.index]
  refine Returns.next (prepareSwap_returns rows room next i) fun A' _ swapped => ?_
  obtain ⟨size, entries⟩ := swapped
  have exchanged := prepared.exchange next found.behind entries
  have behind := found.behind
  rw [Fin.le_def] at behind
  -- the exchange brings the entry that was found next to the diagonal, and moves no other column
  have column (r : Fin row) : A'.matrix row r p = A.matrix row (Equiv.swap i m r) p := by
    have still : Equiv.swap i m p = p := swap_early (t := p) (by omega) (by omega) le_rfl
    rw [entries, still, if_pos le_rfl]
  have x : A'.matrix row m p = pivot.x := by
    rw [column, Equiv.swap_apply_right, found.entry]
  have largest (r : Fin row) (later : m ≤ r) : |A'.matrix row r p| ≤ |pivot.x| := by
    rw [column]
    apply found.largest
    rw [Equiv.swap_apply_def]
    split_ifs
    · exact le_rfl
    · exact found.behind
    · exact later
  split
  case isTrue zero =>
    -- all of the column is zero already
    have zeros (r : Fin row) (later : (p : Nat) + 1 < r) : A'.matrix row r p = 0 := by
      have none := largest r (by rw [Fin.le_def]; omega)
      rwa [zero, abs_zero, abs_nonpos_iff] at none
    refine Returns.done ⟨size, ?_, fun r c below => ?_⟩
    · rw [clearedTo_zeros zeros]
      exact exchanged.similar
    · by_cases here : c = p
      · rw [here, zeros r (by rw [Emptied, here] at below; omega), abs_zero]
        exact zero_le_one
      · apply exchanged.small r c
        rw [Fin.ext_iff] at here
        rw [Emptied] at below ⊢
        omega
  case isFalse nonzero =>
    refine (prepareEliminate_loop rows (size.symm ▸ room) next nonzero exchanged x largest).weaken
      fun A'' reached => ?_
    exact ⟨reached.1.trans size, reached.2⟩

/-- The matrix that is left above and next to the diagonal, and the multipliers below. -/
structure Prepared (row : Nat) (A A' : Buffer K) : Prop where
  size : A'.size = A.size
  similar : SimilarTo (A.matrix row) (hessenberg (A'.matrix row))
  small : ∀ r c : Fin row, (c : Nat) + 1 < r → |A'.matrix row r c| ≤ 1

theorem prepare_prepared (rows : row ≤ 46340) (room : row * row ≤ A.size) :
    Returns (prepare A row) (Prepared row A) := by
  have start : PreparedTo (A.matrix row) 0 0 A := by
    constructor
    · rw [clearedTo_start]
      exact SimilarTo.refl _
    · intro r c below
      rw [Emptied] at below
      omega
  have done {A' : Buffer K} (size : A'.size = A.size) {t : Nat} (last : row ≤ t + 1)
      (prepared : PreparedTo (A.matrix row) t 0 A') : Prepared row A A' := by
    refine ⟨size, ?_, fun r c below => prepared.small r c ?_⟩
    · rw [← clearedTo_last last]
      exact prepared.similar
    · rw [Emptied]
      omega
  rcases Nat.eq_zero_or_pos row with rfl | positive
  · exact Returns.done (done rfl (Nat.zero_le 1) start)
  · have loop : Returns (prepare A row) fun A' => A'.size = A.size ∧
        PreparedTo (A.matrix row) (row - 1) 0 A' := by
      refine Returns.loop (fun m (A' : Buffer K) => A'.size = A.size ∧
        PreparedTo (A.matrix row) (m - 1) 0 A') positive ⟨rfl, start⟩ ?_
      rintro m A' since below ⟨size, prepared⟩
      have step := prepareStage_returns (p := ⟨m - 1, by omega⟩) (m := ⟨m, below⟩) rows
        (size.symm ▸ room) (Nat.sub_add_cancel since) prepared
      refine step.weaken fun A'' reached => ?_
      obtain ⟨size', prepared'⟩ := reached
      refine ⟨size'.trans size, ?_⟩
      simpa only [Nat.sub_add_cancel since, Nat.add_sub_cancel] using prepared'
    refine loop.weaken fun A' reached => ?_
    exact done reached.1 (by omega) reached.2

end

/-- What the QR algorithm starts with. The entries from those next to the diagonal on have the
eigenvalues of the matrix of the call, whatever is below them; all that is below is at most one. -/
theorem eig_prepared {row : Nat} {AA : Buffer ℝ} (rows : row ≤ 46340) (room : row * row ≤ AA.size) :
    ∃ fuel A,
    (∀ more, fuel ≤ more → smlsMatEigPrepared more AA row = some A) ∧
    (hessenberg (A.matrix row)).charpoly = (AA.matrix row).charpoly ∧
    ∀ r c : Fin row, (c : Nat) + 1 < r → |A.matrix row r c| ≤ 1 := by
  let copied : Buffer ℝ := ⟨row * row, fun k => if k < row * row then AA.cells k else 0⟩
  have taken : (⟨row * row, fun _ => 0⟩ : Buffer ℝ).copy AA (row * row) = some copied :=
    Buffer.copy_whole AA _ _ room
  have same : copied.matrix row = AA.matrix row := by
    ext r c
    exact if_pos (flat_lt r.isLt c.isLt)
  have settles : Settles (fun fuel => smlsMatEigPrepared fuel AA row) fun A =>
      ∃ balanced, BalancedFrom row copied balanced ∧ Prepared row balanced A := by
    have small := asInt_small (square_small rows)
    refine Settles.next (Settles.returns ⟨row * row, small, rfl⟩) fun _ same => ?_
    subst same
    refine Settles.next (Settles.returns ⟨copied, taken, rfl⟩) fun _ same => ?_
    subst same
    refine Settles.next (smlsMatBalance_settles rows le_rfl) fun balanced settled => ?_
    refine Settles.returns ((prepare_prepared rows (settled.size.symm ▸ le_rfl)).weaken fun A prepared => ?_)
    exact ⟨balanced, settled, prepared⟩
  obtain ⟨fuel, A, ⟨balanced, settled, prepared⟩, ran⟩ := settles
  obtain ⟨k, scaled⟩ := settled.scaled
  refine ⟨fuel, A, ran, ?_, prepared.small⟩
  calc (hessenberg (A.matrix row)).charpoly = (balanced.matrix row).charpoly := prepared.similar.charpoly
    _ = (AA.matrix row).charpoly := by rw [scaled, charpoly_scaledBy, same]

theorem eig_prepared_counted : ∃ fuel A,
    smlsMatEigPrepared fuel (⟨9, fun k => k⟩ : Buffer ℝ) 3 = some A ∧
    (hessenberg (A.matrix 3)).charpoly = ((⟨9, fun k => k⟩ : Buffer ℝ).matrix 3).charpoly ∧
    |A.matrix 3 2 0| ≤ 1 := by
  obtain ⟨fuel, A, ran, same, small⟩ := @eig_prepared 3 (⟨9, fun k => k⟩ : Buffer ℝ) (by decide) le_rfl
  exact ⟨fuel, A, ran fuel le_rfl, same, small 2 0 (by decide)⟩

end Simuless.Linalg
