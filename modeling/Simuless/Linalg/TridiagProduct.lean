import Simuless.Foundation.Bulge
import Simuless.Linalg.Tridiag

/-! The product of the reflections.

The second half of the call multiplies the reflections from the first one up.
The block in front of a row holds their product so far, and the row with its
column still what the reflection of this row is made of.
-/

set_option autoImplicit false

namespace Simuless.Linalg

open Foundation
open scoped Matrix

/-! The loops. -/

section
variable {row i : Nat} {a : Buffer ℝ} (rows : row ≤ 46340)
include rows

theorem tridiagColumn_loop (room : row * row ≤ a.size) (inside : i < row) :
    Returns ((upTo 0 i).foldlM (tridiagColumn row i) a) fun a' => a'.size = a.size ∧
      ∀ t, ∀ q < row, a'.entry row t q = if t < i ∧ q < i then a.entry row t q -
        (∑ k ∈ Finset.range i, a.entry row i k * a.entry row k q) * a.entry row t i
          else a.entry row t q := by
  let value (t q : Nat) : ℝ := a.entry row t q -
    (∑ k ∈ Finset.range i, a.entry row i k * a.entry row k q) * a.entry row t i
  refine Returns.loop (fun j (a' : Buffer ℝ) => a'.size = a.size ∧ ∀ t, ∀ q < row,
    a'.entry row t q = if t < i ∧ q < j then value t q else a.entry row t q) (Nat.zero_le i)
      ⟨rfl, fun t q _ => (if_neg (by omega)).symm⟩ ?_
  rintro j a' - below ⟨size, entries⟩
  have roomA' : row * row ≤ a'.size := size.symm ▸ room
  have summed : Returns ((upTo 0 i).foldlM (tridiagSum row i j a') 0) fun g =>
      g = 0 + ∑ k ∈ Finset.Ico 0 i, a.entry row i k * a.entry row k j := by
    refine sum_loop (Nat.zero_le i) _ 0 fun k s _ before => ?_
    have first : a'.readFrom (row * i) k = some (a.entry row i k) := by
      rw [Buffer.readFrom_flat rows roomA' inside (by omega)]
      exact congrArg some ((entries i k (by omega)).trans (if_neg (by omega)))
    have second : a'.readFrom (row * k) j = some (a.entry row k j) := by
      rw [Buffer.readFrom_flat rows roomA' (by omega) (by omega)]
      exact congrArg some ((entries k j (by omega)).trans (if_neg (by omega)))
    rw [tridiagSum, first, second]
    rfl
  refine Returns.next summed fun g _ same => ?_
  rw [zero_add, ← Finset.range_eq_Ico] at same
  have column : Returns ((upTo 0 i).foldlM (tridiagSubtract row i j g) a') fun a'' =>
      a''.size = a'.size ∧ ∀ t, ∀ q < row, a''.entry row t q =
        if q = j ∧ t < i then value t q else a'.entry row t q := by
    refine written_loop (fun k t q => q = j ∧ t < k) (fun k => k) (fun _ => j) value (by omega) (by omega)
      (by omega) ?_
    intro k before b sizeB entriesB
    have roomB : row * row ≤ b.size := sizeB.symm ▸ roomA'
    have first : b.readFrom (row * k) i = some (a.entry row k i) := by
      rw [Buffer.readFrom_flat rows roomB (by omega) inside]
      exact congrArg some ((entriesB k i inside).trans ((if_neg (by omega)).trans
        ((entries k i inside).trans (if_neg (by omega)))))
    have second : b.readFrom (row * k) j = some (a.entry row k j) := by
      rw [Buffer.readFrom_flat rows roomB (by omega) (by omega)]
      exact congrArg some ((entriesB k j (by omega)).trans ((if_neg (by omega)).trans
        ((entries k j (by omega)).trans (if_neg (by omega)))))
    rw [tridiagSubtract, first, second, same]
    exact Buffer.writeFrom_flat rows roomB (by omega) (by omega) _
  refine column.weaken fun a'' ⟨size', entries'⟩ => ⟨size'.trans size, fun t q inRow => ?_⟩
  rw [entries' t q inRow, entries t q inRow]
  by_cases here : q = j ∧ t < i
  · rw [if_pos here, if_pos (by omega)]
  · rw [if_neg here]
    exact if_congr (by omega) rfl rfl

theorem tridiagClear_loop (room : row * row ≤ a.size) (inside : i < row) :
    Returns ((upTo 0 i).foldlM (tridiagClear row i) a) fun a' => a'.size = a.size ∧
      ∀ t, ∀ q < row, a'.entry row t q =
        if t = i ∧ q < i ∨ q = i ∧ t < i then 0 else a.entry row t q := by
  refine Returns.loop (fun j (a' : Buffer ℝ) => a'.size = a.size ∧ ∀ t, ∀ q < row,
    a'.entry row t q = if t = i ∧ q < j ∨ q = i ∧ t < j then 0 else a.entry row t q) (Nat.zero_le i)
      ⟨rfl, fun t q _ => (if_neg (by omega)).symm⟩ ?_
  rintro j a' - below ⟨size, entries⟩
  have roomA' : row * row ≤ a'.size := size.symm ▸ room
  apply Returns.known (Buffer.writeFrom_flat rows roomA' inside (by omega) _)
  have roomA'' : row * row ≤ (a'.set (row * i + j) 0).size := roomA'
  refine ⟨_, Buffer.writeFrom_flat rows roomA'' (by omega) inside _, size, fun t q inRow => ?_⟩
  rw [Buffer.entry_set inside inRow, Buffer.entry_set (by omega) inRow, entries t q inRow]
  by_cases column : t = j ∧ q = i
  · rw [if_pos column, if_pos (by omega)]
  · rw [if_neg column]
    by_cases line : t = i ∧ q = j
    · rw [if_pos line, if_pos (by omega)]
    · rw [if_neg line]
      exact if_congr (by omega) rfl rfl

end

/-! The second half. -/

section
variable {row i : Nat} {T : Matrix (Fin row) (Fin row) ℝ} {P : Nat → Matrix (Fin row) (Fin row) ℝ}
  {state : Tridiagonalising ℝ}

/-- The first reflections are multiplied, and the diagonal in front of this row has been put away. -/
structure AccumulatedTo (row : Nat) (T : Matrix (Fin row) (Fin row) ℝ)
    (P : Nat → Matrix (Fin row) (Fin row) ℝ) (i : Nat) (state : Tridiagonalising ℝ) : Prop where
  room : TridiagRoom row state
  block : ∀ r c : Fin row, (r : Nat) < i → (c : Nat) < i → state.a.entry row r c = productDown P 0 i r c
  diagonal : ∀ r : Fin row, i ≤ r → state.a.entry row r r = T r r
  stored : ∀ p, i ≤ p → p < row → StoredAt row state.a state.d p (P p)
  d : ∀ r : Fin row, (r : Nat) < i → state.d.cells r = T r r

/-- The block times the reflection that is stored behind it. -/
theorem AccumulatedTo.multiplied (part : AccumulatedTo row T P i state) (inside : i < row) :
    Returns (tridiagMultiply row i (state.d.cells i) state.a) fun a => a.size = state.a.size ∧
      (∀ r c : Fin row, (r : Nat) < i → (c : Nat) < i →
        a.entry row r c = productDown P 0 (i + 1) r c) ∧
      ∀ t, ∀ q < row, i ≤ t ∨ i ≤ q → a.entry row t q = state.a.entry row t q := by
  rw [productDown, Nat.zero_add, tridiagMultiply]
  rcases part.stored i le_rfl inside with ⟨zero, idle⟩ | ⟨u, h, same, large, kept, -, mirrored⟩
  · rw [zero, abs_zero, if_neg (not_lt.mpr fltEpsilon_pos.le), idle, Matrix.one_mul]
    exact Returns.done ⟨rfl, part.block, fun _ _ _ _ => rfl⟩
  · rw [same, if_pos (large.trans_le (le_abs_self h)), mirrored]
    refine (tridiagColumn_loop part.room.rows part.room.a inside).weaken fun a multiplied => ?_
    obtain ⟨size, entries⟩ := multiplied
    refine ⟨size, fun r c first second => ?_, fun t q inRow outside =>
      (entries t q inRow).trans (if_neg (by omega))⟩
    rw [entries r c c.isLt, if_pos ⟨first, second⟩, mirror_mul_apply, part.block r c first second,
      (kept r first).2, firstOf, if_pos first]
    have sums : (∑ k ∈ Finset.range i, state.a.entry row i k * state.a.entry row k c) =
        ((productDown P 0 i)ᵀ *ᵥ firstOf row i u) c := by
      rw [← sum_before (n := row) inside.le fun k => state.a.entry row i k * state.a.entry row k c,
        Matrix.mulVec, dotProduct]
      apply Finset.sum_congr rfl
      intro k _
      rw [firstOf, mul_ite, mul_zero]
      refine ite_congr rfl (fun before => ?_) fun _ => rfl
      rw [(kept k before).1, part.block k c before second, Matrix.transpose_apply, mul_comm]
    rw [sums]
    ring

theorem AccumulatedTo.turn (part : AccumulatedTo row T P i state) (inside : i < row)
    (leaves : ∀ p < row, LeavesFrom p (P p)) : Returns (tridiagAccumulate row state i) fun state' =>
      AccumulatedTo row T P (i + 1) state' ∧ state'.e = state.e := by
  apply Returns.known (state.d.read_inside (inside.trans_le part.room.d))
  refine Returns.next (part.multiplied inside) fun a _ ⟨size, block, frame⟩ => ?_
  have roomA : row * row ≤ a.size := size.symm ▸ part.room.a
  apply Returns.known (Buffer.readFrom_flat part.room.rows roomA inside inside)
  apply Returns.known (state.d.write_inside (inside.trans_le part.room.d) _)
  apply Returns.known (Buffer.writeFrom_flat part.room.rows roomA inside inside _)
  have aii : a.cells (row * i + i) = T ⟨i, inside⟩ ⟨i, inside⟩ :=
    (frame i i inside (Or.inl le_rfl)).trans (part.diagonal ⟨i, inside⟩ le_rfl)
  rw [aii]
  refine Returns.next (tridiagClear_loop (a := a.set (row * i + i) 1) part.room.rows roomA inside)
    fun a' _ ⟨size', entries⟩ => ?_
  have entries' (t q : Nat) (inRow : q < row) : a'.entry row t q =
      if t = i ∧ q < i ∨ q = i ∧ t < i then 0 else if t = i ∧ q = i then 1 else a.entry row t q := by
    rw [entries t q inRow, Buffer.entry_set inside inRow]
  have before : LeavesFrom i (productDown P 0 (i + 1)) := by
    rw [productDown, Nat.zero_add]
    exact (leaves i inside).mul (productDown_leaves fun p below => leaves p (below.trans inside))
  refine Returns.done ⟨⟨⟨part.room.rows, size'.symm ▸ roomA, part.room.d, part.room.e⟩,
    fun r c first second => ?_, fun r behind => ?_, fun p behind below => ?_, fun r first => ?_⟩, rfl⟩
  · rw [entries' r c c.isLt]
    by_cases inner : (r : Nat) < i ∧ (c : Nat) < i
    · rw [if_neg (by omega), if_neg (by omega)]
      exact block r c inner.1 inner.2
    · rw [before r c (by omega), Matrix.one_apply]
      by_cases same : r = c
      · subst same
        rw [if_pos rfl, if_neg (by omega), if_pos (by omega)]
      · rw [if_neg same, if_pos]
        have apart : (r : Nat) ≠ c := fun equal => same (Fin.ext equal)
        omega
  · rw [entries' r r r.isLt, if_neg (by omega), if_neg (by omega), frame r r r.isLt (by omega)]
    exact part.diagonal r (by omega)
  · refine (part.stored p (by omega) below).frame (Buffer.set_other _ (by omega) _) fun k before => ⟨?_, ?_⟩
    · rw [entries' p k (by omega), if_neg (by omega), if_neg (by omega)]
      exact frame p k (by omega) (by omega)
    · rw [entries' k p below, if_neg (by omega), if_neg (by omega)]
      exact frame k p below (by omega)
  · by_cases here : (r : Nat) = i
    · obtain rfl : r = ⟨i, inside⟩ := Fin.ext here
      exact Buffer.set_same _ _ _
    · exact (Buffer.set_other _ here _).trans (part.d r (by omega))

end

/-! The whole call. -/

section
variable {K : Type}

/-- The symmetric matrix with the lower half that is in the buffer. -/
def lowerMatrix (row : Nat) (a : Buffer K) : Matrix (Fin row) (Fin row) K :=
  Matrix.of fun r c => lowerEntry row a r c

/-- The symmetric matrix with this diagonal and these entries next to it. -/
def tridiagonalMatrix [CommRing K] (row : Nat) (d e : Buffer K) : Matrix (Fin row) (Fin row) K :=
  band row d.cells fun r => e.cells (r + 1)

end

section
variable {row : Nat} {state : Tridiagonalising ℝ}

theorem lowerMatrix_symmetric (a : Buffer ℝ) : (lowerMatrix row a)ᵀ = lowerMatrix row a := by
  ext r c
  rw [Matrix.transpose_apply, lowerMatrix, Matrix.of_apply, Matrix.of_apply, lowerEntry, lowerEntry]
  rcases lt_trichotomy (r : Nat) c with before | same | behind
  · rw [if_pos before.le, if_neg (by omega)]
  · rw [if_pos same.le, if_pos same.ge, same]
  · rw [if_neg (by omega), if_pos behind.le]

/-- A symmetric matrix with two diagonals is given by their entries. -/
theorem tridiagonalMatrix_eq {T : Matrix (Fin row) (Fin row) ℝ} {d e : Buffer ℝ} (symmetric : Tᵀ = T)
    (tridiagonal : TridiagonalBehind 0 T) (diagonal : ∀ r : Fin row, d.cells r = T r r)
    (next : ∀ r c : Fin row, (c : Nat) + 1 = r → e.cells r = T r c) :
    T = tridiagonalMatrix row d e := by
  have below (r c : Fin row) (before : (c : Nat) < r) :
      T r c = if (c : Nat) + 1 = r then e.cells r else 0 := by
    split
    case isTrue same => exact (next r c same).symm
    case isFalse apart => exact tridiagonal r c (by omega) (by omega)
  ext r c
  rw [tridiagonalMatrix, band, bulged, Matrix.of_apply, ite_self]
  rcases lt_trichotomy (r : Nat) c with before | same | behind
  · rw [if_neg before.ne, if_neg (by omega), ← symmetric, Matrix.transpose_apply, below c r before]
    exact ite_congr rfl (fun next => by rw [next]) fun _ => rfl
  · rw [if_pos same, diagonal, Fin.ext same]
  · rw [if_neg behind.ne', below r c behind]
    refine ite_congr rfl (fun next => by rw [next]) fun _ => ?_
    rw [if_neg (by omega)]

/-- The symmetric matrix with the lower half that was given is in tridiagonal form. -/
structure Tridiagonalised (row : Nat) (state state' : Tridiagonalising ℝ) : Prop where
  room : TridiagRoom row state'
  orthogonal : (state'.a.matrix row)ᵀ * state'.a.matrix row = 1
  product : lowerMatrix row state.a =
    state'.a.matrix row * tridiagonalMatrix row state'.d state'.e * (state'.a.matrix row)ᵀ

theorem tridiag_brings (room : TridiagRoom row state) (positive : 0 < row) :
    Returns (tridiag Real.sqrt row state) (Tridiagonalised row state) := by
  have reduced : Returns ((downFrom (row - 1)).foldlM (tridiagTurn Real.sqrt row) state) fun state' =>
      ∃ M P, TridiagTo row (lowerMatrix row state.a) 0 M P state' := by
    refine Returns.loop_down (fun i state' => i < row ∧
      ∃ M P, TridiagTo row (lowerMatrix row state.a) i M P state')
      ⟨by omega, lowerMatrix row state.a, fun _ => 1, ?_⟩ ?_ |>.weaken fun _ result => result.2
    · refine ⟨room, lowerMatrix_symmetric _, fun r c order _ => ?_, fun r behind => ?_,
        fun r c behind => ?_, fun r c behind => ?_, fun p behind below => ?_, ?_⟩
      · exact (if_pos order).symm
      · omega
      · omega
      · omega
      · omega
      · have nothing : row - (row - 1 + 1) = 0 := by omega
        rw [nothing, productDown, Matrix.transpose_one, Matrix.one_mul, Matrix.mul_one]
    · rintro l state' below ⟨inside, M, P, part⟩
      exact (part.turn inside).weaken fun _ result => ⟨by omega, result⟩
  refine Returns.next reduced fun state₁ _ result => ?_
  obtain ⟨T, P, part⟩ := result
  apply Returns.known (state₁.d.write_inside (positive.trans_le part.room.d) _)
  apply Returns.known (state₁.e.write_inside (positive.trans_le part.room.e) _)
  have stored (p : Nat) (below : p < row) :
      StoredAt row state₁.a (state₁.d.set 0 0) p (Function.update P 0 1 p) := by
    by_cases first : p = 0
    · subst first
      exact Or.inl ⟨Buffer.set_same _ _ _, Function.update_self _ _ _⟩
    · rw [Function.update_of_ne first]
      exact (part.stored p (by omega) below).frame (Buffer.set_other _ first _) fun _ _ => ⟨rfl, rfl⟩
  have start : AccumulatedTo row T (Function.update P 0 1) 0
      { state₁ with d := state₁.d.set 0 0, e := state₁.e.set 0 0 } := by
    refine ⟨⟨part.room.rows, part.room.a, part.room.d, part.room.e⟩,
      fun r c first => absurd first (Nat.not_lt_zero r), ?_, fun p _ below => stored p below,
      fun r first => absurd first (Nat.not_lt_zero r)⟩
    intro r _
    rcases Nat.eq_zero_or_pos r with first | later
    · exact part.low r r le_rfl (by omega)
    · exact part.diagonal r later
  have leaves (p : Nat) (below : p < row) : LeavesFrom p (Function.update P 0 1 p) := (stored p below).leaves
  have turned := Returns.loop (fun i state' => AccumulatedTo row T (Function.update P 0 1) i state' ∧
    state'.e = state₁.e.set 0 0) (Nat.zero_le row) ⟨start, rfl⟩ fun i state' _ below part =>
      (part.1.turn below leaves).weaken fun _ further => ⟨further.1, further.2.trans part.2⟩
  refine turned.weaken fun state' result => ?_
  obtain ⟨done, same⟩ := result
  have product : state'.a.matrix row = productDown (Function.update P 0 1) 0 row := by
    ext r c
    exact done.block r c r.isLt c.isLt
  have form : T = tridiagonalMatrix row state'.d state'.e := by
    refine tridiagonalMatrix_eq part.symmetric part.tridiagonal (fun r => done.d r r.isLt)
      fun r c next => ?_
    rw [same, Buffer.set_other _ (by omega)]
    exact part.next r c (by omega) next
  refine ⟨done.room, ?_, ?_⟩
  · rw [product]
    exact productDown_orthogonal fun p _ below => (stored p (by omega)).orthogonal
  · rw [product, productDown_start positive, ← form]
    exact part.similar

/-- A call brings the matrix into tridiagonal form by an orthogonal matrix, which takes its place. -/
theorem tridiag_returns (positive : 0 < row) (rows : row ≤ 46340)
    (room : row * row ≤ state.a.size ∧ row ≤ state.d.size ∧ row ≤ state.e.size) : ∃ state',
      tridiag Real.sqrt row state = some state' ∧ (state'.a.matrix row)ᵀ * state'.a.matrix row = 1 ∧
        lowerMatrix row state.a =
          state'.a.matrix row * tridiagonalMatrix row state'.d state'.e * (state'.a.matrix row)ᵀ := by
  obtain ⟨state', called, brought⟩ := tridiag_brings ⟨rows, room.1, room.2.1, room.2.2⟩ positive
  exact ⟨state', called, brought.orthogonal, brought.product⟩

end

theorem tridiag_returns_ones : ∃ state' : Tridiagonalising ℝ,
    tridiag Real.sqrt 3 ⟨⟨9, fun _ => 1⟩, ⟨3, fun _ => 0⟩, ⟨3, fun _ => 0⟩⟩ = some state' ∧
    (state'.a.matrix 3)ᵀ * state'.a.matrix 3 = 1 ∧ Matrix.of (fun _ _ => 1) =
      state'.a.matrix 3 * tridiagonalMatrix 3 state'.d state'.e * (state'.a.matrix 3)ᵀ := by
  obtain ⟨state', called, orthogonal, product⟩ :=
    @tridiag_returns 3 ⟨⟨9, fun _ => 1⟩, ⟨3, fun _ => 0⟩, ⟨3, fun _ => 0⟩⟩ (by decide) (by decide)
      ⟨le_rfl, le_rfl, le_rfl⟩
  refine ⟨state', called, orthogonal, ?_⟩
  rw [← product]
  ext r c
  exact (ite_self _).symm

end Simuless.Linalg
