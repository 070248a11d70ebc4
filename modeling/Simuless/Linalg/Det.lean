import Simuless.Foundation.Displacement
import Simuless.Linalg.LinsolveLup

/-! Determinants from the factorisation.

The sign of the row permutation is taken from the number of rows that are not
in their own position.
-/

set_option autoImplicit false

namespace Simuless.Linalg

open Foundation
open Equiv (Perm)

variable {K : Type} [Field K] [LinearOrder K]

/-- `determinant *= LU[row * P[i] + i]`. -/
def detFactor (row : Nat) (factoring : Factoring K) (determinant : K) (i : Nat) : Option K := do
  let pivot ← factoring.read row i i
  return determinant * pivot

/-- `if (P[i] != i) ++j`. -/
def detDisplaced (P : Buffer UInt8) (j i : Nat) : Option Nat := do
  let p ← P.read i
  return if p.toNat ≠ i then j + 1 else j

def smlsMatDet (A : Buffer K) (row : Nat) : Option K := do
  let (ret, factoring) ← smlsMatLup (some A) ⟨row * row, fun _ => 0⟩ ⟨row, fun _ => 0⟩ row
  if ret ≠ 0 then return 0
  let determinant ← (upTo 0 row).foldlM (detFactor row factoring) 1
  let j ← (upTo 0 row).foldlM (detDisplaced factoring.P) 0
  return if j ≠ 0 ∧ (j - 1) % 2 = 1 then -determinant else determinant

/-! The loops. -/

section
variable {n : Nat} {factoring : Factoring K} (placed : factoring.Placed n)
include placed

omit [LinearOrder K] in
theorem detFactor_loop : Returns ((upTo 0 n).foldlM (detFactor n factoring) 1) fun determinant =>
    determinant = ∏ i : Fin n, factoring.entry n i i := by
  refine (Returns.loop (fun i (determinant : K) =>
    determinant = ∏ t ∈ Finset.range i, factoring.entry n t t) (Nat.zero_le n)
      (Finset.prod_range_zero _).symm ?_).weaken fun determinant same => same.trans (Finset.prod_range _)
  rintro i determinant - inside rfl
  apply Returns.known (placed.read inside inside)
  exact Returns.done (Finset.prod_range_succ _ _).symm

omit [Field K] [LinearOrder K] in
/-- The second loop counts the rows that the permutation displaces. -/
theorem detDisplaced_loop {positions : Perm (Fin n)}
    (same : ∀ i, (positions i : Nat) = factoring.place i) :
    Returns ((upTo 0 n).foldlM (detDisplaced factoring.P) 0) fun j => j = positions.support.card := by
  refine (Returns.loop (fun i (j : Nat) =>
    j = ∑ t ∈ Finset.range i, if factoring.place t ≠ t then 1 else 0) (Nat.zero_le n)
      (Finset.sum_range_zero _).symm ?_).weaken fun j counted => ?_
  · rintro i j - inside rfl
    apply Returns.known (factoring.P.read_inside (inside.trans_le placed.P))
    refine Returns.done ?_
    rw [Finset.sum_range_succ, Factoring.place]
    split
    · rfl
    · rfl
  · rw [counted, Finset.sum_range, Perm.support, Finset.card_filter]
    apply Finset.sum_congr rfl
    intro i _
    refine if_congr ?_ rfl rfl
    rw [← same, ne_eq, ne_eq, Fin.val_inj]

end

/-! The whole call. -/

/-- Partial pivoting brings the rows into these positions. -/
def PivotsInto (n : Nat) (A : Nat → Nat → K) (positions : Perm (Fin n)) : Prop :=
  ∃ order packed, Pivoted n (tiny fltEpsilon) A (n - 1) order packed ∧
    ∀ i, (positions i : Nat) = order i

/-- Where the factorisation succeeds, the call gives the determinant. -/
def DetCorrect (n : Nat) (A : Buffer K) : Prop := ∀ factoring,
  smlsMatLup (some A) ⟨n * n, fun _ => 0⟩ ⟨n, fun _ => 0⟩ n = some (0, factoring) →
    smlsMatDet A n = some (A.matrix n).det

section
variable {n : Nat} {A : Buffer K} {factoring : Factoring K}

/-- The value of a call behind a factorisation. -/
theorem smlsMatDet_factored {positions : Perm (Fin n)}
    (called : smlsMatLup (some A) ⟨n * n, fun _ => 0⟩ ⟨n, fun _ => 0⟩ n = some (0, factoring))
    (placed : factoring.Placed n) (same : ∀ i, (positions i : Nat) = factoring.place i) :
    smlsMatDet A n = some (((cycleSign positions.support.card : ℤ) : K) *
      ∏ i : Fin n, factoring.entry n i i) := by
  obtain ⟨determinant, multiplied, rfl⟩ := detFactor_loop placed
  obtain ⟨j, counted, rfl⟩ := detDisplaced_loop placed same
  simp only [smlsMatDet, called, Option.bind_eq_bind, Option.bind_some, ne_eq, not_true, if_false,
    multiplied, counted, cycleSign]
  split
  · simp
  · simp

variable [IsStrictOrderedRing K]

/-- The determinant is right if and only if it is zero, or pivoting displaces no rows or
moves them along an odd number of cycles. -/
theorem matDet_iff (room : n * n ≤ A.size) (octets : n ≤ 256) :
    DetCorrect n A ↔ (A.matrix n).det = 0 ∨ ∀ positions, PivotsInto n (A.entry n) positions →
      positions = 1 ∨ Odd positions.cycleType.card := by
  obtain ⟨⟨code, factoring⟩, called, ends⟩ := smlsMatLup_returns (lupRoom_own room) octets
  obtain ⟨rfl, factored⟩ | ⟨rfl, stalls⟩ := ends
  · change Factored n (tiny fltEpsilon) (A.entry n) (n - 1) factoring at factored
    obtain ⟨positions, same, factors⟩ := factored.factors (refusal_tiny fltEpsilon_pos)
    obtain ⟨order, packed, pivoted, place, -⟩ := factored.pivoted
    -- the permutation that pivoting chooses is the one in the pivot vector
    have chosen (positions' : Perm (Fin n)) :
        PivotsInto n (A.entry n) positions' ↔ positions' = positions := by
      constructor
      · rintro ⟨order', packed', pivoted', same'⟩
        obtain ⟨rfl, -⟩ := pivoted.unique pivoted'
        ext i
        rw [same', same, place i i.isLt]
      · rintro rfl
        exact ⟨order, packed, pivoted, fun i => (same i).trans (place i i.isLt)⟩
    have value := smlsMatDet_factored called factored.placed same
    have product := factored_pivots factors
    have correct : DetCorrect n A ↔
        ((cycleSign positions.support.card : ℤ) : K) * (((Perm.sign positions : ℤ) : K) *
          (A.matrix n).det) = (A.matrix n).det := by
      rw [product, ← Option.some.injEq, ← value]
      constructor
      · intro holds
        exact holds factoring called
      · intro holds _ _
        exact holds
    simp only [correct, chosen, forall_eq, ← sign_eq_cycleSign]
    by_cases singular : (A.matrix n).det = 0
    · rw [singular, mul_zero, mul_zero]
      exact iff_of_true rfl (Or.inl rfl)
    · rw [or_iff_right singular, ← mul_assoc, mul_eq_right₀ singular]
      exact signs_mul_eq_one _ _
  · refine iff_of_true ?_ ?_
    · intro factoring' called'
      cases called.symm.trans called'
    · right
      rintro positions ⟨order, packed, pivoted, -⟩
      exact absurd stalls pivoted.not_stalls

end

theorem matDet_iff_small : DetCorrect 2 smallMatrix := by
  refine (matDet_iff (by decide) (by decide)).mpr (Or.inr fun positions _ => ?_)
  -- two rows make at most one cycle
  have cycles : ∀ positions : Perm (Fin 2), positions = 1 ∨ Odd positions.cycleType.card := by
    decide +kernel
  exact cycles positions

/-- The unit matrix with its first two rows exchanged, and its last two. -/
def exchangedRows : Buffer ℚ :=
  ⟨16, fun i => [0, 1, 0, 0, 1, 0, 0, 0, 0, 0, 0, 1, 0, 0, 1, 0].getD i 0⟩

/-- Two exchanges do not change the sign of a determinant, but the code takes it to be minus one. -/
theorem matDet_exchanged : (exchangedRows.matrix 4).det = 1 ∧ smlsMatDet exchangedRows 4 = some (-1) ∧
    ¬ DetCorrect 4 exchangedRows := by
  have value : smlsMatDet exchangedRows 4 = some (-1) := by decide +kernel
  have determinant : (exchangedRows.matrix 4).det = 1 := by decide +kernel
  refine ⟨determinant, value, fun correct => ?_⟩
  have ran : (smlsMatLup (some exchangedRows) ⟨16, fun _ => 0⟩ ⟨4, fun _ => 0⟩ 4).map Prod.fst =
      some 0 := by
    decide +kernel
  cases called : smlsMatLup (some exchangedRows) ⟨16, fun _ => 0⟩ ⟨4, fun _ => 0⟩ 4 with
  | none =>
    rw [called] at ran
    cases ran
  | some result =>
    obtain ⟨code, factoring⟩ := result
    rw [called, Option.map_some, Option.some.injEq] at ran
    obtain rfl : code = 0 := ran
    have same := (correct factoring called).symm.trans value
    rw [determinant] at same
    cases same

end Simuless.Linalg
