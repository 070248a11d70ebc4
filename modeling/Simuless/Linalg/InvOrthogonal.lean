import Mathlib.Tactic.NormNum
import Simuless.Foundation.OrthogonalPivots
import Simuless.Linalg.Inv

/-! The inverse of an orthogonal matrix.

No pivot of an orthogonal matrix comes near the tolerance, so that neither the
factorisation nor the substitutions refuse one.
-/

set_option autoImplicit false

namespace Simuless.Linalg

open Foundation
open scoped Matrix

variable {K : Type} [Field K] [LinearOrder K] [IsStrictOrderedRing K] {n : Nat}

/-- The columns are orthogonal unit vectors. -/
def Orthogonal (n : Nat) (A : Buffer K) : Prop := (A.matrix n)ᵀ * A.matrix n = 1

theorem small_tolerance (octets : n ≤ 256) : (n : K) * (fltEpsilon * fltEpsilon) < 1 := by
  have bound : (n : K) ≤ 256 := by exact_mod_cast octets
  calc (n : K) * (fltEpsilon * fltEpsilon) ≤ 256 * (fltEpsilon * fltEpsilon) :=
        mul_le_mul_of_nonneg_right bound (mul_self_nonneg _)
    _ < 1 := by
      rw [fltEpsilon]
      norm_num

section
variable {A : Buffer K} {factoring : Factoring K} (orthogonal : Orthogonal n A) (octets : n ≤ 256)
include orthogonal octets

theorem Factored.large_pivots
    (factored : Factored n (tiny fltEpsilon) (A.entry n) (n - 1) factoring) {i : Nat} (inside : i < n) :
    fltEpsilon < |factoring.entry n i i| := by
  have refusal : Refusal (tiny (fltEpsilon : K)) := refusal_tiny fltEpsilon_pos
  obtain ⟨order, packed, pivoted, -, entries⟩ := factored.pivoted
  rw [entries i inside i inside]
  rcases Nat.lt_or_ge i (n - 1) with before | last
  · exact not_le.mp ((pivoted.accepted_large refusal orthogonal (small_tolerance octets)).pivots before)
  · -- no stage looks for the last pivot, but its column has no other entry
    obtain ⟨t, above, below, large⟩ :=
      pivoted.exists_large refusal orthogonal (by omega) (small_tolerance octets)
    obtain rfl : t = i := by omega
    obtain rfl : t = n - 1 := by omega
    exact large

end

/-! A call that refuses nothing. -/

section
variable {i : Nat} {A x b y : Buffer K} {factoring : Factoring K}

/-- A turn with a large pivot is not left. -/
theorem solveTested_large (part : BackwardPart n factoring y (i + 1) x) (placed : factoring.Placed n)
    (room : n ≤ y.size) (inside : i < n) (large : fltEpsilon < |factoring.entry n i i|) :
    Returns (solveTested n factoring x i)
      (Flow.Ends (fun _ => False) (BackwardPart n factoring y i)) := by
  obtain ⟨flow, ran, ends⟩ := solveTested_row part placed room inside
  cases flow with
  | proceed x' => exact ⟨_, ran, ends⟩
  | leave x' =>
    obtain ⟨x'', looped, size, -, -⟩ := solveTerm_loop placed (part.size ▸ room) inside
      (Nat.succ_le_of_lt inside) (Nat.le_refl n) (Or.inl (Nat.lt_succ_self i))
    have inVector : i < x''.size := by
      rw [size, part.size]
      exact inside.trans_le room
    have pivot : factoring.entry n i i ≠ 0 := abs_pos.mp (fltEpsilon_pos.trans large)
    simp [solveTested, looped, placed.read inside inside, large, x''.read_inside inVector,
      quotient_nonzero pivot, x''.write_inside inVector] at ran

/-- A column is solved for without a pivot that is refused. -/
theorem solve_accepts (placed : factoring.Placed n) (large : ∀ i < n, fltEpsilon < |factoring.entry n i i|)
    (room : n ≤ x.size) (room' : n ≤ b.size) :
    Returns (solve n factoring x b) fun result => result.1 = 0 := by
  refine Returns.next (solveForward_loop placed ⟨room, room'⟩ rfl) fun y _ lower => ?_
  have fits : n ≤ y.size := by
    rw [lower.size]
    exact room
  have backward := Returns.flow_down (BackwardPart n factoring y) (fun _ : Buffer K => False)
    BackwardPart.start fun i x inside part => solveTested_large part placed fits inside (large i inside)
  refine Returns.next backward fun flow _ ends => ?_
  cases flow with
  | leave x' => exact ends.elim
  | proceed x' => exact Returns.done rfl

theorem InvertedTo.accepted {inverting : Inverting K} (part : InvertedTo n A i inverting)
    (factored : Factored n (tiny fltEpsilon) (A.entry n) (n - 1) factoring)
    (large : ∀ i < n, fltEpsilon < |factoring.entry n i i|) (inside : i < n) :
    Returns (invColumn n factoring inverting i)
      (Flow.Ends (fun _ => False) (InvertedTo n A (i + 1))) := by
  obtain ⟨flow, ran, ends⟩ := part.next factored inside
  cases flow with
  | proceed inverting' => exact ⟨_, ran, ends⟩
  | leave ret =>
    have inVector : i < inverting.tmpvec.size := part.tmpvec.symm ▸ inside
    have room : n ≤ (inverting.Ai.tail (n * i)).size := by
      have row : n * i + n ≤ n * n := Nat.mul_le_mul_left n inside
      rw [Buffer.tail, part.Ai]
      exact Nat.le_sub_of_add_le (Nat.add_comm _ _ ▸ row)
    have room' : n ≤ (inverting.tmpvec.set i 1).size := part.tmpvec.ge
    obtain ⟨⟨code, x'⟩, solved, success⟩ := solve_accepts factored.placed large room room'
    obtain rfl : code = 0 := success
    simp [invColumn, inverting.tmpvec.write_inside inVector, solved,
      Buffer.write_inside (inverting.tmpvec.set i 1) inVector] at ran

end

/-- An orthogonal matrix is inverted, and its inverse is its transpose. -/
theorem smlsMatInv_orthogonal {A : Option (Buffer K)} {AiOut : Buffer K} (room : InvRoom n A AiOut)
    (octets : n ≤ 256) (orthogonal : Orthogonal n (invInput A AiOut)) :
    Returns (smlsMatInv A AiOut n) fun result => result.1 = 0 ∧ result.2.size = AiOut.size ∧
      result.2.matrix n = ((invInput A AiOut).matrix n)ᵀ := by
  refine Returns.next (smlsMatLup_returns (lupRoom_own room.A) octets) fun ⟨code, factoring⟩ _ ends => ?_
  rcases ends with ⟨success, factored⟩ | ⟨-, stalls⟩
  · obtain rfl : code = 0 := success
    have large := fun i (inside : i < n) => factored.large_pivots orthogonal octets inside
    have start : InvertedTo n (invInput A AiOut) 0
        ⟨(⟨n * n, fun _ => 0⟩ : Buffer K), ⟨n, fun _ => 0⟩⟩ :=
      ⟨rfl, rfl, fun _ _ => rfl, fun c before => absurd before (Nat.not_lt_zero c)⟩
    refine Returns.next (Returns.flow _ (fun _ : Int => False) (Nat.zero_le n) start
      fun i _ _ inside part => part.accepted factored large inside) fun flow _ ends => ?_
    cases flow with
    | leave ret => exact ends.elim
    | proceed inverting =>
      refine Returns.next (smlsMatTranspose_returns ends.Ai.ge ends.Ai.ge)
        fun Ai _ ⟨size, transposed⟩ => ?_
      apply Returns.known (if_pos ⟨room.AiOut, (size.trans ends.Ai).ge⟩)
      refine Returns.done ⟨rfl, rfl, (left_inv_eq_right_inv orthogonal (ends.inverse
        fun j inRow k inColumn => ?_)).symm⟩
      exact (if_pos (flat_lt inColumn inRow)).trans (transposed j inRow k inColumn)
  · exact absurd stalls (orthogonal_not_stalls orthogonal fltEpsilon_pos (small_tolerance octets))

/-- The call refuses no orthogonal matrix. -/
theorem orthogonal_inverted {A : Option (Buffer K)} {AiOut : Buffer K} (room : InvRoom n A AiOut)
    (octets : n ≤ 256) (orthogonal : Orthogonal n (invInput A AiOut)) : ∃ out,
      smlsMatInv A AiOut n = some (0, out) ∧ out.matrix n = ((invInput A AiOut).matrix n)ᵀ := by
  obtain ⟨⟨code, out⟩, called, success, -, transposed⟩ := smlsMatInv_orthogonal room octets orthogonal
  obtain rfl : code = 0 := success
  exact ⟨out, called, transposed⟩

/-- The rows `3, 4` and `-4, 3`, as unit vectors. -/
def turnedSquare : Buffer ℚ := ⟨4, fun i => [3 / 5, 4 / 5, -4 / 5, 3 / 5].getD i 0⟩

theorem orthogonal_inverted_turned : ∃ out, smlsMatInv none turnedSquare 2 = some (0, out) ∧
    out.matrix 2 = (turnedSquare.matrix 2)ᵀ := by
  have room : InvRoom 2 none turnedSquare := ⟨by decide, by decide⟩
  have orthogonal : Orthogonal 2 turnedSquare := by
    rw [Orthogonal]
    decide +kernel
  exact orthogonal_inverted room (by decide) orthogonal

end Simuless.Linalg
