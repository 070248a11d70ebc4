import Simuless.Linalg.LinsolveGauss
import Simuless.Linalg.LinsolveLup

/-! The two direct solvers on one regular system.

One exchanges rows and the other does not, so that the second divides by zero
where a leading principal minor is zero.
-/

set_option autoImplicit false

namespace Simuless.Linalg

open Foundation
open scoped Matrix

variable {K : Type} [Field K] [LinearOrder K]

/-- Where the pivoting solver succeeds on a regular matrix, the other one divides by no zero
and gives the same solution. -/
def SolversAgree (n : Nat) (A x x' b : Buffer K) : Prop := (A.matrix n).det ≠ 0 →
  ∀ solution, smlsLinsolveLup A x b n = some (0, solution) →
    ∃ solution', smlsLinsolveGauss A x' b n n 0 = some solution' ∧
      solution'.vector n = solution.vector n

section
variable {n : Nat} {A x b : Buffer K}

/-- Elimination in natural order solves a square system without a minor that is zero, and has
no result on any other. -/
theorem smlsLinsolveGauss_square (room : SolveRoom n A x b) (small : n * n ≤ intMax) :
    if RegularCorners n (A.entry n) then
      ∃ x', smlsLinsolveGauss A x b n n 0 = some x' ∧ A.matrix n *ᵥ x'.vector n = b.vector n
    else smlsLinsolveGauss A x b n n 0 = none := by
  let copyA : Buffer K := ⟨n * n, fun i => if i < n * n then A.cells i else 0⟩
  let copyb : Buffer K := ⟨n, fun i => if i < n then b.cells i else 0⟩
  have program : smlsLinsolveGauss A x b n n 0 = eliminated copyA copyb x n := by
    rw [smlsLinsolveGauss, if_pos ⟨le_rfl, rfl⟩, asInt_small small, Option.bind_eq_bind,
      Option.bind_some, Buffer.copy_whole A _ _ room.A, Option.bind_eq_bind,
      Option.bind_some, Buffer.copy_whole b _ _ room.b, Option.bind_eq_bind, Option.bind_some]
    rfl
  have fits : System.Fits ⟨copyA, copyb⟩ n := ⟨small, Nat.le_refl (n * n), Nat.le_refl n⟩
  have entries (t : Nat) (inRow : t < n) (c : Nat) (inColumn : c < n) :
      copyA.entry n t c = A.entry n t c := if_pos (flat_lt inRow inColumn)
  have corners (k : Nat) (inside : k ≤ n) : corner k (copyA.entry n) = corner k (A.entry n) :=
    corner_congr fun t inRow c inColumn =>
      entries t (inRow.trans_le inside) c (inColumn.trans_le inside)
  have matrix : copyA.matrix n = A.matrix n := corners n (Nat.le_refl n)
  have vector : copyb.vector n = b.vector n := funext fun i => if_pos i.isLt
  have same : RegularCorners n (copyA.entry n) ↔ RegularCorners n (A.entry n) :=
    forall₂_congr fun k inside => by rw [corners k inside]
  rw [program]
  split
  case isTrue regular =>
    obtain ⟨x', solved, solution⟩ := eliminated_solves fits room.x (same.mpr regular)
    exact ⟨x', solved, matrix ▸ vector ▸ solution⟩
  case isFalse singular =>
    exact eliminated_fails fits room.x (mt same.mp singular)

variable [IsStrictOrderedRing K]

/-- The solvers agree if and only if the matrix is singular, elimination with pivoting stalls
on it, or none of its leading principal minors is zero. -/
theorem solversAgree_iff {x' : Buffer K} (room : SolveRoom n A x b) (room' : SolveRoom n A x' b)
    (octets : n ≤ 256) : SolversAgree n A x x' b ↔ (A.matrix n).det = 0 ∨
      Stalls n fltEpsilon (A.entry n) ∨ RegularCorners n (A.entry n) := by
  by_cases singular : (A.matrix n).det = 0
  · exact iff_of_true (fun regular => absurd singular regular) (Or.inl singular)
  · rw [or_iff_right singular]
    obtain ⟨stalls, called⟩ | ⟨gone, ends⟩ :=
      smlsLinsolveLupBy_returns (refusal_tiny fltEpsilon_pos) room octets
    · refine iff_of_true (fun _ solution succeeded => ?_) (Or.inl stalls)
      cases called.symm.trans succeeded
    · rw [if_neg singular] at ends
      obtain ⟨solution, called, solves⟩ := ends
      rw [Stalls, or_iff_right gone]
      have other := smlsLinsolveGauss_square room' (square_small (octets.trans (by decide)))
      by_cases regular : RegularCorners n (A.entry n)
      · rw [if_pos regular] at other
        obtain ⟨solution', called', solves'⟩ := other
        refine iff_of_true (fun _ found succeeded => ⟨solution', called', ?_⟩) regular
        cases called.symm.trans succeeded
        exact Matrix.mulVec_injective_of_det_ne_zero singular (solves'.trans solves.symm)
      · rw [if_neg regular] at other
        refine iff_of_false (fun agree => ?_) regular
        obtain ⟨solution', called', -⟩ := agree singular solution called
        cases other.symm.trans called'

end

theorem solversAgree_small :
    SolversAgree 2 smallMatrix ⟨2, fun _ => 0⟩ ⟨2, fun _ => 0⟩ ⟨2, fun _ => 5⟩ := by
  have room : SolveRoom 2 smallMatrix ⟨2, fun _ => 0⟩ ⟨2, fun _ => 5⟩ := ⟨by decide, by decide, by decide⟩
  refine (solversAgree_iff room room (by decide)).mpr (Or.inr (Or.inr ?_))
  decide +kernel

/-- The rows `0, 1` and `1, 0`. -/
def antidiagonal : Buffer ℚ := ⟨4, fun i => [0, 1, 1, 0].getD i 0⟩

/-- Without an exchange of rows its first pivot is zero. -/
theorem solvers_antidiagonal : (antidiagonal.matrix 2).det = -1 ∧
    (smlsLinsolveLup antidiagonal ⟨2, fun _ => 0⟩ ⟨2, fun _ => 1⟩ 2).map
      (fun result => (result.1, result.2.cells 0, result.2.cells 1)) = some (0, 1, 1) ∧
    smlsLinsolveGauss antidiagonal ⟨2, fun _ => 0⟩ ⟨2, fun _ => 1⟩ 2 2 0 = none ∧
    ¬ SolversAgree 2 antidiagonal ⟨2, fun _ => 0⟩ ⟨2, fun _ => 0⟩ ⟨2, fun _ => 1⟩ := by
  have determinant : (antidiagonal.matrix 2).det = -1 := by decide +kernel
  have solved : (smlsLinsolveLup antidiagonal ⟨2, fun _ => 0⟩ ⟨2, fun _ => 1⟩ 2).map
      (fun result => (result.1, result.2.cells 0, result.2.cells 1)) = some (0, 1, 1) := by
    decide +kernel
  have stuck : smlsLinsolveGauss antidiagonal ⟨2, fun _ => 0⟩ ⟨2, fun _ => 1⟩ 2 2 0 = none := by
    rw [← Option.isNone_iff_eq_none]
    decide +kernel
  refine ⟨determinant, solved, stuck, fun agree => ?_⟩
  have regular : (antidiagonal.matrix 2).det ≠ 0 := by
    rw [determinant]
    decide
  obtain ⟨⟨code, solution⟩, called, same⟩ := Option.map_eq_some_iff.mp solved
  obtain rfl : code = 0 := congrArg Prod.fst same
  obtain ⟨solution', called', -⟩ := agree regular solution called
  cases stuck.symm.trans called'

end Simuless.Linalg
