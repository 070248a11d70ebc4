import Simuless.Linalg.Chol
import Simuless.Linalg.SolverAgreement

/-! Solving with a Cholesky factor.

The factor is transposed in its own array between the two substitutions.
-/

set_option autoImplicit false

namespace Simuless.Linalg

open Foundation
open scoped Matrix

variable {K : Type}

section
variable [Field K] [LinearOrder K]

def lowerRow (row : Nat) (A b x : Buffer K) (i : Nat) : Option (Buffer K) := do
  let sum ← (upTo 0 i).foldlM (upperTerm row i A x) 0
  let bi ← b.read i
  let diagonal ← A.readInt (row * i + i)
  let xi ← quotient (bi - sum) diagonal
  x.write i xi

def smlsLinsolveLowerTriangular (A x b : Buffer K) (row : Nat) : Option (Buffer K) := do
  let x ← x.clear row
  (upTo 0 row).foldlM (lowerRow row A b) x

/-- What `x` holds; the arrays of the call itself are not set before they are written. -/
def smlsLinsolveChol (sqrtf : K → K) (A x b : Buffer K) (row : Nat) : Option (Buffer K) := do
  let size ← asInt (row * row)
  let L ← smlsMatChol sqrtf A ⟨size, fun _ => 0⟩ row
  let y ← smlsLinsolveLowerTriangular L ⟨row, fun _ => 0⟩ b row
  let L ← smlsMatTranspose L L row row
  smlsLinsolveUpperTriangular L x y row

end

/-! Forward substitution. -/

section
variable [Field K] [LinearOrder K] {n i : Nat} {A b x : Buffer K}

omit [LinearOrder K] in
theorem lowerTerm_loop (small : n * n ≤ intMax) (room : n * n ≤ A.size) (room' : n ≤ x.size) (inRow : i < n) :
    Returns ((upTo 0 i).foldlM (upperTerm n i A x) 0) fun sum =>
      sum = ∑ j ∈ Finset.range i, A.entry n i j * x.cells j := by
  refine Returns.loop (fun j (sum : K) => sum = ∑ t ∈ Finset.range j, A.entry n i t * x.cells t)
    (Nat.zero_le i) (Finset.sum_range_zero _).symm ?_
  rintro j sum - before rfl
  apply Returns.known (Buffer.readInt_entry small room inRow (before.trans inRow))
  apply Returns.known (x.read_inside ((before.trans inRow).trans_le room'))
  exact Returns.done (Finset.sum_range_succ _ _).symm

/-- The entries before `i` solve their rows. -/
structure LowerPart (n : Nat) (A b : Buffer K) (size i : Nat) (x : Buffer K) : Prop where
  size : x.size = size
  solved : ∀ t < i, ∑ j ∈ Finset.range (t + 1), A.entry n t j * x.cells j = b.cells t

theorem LowerPart.row {size : Nat} (part : LowerPart n A b size i x) (small : n * n ≤ intMax)
    (room : n * n ≤ A.size) (room' : n ≤ b.size) (room'' : n ≤ size) (inRow : i < n)
    (pivot : A.entry n i i ≠ 0) : Returns (lowerRow n A b x i) (LowerPart n A b size (i + 1)) := by
  have fits : n ≤ x.size := part.size.symm ▸ room''
  refine Returns.next (lowerTerm_loop small room fits inRow) fun sum _ summed => ?_
  apply Returns.known (b.read_inside (inRow.trans_le room'))
  have inA := flat_lt inRow inRow
  apply Returns.known (A.readInt_inside (inA.trans_le room) (inA.le.trans small))
  apply Returns.known (quotient_nonzero pivot _)
  rw [x.write_inside (inRow.trans_le fits)]
  generalize value : (b.cells i - sum) / A.entry n i i = xi
  have earlier (t : Nat) (count : Nat) (above : count ≤ i) :
      ∑ j ∈ Finset.range count, A.entry n t j * (x.set i xi).cells j =
        ∑ j ∈ Finset.range count, A.entry n t j * x.cells j := by
    apply Finset.sum_congr rfl
    intro j member
    rw [Buffer.set_other _ (Nat.ne_of_lt ((Finset.mem_range.mp member).trans_le above))]
  refine Returns.done ⟨part.size, fun t below => ?_⟩
  rcases Nat.lt_succ_iff_lt_or_eq.mp below with before | rfl
  · rw [earlier t (t + 1) before]
    exact part.solved t before
  · rw [Finset.sum_range_succ, earlier t t le_rfl, ← summed, Buffer.set_same, ← value,
      mul_div_cancel₀ _ pivot]
    exact add_sub_cancel _ _

/-- A lower triangular system without a zero on the diagonal is solved. -/
theorem smlsLinsolveLowerTriangular_solves (small : n * n ≤ intMax) (room : n * n ≤ A.size)
    (room' : n ≤ b.size) (room'' : n ≤ x.size) (lower : ∀ t < n, ∀ c < n, t < c → A.entry n t c = 0)
    (pivots : ∀ t < n, A.entry n t t ≠ 0) :
    Returns (smlsLinsolveLowerTriangular A x b n) fun x' =>
      x'.size = x.size ∧ A.matrix n *ᵥ x'.vector n = b.vector n := by
  apply Returns.known (if_pos room'')
  have start : LowerPart n A b x.size 0 ⟨x.size, fun i => if i < n then 0 else x.cells i⟩ :=
    ⟨rfl, fun t before => absurd before (Nat.not_lt_zero t)⟩
  refine (Returns.loop (LowerPart n A b x.size) (Nat.zero_le n) start fun t x' _ inRow part =>
      part.row small room room' room'' inRow (pivots t inRow)).weaken fun x' part => ⟨part.size, ?_⟩
  funext t
  have row := part.solved t t.isLt
  rw [← sum_up_to t.isLt fun j => A.entry n t j * x'.cells j] at row
  rw [Matrix.mulVec, dotProduct]
  refine Eq.trans (Finset.sum_congr rfl fun j _ => ?_) row
  split
  case isTrue before =>
    have zero : A.matrix n t j = 0 := lower t t.isLt j j.isLt before
    rw [zero, zero_mul]
  case isFalse => rfl

end

/-! The whole call. -/

section
variable {n : Nat} {A b x : Buffer ℝ}

/-- A positive definite system is solved. -/
theorem smlsLinsolveChol_solves (room : SolveRoom n A x b) (rows : n ≤ 46340)
    (definite : (A.matrix n).PosDef) :
    Returns (smlsLinsolveChol Real.sqrt A x b n) fun x' => A.matrix n *ᵥ x'.vector n = b.vector n := by
  have small := square_small rows
  apply Returns.known (asInt_small small)
  refine Returns.next (smlsMatChol_factors rows room.A le_rfl definite) fun L _ ⟨size, factor, product⟩ => ?_
  have fits : n * n ≤ L.size := size.ge
  refine Returns.next (smlsLinsolveLowerTriangular_solves small fits room.b le_rfl factor.lower
    fun t below => (factor.diagonal t below).ne') fun y _ ⟨sizey, forward⟩ => ?_
  refine Returns.next (smlsMatTranspose_returns fits fits) fun Lt _ ⟨sizet, transposed⟩ => ?_
  have cleared : Cleared n n (Lt.entry n) := fun t inRow c inColumn before => by
    rw [transposed c inColumn t inRow]
    exact factor.lower c inColumn t inRow before
  refine (smlsLinsolveUpperTriangular_solves small (sizet.symm ▸ fits) sizey.ge room.x cleared
    fun t below => ?_).weaken fun x' backward => ?_
  · rw [transposed t below t below]
    exact (factor.diagonal t below).ne'
  · have upper : Lt.matrix n = (L.matrix n)ᵀ := by
      ext a b
      exact transposed b b.isLt a a.isLt
    rw [upper] at backward
    rw [← gram_product product, ← Matrix.mulVec_mulVec, backward, forward]

theorem posDef_regular (definite : (A.matrix n).PosDef) : RegularCorners n (A.entry n) :=
  fun _ inside => posDef_det (posDef_corner definite inside)

/-- On a positive definite system all three direct solvers come to the same solution, unless the
pivoting one reports a stall. -/
theorem linsolveChol_agrees (room : SolveRoom n A x b) (octets : n ≤ 256)
    (definite : (A.matrix n).PosDef) : ∃ solution, smlsLinsolveChol Real.sqrt A x b n = some solution ∧
      A.matrix n *ᵥ solution.vector n = b.vector n ∧
      (∃ solution', smlsLinsolveGauss A x b n n 0 = some solution' ∧
        solution'.vector n = solution.vector n) ∧
      ((∃ solution', smlsLinsolveLup A x b n = some (0, solution') ∧
        solution'.vector n = solution.vector n) ∨ smlsLinsolveLup A x b n = some (-enotsup, x)) := by
  have rows : n ≤ 46340 := octets.trans (by decide)
  have regular : (A.matrix n).det ≠ 0 := posDef_det definite
  have unique {y z : Fin n → ℝ} (first : A.matrix n *ᵥ y = b.vector n)
      (second : A.matrix n *ᵥ z = b.vector n) : y = z :=
    Matrix.mulVec_injective_of_det_ne_zero regular (first.trans second.symm)
  obtain ⟨solution, called, solves⟩ := smlsLinsolveChol_solves room rows definite
  refine ⟨solution, called, solves, ?_, ?_⟩
  · have other := smlsLinsolveGauss_square room (square_small rows)
    rw [if_pos (posDef_regular definite)] at other
    obtain ⟨solution', called', solves'⟩ := other
    exact ⟨solution', called', unique solves' solves⟩
  · rcases smlsLinsolveLupBy_returns (refusal_tiny fltEpsilon_pos) room octets with
      ⟨-, called'⟩ | ⟨-, ends⟩
    · exact Or.inr called'
    · rw [if_neg regular] at ends
      obtain ⟨solution', called', solves'⟩ := ends
      exact Or.inl ⟨solution', called', unique solves' solves⟩

end

theorem linsolveChol_agrees_ones : ∃ solution,
    smlsLinsolveChol Real.sqrt onesGram ⟨2, fun _ => 0⟩ ⟨2, fun _ => 3⟩ 2 = some solution ∧
      onesGram.matrix 2 *ᵥ solution.vector 2 = (⟨2, fun _ => 3⟩ : Buffer ℝ).vector 2 ∧
      (∃ solution', smlsLinsolveGauss onesGram ⟨2, fun _ => 0⟩ ⟨2, fun _ => 3⟩ 2 2 0 = some solution' ∧
        solution'.vector 2 = solution.vector 2) ∧
      ((∃ solution', smlsLinsolveLup onesGram ⟨2, fun _ => 0⟩ ⟨2, fun _ => 3⟩ 2 = some (0, solution') ∧
        solution'.vector 2 = solution.vector 2) ∨
          smlsLinsolveLup onesGram ⟨2, fun _ => 0⟩ ⟨2, fun _ => 3⟩ 2 = some (-enotsup, ⟨2, fun _ => 0⟩)) :=
  linsolveChol_agrees ⟨Nat.le_refl 4, Nat.le_refl 2, Nat.le_refl 2⟩ (by decide) onesGram_posDef

end Simuless.Linalg
