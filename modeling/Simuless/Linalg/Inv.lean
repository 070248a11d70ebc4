import Mathlib.LinearAlgebra.Matrix.NonsingularInverse
import Simuless.Linalg.LinsolveLup
import Simuless.Linalg.MatOps

/-! Inverses, column by column.

The columns are solved for one after the other, each into a row of an array of
the call. The caller's array is written last, when nothing can fail any more.
-/

set_option autoImplicit false

namespace Simuless.Linalg

open Foundation
open Matrix (mulVec)

variable {K : Type} [Field K] [LinearOrder K]

/-- One turn of the backward substitution of `solve`, which tests every pivot. -/
def solveTested (row : Nat) (factoring : Factoring K) (x : Buffer K) (i : Nat) :
    Option (Flow (Buffer K) (Buffer K)) := do
  let x ← (upTo (i + 1) row).foldlM (solveTerm row i factoring) x
  let pivot ← factoring.read row i i
  if fltEpsilon < |pivot| then
    let xi ← x.read i
    let xi ← quotient xi pivot
    let x ← x.write i xi
    return .proceed x
  return .leave x

/-- The return value and `x`. -/
def solve (row : Nat) (factoring : Factoring K) (x b : Buffer K) : Option (Int × Buffer K) := do
  let x ← (upTo 0 row).foldlM (solveForward row factoring b) x
  match ← flowLoop (solveTested row factoring) (downFrom row) x with
  | .leave x => return (-enotsup, x)
  | .proceed x => return (0, x)

structure Inverting (K : Type) where
  Ai : Buffer K
  tmpvec : Buffer K

/-- A column is solved for through the pointer `&Ai[row * i]`. -/
def invColumn (row : Nat) (factoring : Factoring K) (inverting : Inverting K) (i : Nat) :
    Option (Flow Int (Inverting K)) := do
  let tmpvec ← inverting.tmpvec.write i 1
  let (ret, x) ← solve row factoring (inverting.Ai.tail (row * i)) tmpvec
  let Ai := inverting.Ai.graft (row * i) x
  if ret ≠ 0 then return .leave (-enotsup)
  let tmpvec ← tmpvec.write i 0
  return .proceed ⟨Ai, tmpvec⟩

/-- The matrix a call inverts: in place if there is no other. -/
def invInput (A : Option (Buffer K)) (AiOut : Buffer K) : Buffer K := A.getD AiOut

/-- The return value and `Ai_out`; `A` is none if it is the same pointer as `Ai_out`. Those
arrays of the call that are not cleared are not set before they are written. -/
def smlsMatInv (A : Option (Buffer K)) (AiOut : Buffer K) (row : Nat) : Option (Int × Buffer K) := do
  let tmpvec : Buffer K := ⟨row, fun _ => 0⟩
  let Ai : Buffer K := ⟨row * row, fun _ => 0⟩
  let (ret, factoring) ←
    smlsMatLup (some (invInput A AiOut)) ⟨row * row, fun _ => 0⟩ ⟨row, fun _ => 0⟩ row
  if ret ≠ 0 then return (-enotsup, AiOut)
  match ← flowLoop (invColumn row factoring) (upTo 0 row) ⟨Ai, tmpvec⟩ with
  | .leave ret => return (ret, AiOut)
  | .proceed inverting =>
    let Ai ← smlsMatTranspose inverting.Ai inverting.Ai row row
    let AiOut ← AiOut.copy Ai (row * row)
    return (0, AiOut)

/-! One column. -/

section
variable [IsStrictOrderedRing K] {n i : Nat} {A x b : Buffer K} {factoring : Factoring K}

theorem solveTested_row {y : Buffer K} (part : BackwardPart n factoring y (i + 1) x)
    (placed : factoring.Placed n) (room : n ≤ y.size) (inside : i < n) :
    Returns (solveTested n factoring x i)
      (Flow.Ends (fun x => x.size = y.size) (BackwardPart n factoring y i)) := by
  have loop := solveTerm_loop placed (part.size ▸ room) inside (Nat.succ_le_of_lt inside)
    (Nat.le_refl n) (Or.inl (Nat.lt_succ_self i))
  refine Returns.next loop fun x' _ ⟨size, taken, others⟩ => ?_
  have inVector : i < x'.size := by
    rw [size, part.size]
    exact inside.trans_le room
  apply Returns.known (placed.read inside inside)
  apply Returns.check
  · intro accepted
    have pivot : factoring.entry n i i ≠ 0 := abs_pos.mp (fltEpsilon_pos.trans accepted)
    apply Returns.known (x'.read_inside inVector)
    apply Returns.known (quotient_nonzero pivot _)
    apply Returns.known (x'.write_inside inVector _)
    exact Returns.done (part.divide size taken others pivot)
  · intro _
    exact Returns.done (size.trans part.size)

/-- A column of a factored matrix is solved for, or a pivot is refused. -/
theorem solve_returns (factored : Factored n (tiny fltEpsilon) (A.entry n) (n - 1) factoring)
    (room : n ≤ x.size) (room' : n ≤ b.size) : Returns (solve n factoring x b) fun result =>
      result.2.size = x.size ∧ (result.1 = 0 →
        mulVec (A.matrix n) (result.2.vector n) = b.vector n) := by
  obtain ⟨positions, same, factors⟩ := factored.factors (refusal_tiny fltEpsilon_pos)
  have placed := factored.placed
  refine Returns.next (solveForward_loop placed ⟨room, room'⟩ rfl) fun y _ lower => ?_
  have fits : n ≤ y.size := by
    rw [lower.size]
    exact room
  have backward := Returns.flow_down (BackwardPart n factoring y) (fun x : Buffer K => x.size = y.size)
    BackwardPart.start fun i _ inside part => solveTested_row part placed fits inside
  refine Returns.next backward fun flow _ ends => ?_
  cases flow with
  | leave x' =>
    exact Returns.done ⟨ends.trans lower.size, fun zero => absurd zero enotsup_nonzero⟩
  | proceed x' =>
    exact Returns.done ⟨ends.size.trans lower.size, fun _ =>
      substituted_solves same factors lower ends⟩

end

/-! The columns. -/

section
variable [IsStrictOrderedRing K] {n i : Nat} {A : Buffer K} {factoring : Factoring K}

/-- The rows up to `i` hold columns of the inverse, and the unit vector is cleared again. -/
structure InvertedTo (n : Nat) (A : Buffer K) (i : Nat) (inverting : Inverting K) : Prop where
  Ai : inverting.Ai.size = n * n
  tmpvec : inverting.tmpvec.size = n
  cleared : ∀ t < n, inverting.tmpvec.cells t = 0
  columns : ∀ c : Fin n, c < i →
    mulVec (A.matrix n) (fun j => inverting.Ai.entry n c j) = Pi.single c 1

theorem InvertedTo.next {inverting : Inverting K} (part : InvertedTo n A i inverting)
    (factored : Factored n (tiny fltEpsilon) (A.entry n) (n - 1) factoring) (inside : i < n) :
    Returns (invColumn n factoring inverting i)
      (Flow.Ends (fun ret => ret = -enotsup) (InvertedTo n A (i + 1))) := by
  have inVector : i < inverting.tmpvec.size := part.tmpvec.symm ▸ inside
  apply Returns.known (inverting.tmpvec.write_inside inVector _)
  have room : n ≤ (inverting.Ai.tail (n * i)).size := by
    have row : n * i + n ≤ n * n := Nat.mul_le_mul_left n inside
    rw [Buffer.tail, part.Ai]
    exact Nat.le_sub_of_add_le (Nat.add_comm _ _ ▸ row)
  have room' : n ≤ (inverting.tmpvec.set i 1).size := part.tmpvec.ge
  refine Returns.next (solve_returns factored room room') fun result _ ⟨size, solved⟩ => ?_
  apply Returns.check
  · intro _
    exact Returns.done rfl
  · intro success
    rw [not_not] at success
    apply Returns.known (Buffer.write_inside (inverting.tmpvec.set i 1) inVector _)
    refine Returns.done ⟨part.Ai, part.tmpvec, fun t inRow => ?_, fun c before => ?_⟩
    · rw [Buffer.set_set]
      by_cases here : t = i
      · rw [here, Buffer.set_same]
      · rw [Buffer.set_other _ here]
        exact part.cleared t inRow
    · have grafted (j : Fin n) : (inverting.Ai.graft (n * i) result.2).entry n c j =
          if (c : Nat) < i then inverting.Ai.entry n c j else result.2.cells j := by
        simp only [Buffer.entry, Buffer.graft]
        rcases Nat.lt_succ_iff_lt_or_eq.mp before with earlier | same
        · have left : n * c + j < n * i := by
            calc n * c + j < n * c + n := Nat.add_lt_add_left j.isLt _
              _ ≤ n * i := Nat.mul_le_mul_left n earlier
          rw [if_pos left, if_pos earlier]
        · rw [same, if_neg (by omega), if_neg (Nat.lt_irrefl i), Nat.add_sub_cancel_left]
      simp only [grafted]
      rcases Nat.lt_succ_iff_lt_or_eq.mp before with earlier | same
      · simp only [if_pos earlier]
        exact part.columns c earlier
      · simp only [same, if_neg (Nat.lt_irrefl i)]
        refine (solved success).trans ?_
        funext t
        rw [Buffer.vector, Pi.single_apply]
        by_cases here : t = c
        · rw [if_pos here, here, same, Buffer.set_same]
        · have other : (t : Nat) ≠ i := fun there => here (Fin.ext (there.trans same.symm))
          rw [if_neg here, Buffer.set_other _ other, part.cleared t t.isLt]

omit [LinearOrder K] [IsStrictOrderedRing K] in
/-- The columns that are solved for, in place, are the inverse. -/
theorem InvertedTo.inverse {inverting : Inverting K} {out : Buffer K} (part : InvertedTo n A n inverting)
    (transposed : ∀ j < n, ∀ k < n, out.entry n k j = inverting.Ai.entry n j k) :
    A.matrix n * out.matrix n = 1 := by
  ext i j
  have column := congrFun (part.columns j j.isLt) i
  rw [Pi.single_apply] at column
  rw [Matrix.mul_apply, Matrix.one_apply, ← column]
  apply Finset.sum_congr rfl
  intro k _
  congr 1
  exact transposed j j.isLt k k.isLt

end

/-! The whole call. -/

/-- The buffers of a call are large enough. -/
structure InvRoom (n : Nat) (A : Option (Buffer K)) (AiOut : Buffer K) : Prop where
  A : n * n ≤ (invInput A AiOut).size
  AiOut : n * n ≤ AiOut.size

section
variable [IsStrictOrderedRing K] {n : Nat} {A : Option (Buffer K)} {AiOut : Buffer K}

/-- A call divides by no zero. Success means that the output is the inverse of the input,
and failure that it is as it was. -/
theorem matInv_sound (room : InvRoom n A AiOut) (octets : n ≤ 256) :
    ∃ code out, smlsMatInv A AiOut n = some (code, out) ∧
      (code = 0 → (invInput A AiOut).matrix n * out.matrix n = 1 ∧
        out.matrix n * (invInput A AiOut).matrix n = 1) ∧
      (code ≠ 0 → out = AiOut) := by
  have returns : Returns (smlsMatInv A AiOut n) fun result =>
      (result.1 = 0 → (invInput A AiOut).matrix n * result.2.matrix n = 1) ∧
        (result.1 ≠ 0 → result.2 = AiOut) := by
    refine Returns.next (smlsMatLup_returns (lupRoom_own room.A) octets) fun result _ ends => ?_
    apply Returns.check
    · intro _
      exact Returns.done ⟨fun zero => absurd zero enotsup_nonzero, fun _ => rfl⟩
    · intro success
      have factored : Factored n (tiny fltEpsilon) ((invInput A AiOut).entry n) (n - 1) result.2 := by
        rcases ends with ⟨-, factored⟩ | ⟨refused, -⟩
        · exact factored
        · exact absurd (refused.trans_ne enotsup_nonzero) success
      have start : InvertedTo n (invInput A AiOut) 0
          ⟨(⟨n * n, fun _ => 0⟩ : Buffer K), ⟨n, fun _ => 0⟩⟩ :=
        ⟨rfl, rfl, fun _ _ => rfl, fun c before => absurd before (Nat.not_lt_zero c)⟩
      refine Returns.next (Returns.flow _ (fun ret => ret = -enotsup) (Nat.zero_le n) start
        fun i _ _ inside part => part.next factored inside) fun flow _ ends => ?_
      cases flow with
      | leave ret =>
        obtain rfl : ret = -enotsup := ends
        exact Returns.done ⟨fun zero => absurd zero enotsup_nonzero, fun _ => rfl⟩
      | proceed inverting =>
        refine Returns.next (smlsMatTranspose_returns ends.Ai.ge ends.Ai.ge)
          fun Ai _ ⟨size, transposed⟩ => ?_
        have inside : n * n ≤ Ai.size := size.trans ends.Ai |>.ge
        apply Returns.known (if_pos ⟨room.AiOut, inside⟩)
        refine Returns.done ⟨fun _ => ends.inverse fun j inRow k inColumn => ?_,
          fun nonzero => absurd rfl nonzero⟩
        exact (if_pos (flat_lt inColumn inRow)).trans (transposed j inRow k inColumn)
  obtain ⟨⟨code, out⟩, called, inverse, unchanged⟩ := returns
  exact ⟨code, out, called, fun zero => ⟨inverse zero, mul_eq_one_comm.mp (inverse zero)⟩,
    unchanged⟩

end

/-- In place. -/
theorem matInv_sound_small : ∃ out, smlsMatInv none smallMatrix 2 = some (0, out) ∧
    smallMatrix.matrix 2 * out.matrix 2 = 1 ∧ out.matrix 2 * smallMatrix.matrix 2 = 1 := by
  have ran : (smlsMatInv none smallMatrix 2).map Prod.fst = some 0 := by decide +kernel
  have room : InvRoom 2 none smallMatrix := ⟨by decide, by decide⟩
  obtain ⟨code, out, called, inverse, -⟩ := matInv_sound room (by decide)
  rw [called, Option.map_some, Option.some.injEq] at ran
  obtain rfl : code = 0 := ran
  exact ⟨out, called, inverse rfl⟩

end Simuless.Linalg
