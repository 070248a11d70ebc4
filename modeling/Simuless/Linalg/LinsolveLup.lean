import Simuless.Foundation.Triangular
import Simuless.Linalg.Lup

/-! Solving a system by its factors.

The factorisation tests every pivot but the last, and the substitutions divide
by all of them without a test.
-/

set_option autoImplicit false

namespace Simuless.Linalg

open Foundation
open Matrix (mulVec)

variable {K : Type} [Field K] [LinearOrder K]

/-- `x[i] = x[i] - LU[row * P[i] + j] * x[j]`. -/
def solveTerm (row i : Nat) (factoring : Factoring K) (x : Buffer K) (j : Nat) : Option (Buffer K) := do
  let xi ← x.read i
  let entry ← factoring.read row i j
  let xj ← x.read j
  x.write i (xi - entry * xj)

def solveForward (row : Nat) (factoring : Factoring K) (b x : Buffer K) (i : Nat) : Option (Buffer K) := do
  let p ← factoring.P.read i
  let bi ← b.read p.toNat
  let x ← x.write i bi
  (upTo 0 i).foldlM (solveTerm row i factoring) x

def solveBackward (row : Nat) (factoring : Factoring K) (x : Buffer K) (i : Nat) : Option (Buffer K) := do
  let x ← (upTo (i + 1) row).foldlM (solveTerm row i factoring) x
  let xi ← x.read i
  let pivot ← factoring.read row i i
  let xi ← quotient xi pivot
  x.write i xi

/-- The return value and `x`; the arrays of the call itself are not set before they are written. -/
def smlsLinsolveLupBy (refused : K → Prop) [DecidablePred refused] (A x b : Buffer K) (row : Nat) :
    Option (Int × Buffer K) := do
  let (ret, factoring) ← smlsMatLupBy refused (some A) ⟨row * row, fun _ => 0⟩ ⟨row, fun _ => 0⟩ row
  if ret ≠ 0 then return (-enotsup, x)
  let x ← (upTo 0 row).foldlM (solveForward row factoring b) x
  let x ← (downFrom row).foldlM (solveBackward row factoring) x
  return (0, x)

def smlsLinsolveLup (A x b : Buffer K) (row : Nat) : Option (Int × Buffer K) :=
  smlsLinsolveLupBy (tiny fltEpsilon) A x b row

/-! The substitutions. -/

section
variable {n i : Nat} {factoring : Factoring K} {x b : Buffer K}

/-- The terms of the columns from `first` up to `last`. -/
def terms (n i : Nat) (factoring : Factoring K) (x : Buffer K) (first last : Nat) : K :=
  ∑ j ∈ Finset.Ico first last, factoring.entry n i j * x.cells j

omit [LinearOrder K] in
theorem terms_congr {x' : Buffer K} {first last : Nat}
    (same : ∀ j, first ≤ j → j < last → x'.cells j = x.cells j) :
    terms n i factoring x' first last = terms n i factoring x first last := by
  apply Finset.sum_congr rfl
  intro j member
  obtain ⟨above, below⟩ := Finset.mem_Ico.mp member
  rw [same j above below]

omit [LinearOrder K] in
/-- The inner loop takes the terms of its columns off one entry. -/
theorem solveTerm_loop (placed : factoring.Placed n) (room : n ≤ x.size) (inside : i < n)
    {first last : Nat} (order : first ≤ last) (columns : last ≤ n) (apart : i < first ∨ last ≤ i) :
    Returns ((upTo first last).foldlM (solveTerm n i factoring) x) fun x' => x'.size = x.size ∧
      x'.cells i = x.cells i - terms n i factoring x first last ∧
      ∀ t, t ≠ i → x'.cells t = x.cells t := by
  refine Returns.loop (fun j (x' : Buffer K) => x'.size = x.size ∧
    x'.cells i = x.cells i - terms n i factoring x first j ∧ ∀ t, t ≠ i → x'.cells t = x.cells t)
    order ⟨rfl, ?_, fun _ _ => rfl⟩ ?_
  · rw [terms, Finset.Ico_self, Finset.sum_empty, sub_zero]
  · rintro j x' above below ⟨size, taken, others⟩
    have inRow : i < x'.size := by omega
    have inColumn : j < x'.size := by omega
    apply Returns.known (x'.read_inside inRow)
    apply Returns.known (placed.read inside (below.trans_le columns))
    apply Returns.known (x'.read_inside inColumn)
    rw [x'.write_inside inRow]
    refine Returns.done ⟨size, ?_, fun t other => ?_⟩
    · rw [Buffer.set_same, taken, others j (by omega), terms, terms, Finset.sum_Ico_succ_top above]
      ring
    · rw [Buffer.set_other _ other]
      exact others t other

/-- The entries before `i` solve the rows of the lower factor up to there. -/
structure ForwardPart (n : Nat) (factoring : Factoring K) (b : Buffer K) (size i : Nat) (x : Buffer K) :
    Prop where
  size : x.size = size
  solved : ∀ t < i, x.cells t = b.cells (factoring.place t) - terms n t factoring x 0 t

omit [LinearOrder K] in
theorem ForwardPart.row {size : Nat} (part : ForwardPart n factoring b size i x)
    (placed : factoring.Placed n) (room : n ≤ size ∧ n ≤ b.size) (inside : i < n) :
    Returns (solveForward n factoring b x i) (ForwardPart n factoring b size (i + 1)) := by
  have inVector : i < x.size := by
    rw [part.size]
    exact inside.trans_le room.1
  have inB : factoring.place i < b.size := (placed.place_lt i inside).trans_le room.2
  apply Returns.known (factoring.P.read_inside (inside.trans_le placed.P))
  apply Returns.known (b.read_inside inB)
  apply Returns.known (x.write_inside inVector _)
  have loop := solveTerm_loop (x := x.set i (b.cells (factoring.place i))) placed (by
    rw [Buffer.set_size, part.size]
    exact room.1) inside (Nat.zero_le i) inside.le (Or.inr (Nat.le_refl i))
  refine loop.weaken fun x' ⟨size', taken, others⟩ => ⟨size'.trans part.size, fun t below => ?_⟩
  have before (j : Nat) (below : j < i) : x'.cells j = x.cells j := by
    rw [others j (Nat.ne_of_lt below), Buffer.set_other _ (Nat.ne_of_lt below)]
  rcases Nat.lt_succ_iff_lt_or_eq.mp below with below | rfl
  · rw [before t below, part.solved t below,
      terms_congr fun j _ inside => before j (inside.trans below)]
  · rw [taken, Buffer.set_same]
    congr 1
    apply terms_congr
    intro j _ below
    exact (others j (Nat.ne_of_lt below)).symm

omit [LinearOrder K] in
/-- The first substitution always goes through. -/
theorem solveForward_loop {size : Nat} (placed : factoring.Placed n) (room : n ≤ size ∧ n ≤ b.size)
    (vector : x.size = size) :
    Returns ((upTo 0 n).foldlM (solveForward n factoring b) x) (ForwardPart n factoring b size n) := by
  refine Returns.loop _ (Nat.zero_le n) ⟨vector, fun t below => absurd below (Nat.not_lt_zero t)⟩ ?_
  intro i reached _ inside part
  exact part.row placed room inside

/-- The entries from `i` on solve the rows of the upper factor from there. -/
structure BackwardPart (n : Nat) (factoring : Factoring K) (y : Buffer K) (i : Nat) (x : Buffer K) :
    Prop where
  size : x.size = y.size
  solved : ∀ t, i ≤ t → t < n →
    factoring.entry n t t * x.cells t = y.cells t - terms n t factoring x (t + 1) n
  waiting : ∀ t < i, x.cells t = y.cells t

omit [LinearOrder K] in
theorem BackwardPart.start {y : Buffer K} : BackwardPart n factoring y n y :=
  ⟨rfl, fun _ above below => absurd below (Nat.not_lt.mpr above), fun _ _ => rfl⟩

omit [LinearOrder K] in
/-- Behind the inner loop a division by the pivot solves one more row. -/
theorem BackwardPart.divide {y x' : Buffer K} (part : BackwardPart n factoring y (i + 1) x)
    (size : x'.size = x.size) (taken : x'.cells i = x.cells i - terms n i factoring x (i + 1) n)
    (others : ∀ t, t ≠ i → x'.cells t = x.cells t) (pivot : factoring.entry n i i ≠ 0) :
    BackwardPart n factoring y i (x'.set i (x'.cells i / factoring.entry n i i)) := by
  have kept (t : Nat) (other : t ≠ i) :
      (x'.set i (x'.cells i / factoring.entry n i i)).cells t = x.cells t := by
    rw [Buffer.set_other _ other, others t other]
  refine ⟨size.trans part.size, fun t above below => ?_, fun t below => ?_⟩
  · have same : terms n t factoring (x'.set i (x'.cells i / factoring.entry n i i)) (t + 1) n =
        terms n t factoring x (t + 1) n := terms_congr fun j later _ => kept j (by omega)
    rw [same]
    rcases Nat.lt_or_eq_of_le above with behind | rfl
    · rw [kept t (by omega)]
      exact part.solved t behind below
    · rw [Buffer.set_same, mul_div_cancel₀ _ pivot, taken, part.waiting i (Nat.lt_succ_self i)]
  · rw [kept t (by omega)]
    exact part.waiting t (by omega)

theorem BackwardPart.row {y : Buffer K} (part : BackwardPart n factoring y (i + 1) x)
    (placed : factoring.Placed n) (room : n ≤ y.size) (inside : i < n)
    (pivot : factoring.entry n i i ≠ 0) :
    Returns (solveBackward n factoring x i) (BackwardPart n factoring y i) := by
  have loop := solveTerm_loop placed (part.size ▸ room) inside (Nat.succ_le_of_lt inside)
    (Nat.le_refl n) (Or.inl (Nat.lt_succ_self i))
  refine Returns.next loop fun x' _ ⟨size', taken, others⟩ => ?_
  have inVector : i < x'.size := by
    rw [size', part.size]
    exact inside.trans_le room
  apply Returns.known (x'.read_inside inVector)
  apply Returns.known (placed.read inside inside)
  apply Returns.known (quotient_nonzero pivot _)
  rw [x'.write_inside inVector]
  exact Returns.done (part.divide size' taken others pivot)

/-- A row whose pivot is zero has no result. -/
theorem solveBackward_zero (placed : factoring.Placed n) (room : n ≤ x.size) (inside : i < n)
    (pivot : factoring.entry n i i = 0) : solveBackward n factoring x i = none := by
  obtain ⟨x', looped, size, -, -⟩ := solveTerm_loop placed room inside (Nat.succ_le_of_lt inside)
    (Nat.le_refl n) (Or.inl (Nat.lt_succ_self i))
  have inVector : i < x'.size := by omega
  simp only [solveBackward, looped, x'.read_inside inVector, placed.read inside inside, pivot,
    quotient, Option.bind_eq_bind, Option.bind_some, if_true, Option.bind_none]

omit [LinearOrder K] in
/-- Where both substitutions have gone through, the system is solved. -/
theorem substituted_solves {size : Nat} {A y : Buffer K} {positions : Equiv.Perm (Fin n)}
    (same : ∀ i, (positions i : Nat) = factoring.place i)
    (factors : (A.matrix n).submatrix positions id =
      lowerMatrix n (factoring.entry n) * upperMatrix n (factoring.entry n))
    (lower : ForwardPart n factoring b size n y) (upper : BackwardPart n factoring y 0 x) :
    mulVec (A.matrix n) (x.vector n) = b.vector n := by
  apply factored_solved factors (y := y.vector n)
  · refine (lower_solved lower.solved).trans ?_
    funext i
    rw [Function.comp_apply, Buffer.vector, same]
  · exact upper_solved fun i inside => upper.solved i (Nat.zero_le i) inside

end

/-! The whole call. -/

/-- A factorisation that gives up leaves `x` as it was. -/
theorem smlsLinsolveLupBy_failed {n : Nat} {A x b : Buffer K} {refused : K → Prop}
    [DecidablePred refused] {factoring : Factoring K}
    (called : smlsMatLupBy refused (some A) ⟨n * n, fun _ => 0⟩ ⟨n, fun _ => 0⟩ n =
      some (-enotsup, factoring)) : smlsLinsolveLupBy refused A x b n = some (-enotsup, x) := by
  rw [smlsLinsolveLupBy, called, Option.bind_eq_bind, Option.bind_some]
  exact if_pos enotsup_nonzero

/-- What stands in the arrays of the caller and of the call. -/
structure SolveRoom (n : Nat) (A x b : Buffer K) : Prop where
  A : n * n ≤ A.size
  x : n ≤ x.size
  b : n ≤ b.size

/-- The call divides by no zero, and if it reports success `x` is a solution. -/
def SolvesOnSuccess (n : Nat) (A x b : Buffer K) : Prop := ∃ code x',
  smlsLinsolveLup A x b n = some (code, x') ∧
    (code = 0 → mulVec (A.matrix n) (x'.vector n) = b.vector n)

section
variable {n : Nat} {A x b : Buffer K} {factoring : Factoring K} {refused : K → Prop}
  (refusal : Refusal refused)
include refusal

/-- A factored matrix with its rows permuted is the product of its factors. -/
theorem Factored.factors (factored : Factored n refused (A.entry n) (n - 1) factoring) :
    ∃ positions : Equiv.Perm (Fin n), (∀ i, (positions i : Nat) = factoring.place i) ∧
      (A.matrix n).submatrix positions id =
        lowerMatrix n (factoring.entry n) * upperMatrix n (factoring.entry n) := by
  obtain ⟨positions, same⟩ := factored.placed.permutation
  refine ⟨positions, same, ?_⟩
  ext i j
  rw [lower_mul_upper, ← unpacked_last i.isLt, factored.product refusal i.isLt j.isLt, ← same i]
  rfl

/-- Only the last pivot can be zero. -/
theorem Factored.last_zero (factored : Factored n refused (A.entry n) (n - 1) factoring)
    (singular : (A.matrix n).det = 0) : 0 < n ∧ factoring.entry n (n - 1) (n - 1) = 0 := by
  obtain ⟨positions, -, factors⟩ := factored.factors refusal
  have irregular := mt (factored_regular factors).mpr (not_not.mpr singular)
  push Not at irregular
  obtain ⟨i, inside, zero⟩ := irregular
  have last : ¬ i < n - 1 := by
    intro before
    exact refusal.nonzero (factored.pivots before inside) zero
  obtain rfl : i = n - 1 := by omega
  exact ⟨by omega, zero⟩

/-- With pivots that are not zero the substitutions find the solution. -/
theorem substitutions_solve (room : SolveRoom n A x b)
    (factored : Factored n refused (A.entry n) (n - 1) factoring)
    (regular : (A.matrix n).det ≠ 0) :
    Returns ((upTo 0 n).foldlM (solveForward n factoring b) x >>= fun y =>
      (downFrom n).foldlM (solveBackward n factoring) y) fun x' =>
        mulVec (A.matrix n) (x'.vector n) = b.vector n := by
  obtain ⟨positions, same, factors⟩ := factored.factors refusal
  have pivots := (factored_regular factors).mp regular
  have placed := factored.placed
  refine Returns.next (solveForward_loop placed ⟨room.x, room.b⟩ rfl) fun y _ lower => ?_
  have fits : n ≤ y.size := by
    rw [lower.size]
    exact room.x
  have backward : Returns ((downFrom n).foldlM (solveBackward n factoring) y)
      (BackwardPart n factoring y 0) := by
    refine Returns.loop_down (BackwardPart n factoring y) BackwardPart.start ?_
    intro i reached inside part
    exact part.row placed fits inside (pivots i inside)
  exact backward.weaken fun x' upper => substituted_solves same factors lower upper

/-- A last pivot of zero leaves the substitutions without a result. -/
theorem substitutions_fail (room : SolveRoom n A x b)
    (factored : Factored n refused (A.entry n) (n - 1) factoring) (singular : (A.matrix n).det = 0) :
    ((upTo 0 n).foldlM (solveForward n factoring b) x >>= fun y =>
      (downFrom n).foldlM (solveBackward n factoring) y) = none := by
  obtain ⟨positive, zero⟩ := factored.last_zero refusal singular
  have placed := factored.placed
  obtain ⟨y, reached, lower⟩ := solveForward_loop (x := x) placed ⟨room.x, room.b⟩ rfl
  have fits : n ≤ y.size := by
    rw [lower.size]
    exact room.x
  obtain ⟨last, rfl⟩ : ∃ last, n = last + 1 := ⟨n - 1, by omega⟩
  have divided := solveBackward_zero placed fits (Nat.lt_succ_self last) zero
  rw [reached, Option.bind_eq_bind, Option.bind_some, downFrom_succ, List.foldlM_cons, divided]
  rfl

/-- Behind a factorisation without a stall the call is the two substitutions. It solves
the system if the matrix is regular, and has no result otherwise. -/
theorem smlsLinsolveLupBy_returns [DecidablePred refused] (room : SolveRoom n A x b) (octets : n ≤ 256) :
    StallsOn n refused (A.entry n) ∧ smlsLinsolveLupBy refused A x b n = some (-enotsup, x) ∨
      ¬ StallsOn n refused (A.entry n) ∧ if (A.matrix n).det = 0 then
        smlsLinsolveLupBy refused A x b n = none
      else ∃ x', smlsLinsolveLupBy refused A x b n = some (0, x') ∧
        mulVec (A.matrix n) (x'.vector n) = b.vector n := by
  obtain ⟨⟨code, factoring⟩, called, ends⟩ :=
    smlsMatLupBy_returns refusal (lupRoom_own room.A) octets
  obtain ⟨rfl, factored⟩ | ⟨rfl, stalls⟩ := ends
  · right
    refine ⟨factored.not_stalls, ?_⟩
    have program : smlsLinsolveLupBy refused A x b n =
        ((upTo 0 n).foldlM (solveForward n factoring b) x >>= fun y =>
          (downFrom n).foldlM (solveBackward n factoring) y).map fun x' => (0, x') := by
      simp only [smlsLinsolveLupBy, called, Option.bind_eq_bind, Option.bind_some, ne_eq, not_true,
        if_false]
      cases (upTo 0 n).foldlM (solveForward n factoring b) x with
      | none => rfl
      | some y =>
        simp only [Option.bind_some]
        cases (downFrom n).foldlM (solveBackward n factoring) y <;> rfl
    rw [program]
    by_cases singular : (A.matrix n).det = 0
    · rw [if_pos singular, substitutions_fail refusal room factored singular]
      rfl
    · rw [if_neg singular]
      obtain ⟨x', solved, solution⟩ := substitutions_solve refusal room factored singular
      refine ⟨x', ?_, solution⟩
      rw [solved]
      rfl
  · left
    exact ⟨stalls, smlsLinsolveLupBy_failed called⟩

end

section
variable [IsStrictOrderedRing K] {n : Nat} {A x b : Buffer K}

/-- The solver keeps its word on a matrix if and only if the matrix is regular or
elimination stalls on it before the last column. -/
theorem linsolveLup_iff (room : SolveRoom n A x b) (octets : n ≤ 256) :
    SolvesOnSuccess n A x b ↔ (A.matrix n).det ≠ 0 ∨ Stalls n fltEpsilon (A.entry n) := by
  obtain ⟨stalls, called⟩ | ⟨gone, ends⟩ :=
    smlsLinsolveLupBy_returns (refusal_tiny fltEpsilon_pos) room octets
  · exact iff_of_true ⟨-enotsup, x, called, fun zero => absurd zero enotsup_nonzero⟩ (Or.inr stalls)
  · rw [Stalls, or_iff_left gone]
    by_cases singular : (A.matrix n).det = 0
    · rw [if_pos singular] at ends
      refine iff_of_false ?_ (not_not.mpr singular)
      rintro ⟨code, x', solved, -⟩
      cases ends.symm.trans solved
    · rw [if_neg singular] at ends
      obtain ⟨x', called, solution⟩ := ends
      exact iff_of_true ⟨0, x', called, fun _ => solution⟩ singular

end

theorem linsolveLup_small :
    SolvesOnSuccess 2 smallMatrix ⟨2, fun _ => 0⟩ ⟨2, fun _ => 5⟩ := by
  refine (linsolveLup_iff ⟨by decide, by decide, by decide⟩ (by decide)).mpr (Or.inl ?_)
  rw [Matrix.det_fin_two]
  simp only [Buffer.matrix, Buffer.entry, smallMatrix]
  decide +kernel

/-- The rows `1, 2` and `2, 4`. -/
def dependentRows : Buffer ℚ := ⟨4, fun i => [1, 2, 2, 4].getD i 0⟩

/-- The factorisation accepts them, and the solver divides by the last pivot, which is zero. -/
theorem linsolveLup_dependent :
    (smlsMatLup (some dependentRows) ⟨4, fun _ => 0⟩ ⟨2, fun _ => 0⟩ 2).map Prod.fst = some 0 ∧
      smlsLinsolveLup dependentRows ⟨2, fun _ => 0⟩ ⟨2, fun _ => 1⟩ 2 = none ∧
      ¬ SolvesOnSuccess 2 dependentRows ⟨2, fun _ => 0⟩ ⟨2, fun _ => 1⟩ := by
  have stuck : smlsLinsolveLup dependentRows ⟨2, fun _ => 0⟩ ⟨2, fun _ => 1⟩ 2 = none := by
    rw [← Option.isNone_iff_eq_none]
    decide +kernel
  refine ⟨by decide +kernel, stuck, ?_⟩
  rintro ⟨code, x', solved, -⟩
  rw [stuck] at solved
  cases solved

end Simuless.Linalg
