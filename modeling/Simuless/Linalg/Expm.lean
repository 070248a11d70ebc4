import Mathlib.Algebra.Order.Ring.Rat
import Mathlib.Data.Matrix.Basic
import Simuless.Foundation.TruncatedExp
import Simuless.Linalg.Norm

/-! Matrix exponentials by their series.

A turn adds a term, and the loop ends at the first term whose norm is not
positive. The terms are counted in 8 bits.
-/

set_option autoImplicit false

namespace Simuless.Linalg

open Foundation

variable {K : Type} [Field K] [LinearOrder K]

structure Exponential (K : Type) where
  E : Buffer K
  F : Buffer K
  T : Buffer K
  k : UInt8

/-- `F[i * row + i] = 1` and `T[i * row + i] = 1`. -/
def expmUnit (row : Nat) (FT : Buffer K × Buffer K) (i : Nat) : Option (Buffer K × Buffer K) := do
  let F ← FT.1.write (i * row + i) 1
  let T ← FT.2.write (i * row + i) 1
  return (F, T)

/-- `E[i] = E[i] + F[i]`. -/
def expmAdd (F E : Buffer K) (i : Nat) : Option (Buffer K) := do
  let sum ← E.read i
  let term ← F.read i
  E.write i (sum + term)

/-- `F[i] = T[i] / (float)k`. -/
def expmDivide (T : Buffer K) (k : UInt8) (F : Buffer K) (i : Nat) : Option (Buffer K) := do
  let item ← T.read i
  let item ← quotient item (k.toNat : K)
  F.write i item

/-- `T[i] = E[i] + F[i] - E[i]`. -/
def expmDifference (E F T : Buffer K) (i : Nat) : Option (Buffer K) := do
  let sum ← E.read i
  let term ← F.read i
  T.write i (sum + term - sum)

def expmTurn (A : Buffer K) (row : Nat) (state : Exponential K) : Option (Exponential K) := do
  let E ← (upTo 0 (row * row)).foldlM (expmAdd state.F) state.E
  let (_, T) ← smlsMatMul state.T A state.F row row row row
  let F ← (upTo 0 (row * row)).foldlM (expmDivide T state.k) state.F
  let T ← (upTo 0 (row * row)).foldlM (expmDifference E F) T
  return ⟨E, F, T, state.k + 1⟩

/-- The turns of the `while` loop, up to a number of them. -/
def expmLoop (sqrtf : K → K) (A : Buffer K) (row : Nat) : Nat → Exponential K → Option (Buffer K)
  | 0, _ => none
  | turns + 1, state => do
    let norm ← smlsMatNormOne sqrtf state.T row row
    if 0 < norm then
      let state ← expmTurn A row state
      expmLoop sqrtf A row turns state
    else return state.E

/-- What `exp` holds. The counter starts at 1, and the turn in which it is back at 0 divides
by it, so that the loop is not gone through more than 256 times. -/
def smlsMatExpm (sqrtf : K → K) (A exp : Buffer K) (row : Nat) : Option (Buffer K) := do
  let zeros : Buffer K := ⟨row * row, fun _ => 0⟩
  let (F, T) ← (upTo 0 row).foldlM (expmUnit row) (zeros, zeros)
  let E ← expmLoop sqrtf A row 256 ⟨zeros, F, T, 1⟩
  exp.copy E (row * row)

/-! Entry by entry. -/

section
variable {n : Nat} {A : Buffer K}

variable {E F T : Buffer K} (sizeE : E.size = n * n) (sizeF : F.size = n * n) (sizeT : T.size = n * n)

section
include sizeE sizeF

omit [LinearOrder K] in
theorem expmAdd_loop : Returns ((upTo 0 (n * n)).foldlM (expmAdd F) E) fun E' =>
    E'.size = n * n ∧ E'.matrix n = E.matrix n + F.matrix n := by
  refine (entrywise_loop (fun k sum => sum + F.cells k) fun i below E' size => ?_).weaken
    fun E' ⟨size, cells⟩ => ⟨size.trans sizeE, ?_⟩
  · have inE : i < E'.size := below.trans_le (size.trans sizeE).ge
    simp only [expmAdd, E'.read_inside inE, F.read_inside (below.trans_le sizeF.ge),
      E'.write_inside inE, Option.bind_eq_bind, Option.bind_some]
  · ext i j
    exact cells _ (flat_lt i.isLt j.isLt)

include sizeT

omit [LinearOrder K] in
theorem expmDifference_loop : Returns ((upTo 0 (n * n)).foldlM (expmDifference E F) T) fun T' =>
    T'.size = n * n ∧ T'.matrix n = F.matrix n := by
  refine (entrywise_loop (fun k _ => E.cells k + F.cells k - E.cells k) fun i below T' size => ?_).weaken
    fun T' ⟨size, cells⟩ => ⟨size.trans sizeT, ?_⟩
  · have inT : i < T'.size := below.trans_le (size.trans sizeT).ge
    simp only [expmDifference, E.read_inside (below.trans_le sizeE.ge),
      F.read_inside (below.trans_le sizeF.ge), T'.write_inside inT, Option.bind_eq_bind, Option.bind_some]
  · ext i j
    exact (cells _ (flat_lt i.isLt j.isLt)).trans (add_sub_cancel_left _ _)

end

include sizeF sizeT

theorem expmDivide_loop {k : UInt8} (nonzero : (k.toNat : K) ≠ 0) :
    Returns ((upTo 0 (n * n)).foldlM (expmDivide T k) F) fun F' =>
      F'.size = n * n ∧ F'.matrix n = (k.toNat : K)⁻¹ • T.matrix n := by
  refine (entrywise_loop (fun i _ => T.cells i / (k.toNat : K)) fun i below F' size => ?_).weaken
    fun F' ⟨size, cells⟩ => ⟨size.trans sizeF, ?_⟩
  · have inF : i < F'.size := below.trans_le (size.trans sizeF).ge
    simp only [expmDivide, T.read_inside (below.trans_le sizeT.ge), quotient_nonzero nonzero,
      F'.write_inside inF, Option.bind_eq_bind, Option.bind_some]
  · ext i j
    rw [Matrix.smul_apply, smul_eq_mul, mul_comm, ← div_eq_mul_inv]
    exact cells _ (flat_lt i.isLt j.isLt)

end

omit [LinearOrder K] in
/-- Both arrays start as the unit matrix. -/
theorem expmUnit_loop {n : Nat} : Returns ((upTo 0 n).foldlM (expmUnit n)
    (((⟨n * n, fun _ => 0⟩ : Buffer K)), ⟨n * n, fun _ => 0⟩)) fun FT =>
      (FT.1.size = n * n ∧ FT.1.matrix n = 1) ∧ FT.2.size = n * n ∧ FT.2.matrix n = 1 := by
  let unit (i : Nat) (F : Buffer K) : Prop := F.size = n * n ∧
    ∀ t < n, ∀ c < n, F.entry n t c = if t = c ∧ t < i then 1 else 0
  have next (i : Nat) (inRow : i < n) (F : Buffer K) (part : unit i F) :
      unit (i + 1) (F.set (n * i + i) 1) := by
    refine ⟨part.1, fun t below c inColumn => ?_⟩
    rw [Buffer.entry_set inRow inColumn, part.2 t below c inColumn]
    by_cases here : t = i ∧ c = i
    · rw [if_pos here, if_pos (by omega)]
    · rw [if_neg here]
      exact if_congr (by omega) rfl rfl
  have last (F : Buffer K) (part : unit n F) : F.size = n * n ∧ F.matrix n = 1 := by
    refine ⟨part.1, ?_⟩
    ext t c
    rw [Matrix.one_apply]
    refine (part.2 t t.isLt c c.isLt).trans (if_congr ?_ rfl rfl)
    rw [and_iff_left t.isLt, Fin.ext_iff]
  refine (Returns.loop (fun i (FT : Buffer K × Buffer K) => unit i FT.1 ∧ unit i FT.2) (Nat.zero_le n) ?_
    ?_).weaken fun FT parts => ⟨last FT.1 parts.1, last FT.2 parts.2⟩
  · have start : unit 0 ⟨n * n, fun _ => 0⟩ := ⟨rfl, fun t _ c _ => (if_neg (by omega)).symm⟩
    exact ⟨start, start⟩
  · rintro i ⟨F, T⟩ - inRow ⟨part, part'⟩
    apply Returns.known (Buffer.write_entry part.1.ge inRow inRow 1)
    apply Returns.known (Buffer.write_entry part'.1.ge inRow inRow 1)
    exact Returns.done ⟨next i inRow F part, next i inRow T part'⟩

/-! The norm of a term. -/

/-- The code finds the norm to be positive. -/
def Noticed {n : Nat} (M : Matrix (Fin n) (Fin n) K) : Prop :=
  ∃ j, 0 < ∑ i : Fin n, if (i : Nat) = 0 then M i j else |M i j|

instance {n : Nat} (M : Matrix (Fin n) (Fin n) K) : Decidable (Noticed M) :=
  inferInstanceAs (Decidable (∃ j, 0 < ∑ i : Fin n, if (i : Nat) = 0 then M i j else |M i j|))

section
variable {n : Nat} {M : Matrix (Fin n) (Fin n) K}

theorem noticed_iff {T : Buffer K} :
    Noticed (T.matrix n) ↔ ∃ j < n, 0 < columnSum n (T.entry n) j := by
  have column (j : Fin n) : columnSum n (T.entry n) j =
      ∑ i : Fin n, if (i : Nat) = 0 then T.matrix n i j else |T.matrix n i j| := Finset.sum_range _
  constructor
  · rintro ⟨j, positive⟩
    exact ⟨j, j.isLt, (column j).symm ▸ positive⟩
  · rintro ⟨j, inColumn, positive⟩
    exact ⟨⟨j, inColumn⟩, column ⟨j, inColumn⟩ ▸ positive⟩

variable [IsStrictOrderedRing K]

theorem not_noticed_zero : ¬ Noticed (0 : Matrix (Fin n) (Fin n) K) := by
  rintro ⟨j, positive⟩
  simp only [Matrix.zero_apply, abs_zero, ite_self, Finset.sum_const_zero, lt_irrefl] at positive

theorem noticed_one (rows : 0 < n) : Noticed (1 : Matrix (Fin n) (Fin n) K) := by
  refine ⟨⟨0, rows⟩, ?_⟩
  rw [Finset.sum_eq_single_of_mem ⟨0, rows⟩ (Finset.mem_univ _)]
  · rw [if_pos rfl, Matrix.one_apply_eq]
    exact one_pos
  · intro i _ other
    rw [Matrix.one_apply_ne other, abs_zero, ite_self]

theorem noticed_smul {factor : K} (positive : 0 < factor) : Noticed (factor • M) ↔ Noticed M := by
  refine exists_congr fun j => ?_
  have scaled : (∑ i : Fin n, if (i : Nat) = 0 then (factor • M) i j else |(factor • M) i j|) =
      factor * ∑ i : Fin n, if (i : Nat) = 0 then M i j else |M i j| := by
    rw [Finset.mul_sum]
    refine Finset.sum_congr rfl fun i _ => ?_
    rw [Matrix.smul_apply, smul_eq_mul, abs_mul, abs_of_pos positive, mul_ite]
  rw [scaled, mul_pos_iff_of_pos_left positive]

theorem noticed_expTerm (k : Nat) : Noticed (expTerm K M k) ↔ Noticed (M ^ k) :=
  noticed_smul (inv_pos.mpr (Nat.cast_pos.mpr k.factorial_pos))

end

/-! The series. -/

section
variable [IsStrictOrderedRing K] {n : Nat} {A : Buffer K}

/-- The state behind this many turns. -/
structure ExpmTo (n : Nat) (A : Buffer K) (turns : Nat) (state : Exponential K) : Prop where
  sizeE : state.E.size = n * n
  sizeF : state.F.size = n * n
  sizeT : state.T.size = n * n
  E : state.E.matrix n = expSum K (A.matrix n) turns
  F : state.F.matrix n = expTerm K (A.matrix n) turns
  T : state.T.matrix n = expTerm K (A.matrix n) turns
  k : state.k.toNat = (turns + 1) % 256

theorem ExpmTo.turn {turns : Nat} {state : Exponential K} (part : ExpmTo n A turns state)
    (room : n * n ≤ A.size) (counted : turns < 255) :
    Returns (expmTurn A n state) (ExpmTo n A (turns + 1)) := by
  have counter : state.k.toNat = turns + 1 := part.k.trans (Nat.mod_eq_of_lt (by omega))
  have nonzero : (state.k.toNat : K) ≠ 0 := by
    rw [counter]
    exact Nat.cast_ne_zero.mpr (Nat.succ_ne_zero turns)
  refine Returns.next (expmAdd_loop part.sizeE part.sizeF) fun E _ ⟨sizeE, added⟩ => ?_
  refine Returns.next (smlsMatMul_returns room part.sizeF.ge part.sizeT.ge)
    fun result _ ⟨_, sizeT, product⟩ => ?_
  have sizeT' := sizeT.trans part.sizeT
  refine Returns.next (expmDivide_loop part.sizeF sizeT' nonzero) fun F _ ⟨sizeF, divided⟩ => ?_
  refine Returns.next (expmDifference_loop sizeE sizeF sizeT') fun T _ ⟨sizeT'', copied⟩ => ?_
  have term : F.matrix n = expTerm K (A.matrix n) (turns + 1) := by
    change result.2.matrix n = A.matrix n * state.F.matrix n at product
    rw [divided, product, part.F, expTerm_succ, counter]
  refine Returns.done ⟨sizeE, sizeF, sizeT'', ?_, term, copied.trans term, ?_⟩
  · rw [added, part.E, part.F, expSum_succ]
  · have one : (1 : UInt8).toNat = 1 := rfl
    rw [UInt8.toNat_add, counter, one]

/-- The loop ends at the first power that the norm does not notice. -/
theorem expmLoop_returns {sqrtf : K → K} {stop : Nat} (rows : 2 ≤ n) (room : n * n ≤ A.size)
    (counted : stop ≤ 255) (noticed : ∀ k < stop, Noticed (A.matrix n ^ k))
    (ended : ¬ Noticed (A.matrix n ^ stop)) {turns : Nat} {state : Exponential K} {fuel : Nat}
    (part : ExpmTo n A turns state) (order : turns ≤ stop) (enough : stop < turns + fuel) :
    Returns (expmLoop sqrtf A n fuel state) fun E =>
      E.size = n * n ∧ E.matrix n = expSum K (A.matrix n) stop := by
  induction fuel generalizing turns state with
  | zero => omega
  | succ fuel ih =>
    refine Returns.next (smlsMatNormOne_returns part.sizeT.ge rows (by omega)) fun norm _ exceeds => ?_
    have positive : 0 < norm ↔ Noticed (A.matrix n ^ turns) := by
      rw [exceeds 0, ← noticed_iff, part.T, noticed_expTerm]
    by_cases last : turns = stop
    · rw [if_neg (positive.not.mpr (last ▸ ended))]
      exact Returns.done ⟨part.sizeE, last ▸ part.E⟩
    · rw [if_pos (positive.mpr (noticed turns (by omega)))]
      refine Returns.next (part.turn room (by omega)) fun next _ part' => ?_
      exact ih part' (by omega) (by omega)

/-- A call ends with the first terms of the series. -/
def ExpmExact (sqrtf : K → K) (n : Nat) (A exp : Buffer K) : Prop :=
  ∃ exp', smlsMatExpm sqrtf A exp n = some exp' ∧ exp'.matrix n = expSum K (A.matrix n) n

/-- On a nilpotent matrix a call sums up the terms before the first power that is not noticed. -/
theorem smlsMatExpm_returns {sqrtf : K → K} {exp : Buffer K} {stop : Nat} (rows : 2 ≤ n)
    (room : n * n ≤ A.size) (room' : n * n ≤ exp.size) (counted : stop ≤ 255)
    (noticed : ∀ k < stop, Noticed (A.matrix n ^ k)) (ended : ¬ Noticed (A.matrix n ^ stop)) :
    Returns (smlsMatExpm sqrtf A exp n) fun exp' => exp'.matrix n = expSum K (A.matrix n) stop := by
  refine Returns.next expmUnit_loop fun FT _ ⟨⟨sizeF, F⟩, sizeT, T⟩ => ?_
  have start : ExpmTo n A 0 ⟨⟨n * n, fun _ => 0⟩, FT.1, FT.2, 1⟩ :=
    ⟨rfl, sizeF, sizeT, rfl, F.trans (expTerm_zero K _).symm, T.trans (expTerm_zero K _).symm, rfl⟩
  refine Returns.next (expmLoop_returns rows room counted noticed ended start (Nat.zero_le stop)
    (by omega)) fun E _ ⟨sizeE, sum⟩ => ?_
  refine ⟨_, if_pos ⟨room', sizeE.ge⟩, ?_⟩
  rw [← sum]
  ext i j
  exact if_pos (flat_lt i.isLt j.isLt)

/-- The exponential of a nilpotent matrix is exact if and only if the norm notices every power
that is not zero. -/
theorem expm_iff (sqrtf : K → K) {exp : Buffer K} (rows : 2 ≤ n) (octets : n ≤ 255)
    (room : n * n ≤ A.size) (room' : n * n ≤ exp.size) (nilpotent : A.matrix n ^ n = 0) :
    ExpmExact sqrtf n A exp ↔
      ∀ k, 1 ≤ k → k < n → A.matrix n ^ k ≠ 0 → Noticed (A.matrix n ^ k) := by
  have unnoticed : ∃ k, ¬ Noticed (A.matrix n ^ k) := ⟨n, nilpotent.symm ▸ not_noticed_zero⟩
  have first := Nat.find_spec unnoticed
  have before (k : Nat) (below : k < Nat.find unnoticed) : Noticed (A.matrix n ^ k) :=
    not_not.mp (Nat.find_min unnoticed below)
  have early : Nat.find unnoticed ≤ n := Nat.find_min' unnoticed (nilpotent.symm ▸ not_noticed_zero)
  obtain ⟨exp', called, sum⟩ := smlsMatExpm_returns rows room room' (early.trans octets) before first
  have exact_iff : ExpmExact sqrtf n A exp ↔ A.matrix n ^ Nat.find unnoticed = 0 := by
    rw [← expSum_eq_iff K nilpotent early, ← sum]
    constructor
    · rintro ⟨exp'', called', same⟩
      cases called.symm.trans called'
      exact same
    · intro same
      exact ⟨exp', called, same⟩
  rw [exact_iff]
  constructor
  · intro zero k _ _ nonzero
    apply before k
    by_contra behind
    exact nonzero (pow_vanishes zero (Nat.not_lt.mp behind))
  · intro notices
    by_contra nonzero
    have positive : Nat.find unnoticed ≠ 0 := by
      intro none
      rw [none, pow_zero] at first
      exact first (noticed_one (by omega))
    have inside : Nat.find unnoticed ≠ n := fun same => nonzero (same.symm ▸ nilpotent)
    exact first (notices _ (by omega) (by omega) nonzero)

end

/-- The rows `0, 1` and `0, 0`. -/
def shiftMatrix : Buffer ℚ := ⟨4, fun i => [0, 1, 0, 0].getD i 0⟩

theorem expm_iff_small : ExpmExact id 2 shiftMatrix (⟨4, fun _ => 0⟩ : Buffer ℚ) := by
  refine (expm_iff id (by decide) (by decide) (by decide) (by decide) (by decide +kernel)).mpr ?_
  intro k first below _
  obtain rfl : k = 1 := by omega
  decide +kernel

/-- The rows `0, -1` and `0, 0`. -/
def negativeShift : Buffer ℚ := ⟨4, fun i => [0, -1, 0, 0].getD i 0⟩

/-- The loop ends before it adds the first power, whose only entry is negative. -/
theorem expm_negative : negativeShift.matrix 2 ^ 2 = 0 ∧
    (smlsMatExpm id negativeShift (⟨4, fun _ => 0⟩ : Buffer ℚ) 2).map (fun exp => exp.cells 1) = some 0 ∧
    ¬ ExpmExact id 2 negativeShift (⟨4, fun _ => 0⟩ : Buffer ℚ) := by
  have ran : (smlsMatExpm id negativeShift (⟨4, fun _ => 0⟩ : Buffer ℚ) 2).map
      (fun exp => exp.cells 1) = some 0 := by decide +kernel
  refine ⟨by decide +kernel, ran, ?_⟩
  rintro ⟨exp', called, sum⟩
  rw [called, Option.map_some, Option.some.injEq] at ran
  have entry : exp'.cells 1 = expSum ℚ (negativeShift.matrix 2) 2 0 1 := congrFun (congrFun sum 0) 1
  have value : expSum ℚ (negativeShift.matrix 2) 2 0 1 = -1 := by decide +kernel
  rw [ran, value] at entry
  exact absurd entry (by decide)

end Simuless.Linalg
