import Mathlib.Analysis.Real.Sqrt
import Mathlib.LinearAlgebra.Matrix.PosDef
import Simuless.Foundation.RankOne
import Simuless.Linalg.Buffer

/-! Rank-one update and downdate of a Cholesky factor, in place.

A sweep over the columns rewrites the factor and a working copy of the vector.
A downdate returns early from the first column whose new diagonal entry would
not be positive; the columns before it are rewritten by then.
-/

set_option autoImplicit false

namespace Simuless.Linalg

open Foundation
open scoped Matrix

variable {K : Type}

/-- The factor and the working copy of the vector. -/
structure Sweep (K : Type) where
  L : Buffer K
  x : Buffer K

section
variable [Field K] [LinearOrder K]

/-- One turn of the inner loop, below the diagonal. -/
def cholEntry (row k : Nat) (rankOneUpdate : Bool) (c s : K) (sweep : Sweep K) (i : Nat) :
    Option (Sweep K) := do
  let xiOld ← sweep.x.read i
  let LikOld ← sweep.L.readInt (row * i + k)
  let Lik ← quotient (if rankOneUpdate then LikOld + s * xiOld else LikOld - s * xiOld) c
  let L ← sweep.L.writeInt (row * i + k) Lik
  let Lik ← L.readInt (row * i + k)
  let x ← sweep.x.write i (c * xiOld - s * Lik)
  return ⟨L, x⟩

def cholColumn (sqrtf : K → K) (row : Nat) (rankOneUpdate : Bool) (sweep : Sweep K) (k : Nat) :
    Option (Flow (Buffer K) (Sweep K)) := do
  let Lkk ← sweep.L.readInt (row * k + k)
  let xk ← sweep.x.read k
  let tmp := if rankOneUpdate then Lkk * Lkk + xk * xk else Lkk * Lkk - xk * xk
  if tmp ≤ 0 then return .leave sweep.L
  let r := sqrtf tmp
  let c ← quotient r Lkk
  let s ← quotient xk Lkk
  let L ← sweep.L.writeInt (row * k + k) r
  let sweep ← (upTo (k + 1) row).foldlM (cholEntry row k rankOneUpdate c s) ⟨L, sweep.x⟩
  return .proceed sweep

/-- The factor afterwards, and whether the function was left early. -/
def smlsMatCholUpdate (sqrtf : K → K) (L xx : Buffer K) (row : Nat) (rankOneUpdate : Bool) :
    Option (Flow (Buffer K) (Buffer K)) := do
  let x ← (⟨row, fun _ => 0⟩ : Buffer K).copy xx row
  match ← flowLoop (cholColumn sqrtf row rankOneUpdate) (upTo 0 row) ⟨L, x⟩ with
  | .leave L => return .leave L
  | .proceed sweep => return .proceed sweep.L

end

/-! One column. -/

/-- Both buffers hold what a sweep over `n` columns accesses. -/
structure Sweep.Fits (sweep : Sweep K) (n : Nat) : Prop where
  L : n * n ≤ sweep.L.size
  x : n ≤ sweep.x.size

theorem Sweep.Fits.entry {sweep : Sweep K} {n i j : Nat} (fits : sweep.Fits n) (inRow : i < n)
    (inColumn : j < n) : n * i + j < sweep.L.size :=
  (flat_lt inRow inColumn).trans_le fits.L

/-- The indices of a column from its diagonal entry on are within the range of `int`. -/
def Indexed (n k : Nat) : Prop := ∀ i, k ≤ i → i < n → n * i + k ≤ intMax

theorem indexed_small {n k : Nat} (rows : n ≤ 46340) (inside : k < n) : Indexed n k :=
  fun _ _ inRow => flat_small rows inRow inside

section
variable [Field K]

/-- Plus one for an update, minus one for a downdate. -/
def weight (rankOneUpdate : Bool) : K := if rankOneUpdate then 1 else -1

theorem weighted (rankOneUpdate : Bool) (a b : K) :
    (if rankOneUpdate then a + b else a - b) = a + weight rankOneUpdate * b := by
  cases rankOneUpdate
  · rw [if_neg Bool.false_ne_true, weight, if_neg Bool.false_ne_true, neg_one_mul, sub_eq_add_neg]
  · rw [if_pos rfl, weight, if_pos rfl, one_mul]

variable {n k : Nat} {rankOneUpdate : Bool} {c s : K} {start : Sweep K}

/-- The entry that the inner loop writes in this row. -/
def rotated (rankOneUpdate : Bool) (c s : K) (start : Sweep K) (n k i : Nat) : K :=
  (start.L.entry n i k + weight rankOneUpdate * (s * start.x.cells i)) / c

/-- The inner loop has handled the rows from below the diagonal up to `i`. -/
structure Below (n k : Nat) (rankOneUpdate : Bool) (c s : K) (start : Sweep K) (i : Nat)
    (sweep : Sweep K) : Prop where
  fits : sweep.Fits n
  L : ∀ t < n, ∀ j < n, sweep.L.entry n t j =
    if k < t ∧ t < i ∧ j = k then rotated rankOneUpdate c s start n k t else start.L.entry n t j
  x : ∀ t < n, sweep.x.cells t =
    if k < t ∧ t < i then c * start.x.cells t - s * rotated rankOneUpdate c s start n k t
    else start.x.cells t

variable [LinearOrder K]

theorem Below.entry {i : Nat} {sweep : Sweep K} (below : Below n k rankOneUpdate c s start i sweep)
    (nonzero : c ≠ 0) (under : k < i) (inside : i < n) (small : n * i + k ≤ intMax) :
    Returns (cholEntry n k rankOneUpdate c s sweep i) (Below n k rankOneUpdate c s start (i + 1)) := by
  have inColumn : k < n := under.trans inside
  have index := below.fits.entry inside inColumn
  have inVector : i < sweep.x.size := inside.trans_le below.fits.x
  have oldL : sweep.L.cells (n * i + k) = start.L.entry n i k :=
    (below.L i inside k inColumn).trans (if_neg (by omega))
  have oldx : sweep.x.cells i = start.x.cells i := (below.x i inside).trans (if_neg (by omega))
  have value : (if rankOneUpdate then sweep.L.cells (n * i + k) + s * sweep.x.cells i
      else sweep.L.cells (n * i + k) - s * sweep.x.cells i) / c =
        rotated rankOneUpdate c s start n k i := by
    rw [weighted, oldL, oldx]
    rfl
  apply Returns.known (sweep.x.read_inside inVector)
  apply Returns.known (sweep.L.readInt_inside index small)
  apply Returns.known (quotient_nonzero nonzero _)
  apply Returns.known (sweep.L.writeInt_inside index small _)
  apply Returns.known (Buffer.readInt_inside (sweep.L.set _ _) index small)
  apply Returns.known (sweep.x.write_inside inVector _)
  apply Returns.done
  rw [value, Buffer.set_same, oldx]
  constructor
  case fits => exact ⟨below.fits.L, below.fits.x⟩
  case L =>
    intro t inRow j inColumn'
    rw [Buffer.entry_set inColumn inColumn', below.L t inRow j inColumn']
    by_cases here : t = i ∧ j = k
    · rw [if_pos here, if_pos (by omega), here.1]
    · rw [if_neg here]
      exact if_congr (by omega) rfl rfl
  case x =>
    intro t inRow
    by_cases here : t = i
    · rw [here, Buffer.set_same, if_pos (by omega)]
    · rw [Buffer.set_other _ here, below.x t inRow]
      exact if_congr (by omega) rfl rfl

/-- What the new diagonal entry is the root of. -/
def radicand (rankOneUpdate : Bool) (start : Sweep K) (n k : Nat) : K :=
  start.L.entry n k k * start.L.entry n k k +
    weight rankOneUpdate * (start.x.cells k * start.x.cells k)

/-- What a column that is not left early has done. -/
structure Swept (n k : Nat) (rankOneUpdate : Bool) (r : K) (start next : Sweep K) : Prop where
  fits : next.Fits n
  corner : next.L.entry n k k = r
  below : ∀ i < n, k < i →
    next.L.entry n i k = (start.L.entry n i k + weight rankOneUpdate *
      (start.x.cells k / start.L.entry n k k * start.x.cells i)) / (r / start.L.entry n k k) ∧
    next.x.cells i = r / start.L.entry n k k * start.x.cells i -
      start.x.cells k / start.L.entry n k k * next.L.entry n i k
  others : ∀ i < n, ∀ j < n, j ≠ k ∨ i < k → next.L.entry n i j = start.L.entry n i j

/-- The diagonal entry is written. -/
def Sweep.cornered (sweep : Sweep K) (n k : Nat) (r : K) : Sweep K := ⟨sweep.L.set (n * k + k) r, sweep.x⟩

/-- A column is left with the factor as it is if the root does not exist, and else goes on below. -/
theorem cholColumn_opens (sqrtf : K → K) (rankOneUpdate : Bool) (fits : start.Fits n) (inside : k < n)
    (diagonal : start.L.entry n k k ≠ 0) (small : n * k + k ≤ intMax) :
    cholColumn sqrtf n rankOneUpdate start k =
      let r := sqrtf (radicand rankOneUpdate start n k)
      if radicand rankOneUpdate start n k ≤ 0 then some (.leave start.L)
      else ((upTo (k + 1) n).foldlM (cholEntry n k rankOneUpdate (r / start.L.entry n k k)
        (start.x.cells k / start.L.entry n k k)) (start.cornered n k r)).map .proceed := by
  have index := fits.entry inside inside
  have value : start.L.cells (n * k + k) * start.L.cells (n * k + k) +
      weight rankOneUpdate * (start.x.cells k * start.x.cells k) = radicand rankOneUpdate start n k := rfl
  refine (Returns.bind_known (start.L.readInt_inside index small)).trans ?_
  refine (Returns.bind_known (start.x.read_inside (inside.trans_le fits.x))).trans ?_
  rw [weighted, value]
  refine if_congr Iff.rfl rfl ?_
  refine (Returns.bind_known (quotient_nonzero diagonal _)).trans ?_
  refine (Returns.bind_known (quotient_nonzero diagonal _)).trans ?_
  refine (Returns.bind_known (start.L.writeInt_inside index small _)).trans ?_
  rw [Option.map_eq_bind]
  rfl

omit [LinearOrder K] in
theorem below_cornered (fits : start.Fits n) (r : K) :
    Below n k rankOneUpdate c s (start.cornered n k r) (k + 1) (start.cornered n k r) := by
  refine ⟨⟨fits.L, fits.x⟩, ?_, ?_⟩
  · intro t _ j _
    exact (if_neg (by omega)).symm
  · intro t _
    exact (if_neg (by omega)).symm

omit [LinearOrder K] in
theorem Below.swept {r : K} {next : Sweep K} (inside : k < n)
    (finished : Below n k rankOneUpdate (r / start.L.entry n k k) (start.x.cells k / start.L.entry n k k)
      (start.cornered n k r) n next) : Swept n k rankOneUpdate r start next := by
  have old (i : Nat) (j : Nat) (inColumn : j < n) : (start.cornered n k r).L.entry n i j =
      if i = k ∧ j = k then r else start.L.entry n i j := Buffer.entry_set inside inColumn r
  refine ⟨finished.fits, ?_, ?_, ?_⟩
  · rw [finished.L k inside k inside, if_neg (by omega), old k k inside, if_pos ⟨rfl, rfl⟩]
  · intro i inRow under
    rw [finished.L i inRow k inside, finished.x i inRow, if_pos ⟨under, inRow, rfl⟩,
      if_pos ⟨under, inRow⟩, rotated, old i k inside, if_neg (by omega)]
    exact ⟨rfl, rfl⟩
  · intro i inRow j inColumn apart
    rw [finished.L i inRow j inColumn, if_neg (by omega), old i j inColumn, if_neg (by omega)]

/-- A column with indices that are `int`s comes to its end. -/
theorem cholColumn_ends (sqrtf : K → K) (rankOneUpdate : Bool) (fits : start.Fits n) (inside : k < n)
    (diagonal : start.L.entry n k k ≠ 0) (indexed : Indexed n k)
    (root : 0 < radicand rankOneUpdate start n k → sqrtf (radicand rankOneUpdate start n k) ≠ 0) :
    Returns (cholColumn sqrtf n rankOneUpdate start k) (Flow.Ends
      (fun L => L = start.L ∧ radicand rankOneUpdate start n k ≤ 0)
      fun next => 0 < radicand rankOneUpdate start n k ∧
        Swept n k rankOneUpdate (sqrtf (radicand rankOneUpdate start n k)) start next) := by
  rw [cholColumn_opens sqrtf rankOneUpdate fits inside diagonal (indexed k (Nat.le_refl k) inside)]
  apply Returns.check
  · intro early
    exact Returns.done ⟨rfl, early⟩
  · intro positive
    have cosine := div_ne_zero (root (not_le.mp positive)) diagonal
    obtain ⟨next, ran, finished⟩ := Returns.loop _ (Nat.succ_le_of_lt inside)
      (below_cornered fits (sqrtf (radicand rankOneUpdate start n k))) fun i sweep under below held =>
        held.entry cosine under below (indexed i (Nat.le_of_lt under) below)
    rw [ran]
    exact Returns.done ⟨not_le.mp positive, finished.swept inside⟩

/-! Columns that have a result. -/

theorem cholEntry_index {sweep next : Sweep K} {i : Nat}
    (ran : cholEntry n k rankOneUpdate c s sweep i = some next) : n * i + k ≤ intMax := by
  obtain ⟨xi, -, rest⟩ := Option.bind_eq_some_iff.mp ran
  obtain ⟨Lik, read, -⟩ := Option.bind_eq_some_iff.mp rest
  exact sweep.L.readInt_ran read

theorem cholColumn_index {sqrtf : K → K} {flow : Flow (Buffer K) (Sweep K)}
    (ran : cholColumn sqrtf n rankOneUpdate start k = some flow) : n * k + k ≤ intMax := by
  obtain ⟨Lkk, read, -⟩ := Option.bind_eq_some_iff.mp ran
  exact start.L.readInt_ran read

/-- A column that is gone through has indices that are `int`s. -/
theorem cholColumn_indexed {sqrtf : K → K} {next : Sweep K} (inside : k < n)
    (ran : cholColumn sqrtf n rankOneUpdate start k = some (.proceed next)) : Indexed n k := by
  have corner := cholColumn_index ran
  obtain ⟨Lkk, -, rest⟩ := Option.bind_eq_some_iff.mp ran
  obtain ⟨xk, -, rest⟩ := Option.bind_eq_some_iff.mp rest
  dsimp only at rest
  rw [weighted] at rest
  split at rest
  case isTrue early => cases rest
  case isFalse positive =>
    obtain ⟨c, -, rest⟩ := Option.bind_eq_some_iff.mp rest
    obtain ⟨s, -, rest⟩ := Option.bind_eq_some_iff.mp rest
    obtain ⟨L, -, rest⟩ := Option.bind_eq_some_iff.mp rest
    obtain ⟨last, loop, -⟩ := Option.bind_eq_some_iff.mp rest
    obtain ⟨-, turns⟩ := Returns.loop_turns (fun _ => True) (Nat.succ_le_of_lt inside) trivial
      (fun _ _ _ _ _ => trivial) loop
    intro i since inRow
    rcases Nat.lt_or_eq_of_le since with under | rfl
    · obtain ⟨sweep, next, -, turn⟩ := turns i under inRow
      exact cholEntry_index turn
    · exact corner

/-- What a column that has a result has done. -/
theorem cholColumn_ran {sqrtf : K → K} {flow : Flow (Buffer K) (Sweep K)} (fits : start.Fits n)
    (inside : k < n) (diagonal : start.L.entry n k k ≠ 0)
    (root : 0 < radicand rankOneUpdate start n k → sqrtf (radicand rankOneUpdate start n k) ≠ 0)
    (ran : cholColumn sqrtf n rankOneUpdate start k = some flow) : Flow.Ends
      (fun L => L = start.L ∧ radicand rankOneUpdate start n k ≤ 0)
      (fun next => 0 < radicand rankOneUpdate start n k ∧
        Swept n k rankOneUpdate (sqrtf (radicand rankOneUpdate start n k)) start next) flow := by
  cases flow with
  | proceed next =>
    have total := cholColumn_ends sqrtf rankOneUpdate fits inside diagonal
      (cholColumn_indexed inside ran) root
    obtain ⟨flow, ran', ends⟩ := total
    cases ran.symm.trans ran'
    exact ends
  | leave L =>
    rw [cholColumn_opens sqrtf rankOneUpdate fits inside diagonal (cholColumn_index ran)] at ran
    dsimp only at ran
    split at ran
    case isTrue early =>
      cases ran
      exact ⟨rfl, early⟩
    case isFalse positive =>
      obtain ⟨sweep, -, same⟩ := Option.map_eq_some_iff.mp ran
      cases same

end

/-! The sweep. -/

section
variable [Field K]

/-- A lower triangular matrix with positive diagonal. -/
structure CholFactor [LinearOrder K] (n : Nat) (L : Nat → Nat → K) : Prop where
  lower : ∀ i < n, ∀ j < n, i < j → L i j = 0
  diagonal : ∀ i < n, 0 < L i i

/-- A column is a rotation of the factor against the vector. -/
theorem Swept.rotates [LinearOrder K] {n k : Nat} {rankOneUpdate : Bool} {r : K} {start next : Sweep K}
    (swept : Swept n k rankOneUpdate r start next) (factor : CholFactor n (start.L.entry n))
    (inside : k < n) (nonzero : r ≠ 0) (square : r * r = radicand rankOneUpdate start n k) :
    Rotates n (weight rankOneUpdate) k (start.L.entry n) (next.L.entry n) start.x.cells next.x.cells r
      (r / start.L.entry n k k) (start.x.cells k / start.L.entry n k k) where
  column := inside
  diagonal := (factor.diagonal k inside).ne'
  nonzero := nonzero
  square := square
  cosine := rfl
  sine := rfl
  above := by
    intro i before
    have zero := factor.lower i (before.trans inside) k inside before
    exact ⟨zero, (swept.others i (before.trans inside) k inside (Or.inr before)).trans zero⟩
  corner := swept.corner
  below := swept.below
  others := fun i inRow j inColumn apart => swept.others i inRow j inColumn (Or.inl apart)

theorem Swept.factor [LinearOrder K] {n k : Nat} {rankOneUpdate : Bool} {r : K} {start next : Sweep K}
    (swept : Swept n k rankOneUpdate r start next) (factor : CholFactor n (start.L.entry n))
    (positive : 0 < r) : CholFactor n (next.L.entry n) where
  lower := by
    intro i inRow j inColumn before
    rw [swept.others i inRow j inColumn (by omega)]
    exact factor.lower i inRow j inColumn before
  diagonal := by
    intro i inRow
    by_cases here : i = k
    · rw [here, swept.corner]
      exact positive
    · rw [swept.others i inRow i inRow (Or.inl here)]
      exact factor.diagonal i inRow

variable [LinearOrder K]

/-- Up to column `k` the factor and the rest of the vector stand for what they stood for. -/
structure Sweeping (n : Nat) (rankOneUpdate : Bool) (L : Nat → Nat → K) (x : Nat → K) (k : Nat)
    (sweep : Sweep K) : Prop where
  fits : sweep.Fits n
  factor : CholFactor n (sweep.L.entry n)
  kept : ∀ i < n, ∀ j < n, represented n (weight rankOneUpdate) k (sweep.L.entry n) sweep.x.cells i j =
    gram n L i j + weight rankOneUpdate * (x i * x j)

/-- The exact square root of positive numbers. -/
def ExactRoot (sqrtf : K → K) : Prop := ∀ t, 0 < t → 0 < sqrtf t ∧ sqrtf t * sqrtf t = t

theorem Sweeping.column {n k : Nat} {rankOneUpdate : Bool} {L : Nat → Nat → K} {x : Nat → K}
    {sweep : Sweep K} (sweeping : Sweeping n rankOneUpdate L x k sweep) {sqrtf : K → K}
    (exact_root : ExactRoot sqrtf) (inside : k < n) (indexed : Indexed n k) :
    Returns (cholColumn sqrtf n rankOneUpdate sweep k) (Flow.Ends
      (fun _ => radicand rankOneUpdate sweep n k ≤ 0) (Sweeping n rankOneUpdate L x (k + 1))) := by
  obtain ⟨fits, factor, kept⟩ := sweeping
  have ends := cholColumn_ends sqrtf rankOneUpdate fits inside
    (factor.diagonal k inside).ne' indexed fun positive => (exact_root _ positive).1.ne'
  refine ends.weaken fun flow ends => ?_
  cases flow with
  | leave L => exact ends.2
  | proceed next =>
    obtain ⟨positive, swept⟩ := ends
    obtain ⟨root, square⟩ := exact_root _ positive
    have rotates := swept.rotates factor inside root.ne' square
    refine ⟨swept.fits, swept.factor factor root, fun i inRow j inColumn => ?_⟩
    rw [rotates.represented_eq inRow inColumn]
    exact kept i inRow j inColumn

end

/-! The whole call. -/

section
variable [Field K] [LinearOrder K] [IsStrictOrderedRing K] {n : Nat}

/-- The root of an update always exists. -/
theorem radicand_update {k : Nat} {sweep : Sweep K} (factor : CholFactor n (sweep.L.entry n))
    (inside : k < n) : 0 < radicand true sweep n k := by
  have corner := mul_pos (factor.diagonal k inside) (factor.diagonal k inside)
  have square := mul_self_nonneg (sweep.x.cells k)
  rw [radicand, weight, if_pos rfl, one_mul]
  exact add_pos_of_pos_of_nonneg corner square

/-- Only a downdate is left early; a call that is not has changed what the factor
stands for by the outer product of the vector. -/
theorem cholUpdate_ends {sqrtf : K → K} (exact_root : ExactRoot sqrtf) {L x : Buffer K}
    (rows : n ≤ 46340) (room : n * n ≤ L.size ∧ n ≤ x.size) (factor : CholFactor n (L.entry n))
    (rankOneUpdate : Bool) :
    Returns (smlsMatCholUpdate sqrtf L x n rankOneUpdate) (Flow.Ends (fun _ => rankOneUpdate = false)
      fun L' => CholFactor n (L'.entry n) ∧ ∀ i < n, ∀ j < n, gram n (L'.entry n) i j =
        gram n (L.entry n) i j + weight rankOneUpdate * (x.cells i * x.cells j)) := by
  have copied := Buffer.copy_whole x n (fun _ => 0) room.2
  apply Returns.known copied
  have start : Sweeping n rankOneUpdate (L.entry n) x.cells 0
      ⟨L, ⟨n, fun i => if i < n then x.cells i else 0⟩⟩ := by
    refine ⟨⟨room.1, Nat.le_refl n⟩, factor, fun i inRow j inColumn => ?_⟩
    rw [represented_zero]
    simp only [if_pos inRow, if_pos inColumn]
  refine Returns.next (Returns.flow _ (fun _ => rankOneUpdate = false) (Nat.zero_le n) start ?_) ?_
  · intro k sweep _ inside sweeping
    refine (sweeping.column exact_root inside (indexed_small rows inside)).weaken fun flow ends => ?_
    cases flow with
    | leave L =>
      cases rankOneUpdate with
      | false => rfl
      | true => exact absurd (radicand_update sweeping.factor inside) (not_lt.mpr ends)
    | proceed next => exact ends
  · intro flow _ ends
    cases flow with
    | leave L => exact Returns.done ends
    | proceed sweep =>
      refine Returns.done ⟨ends.factor, fun i inRow j inColumn => ?_⟩
      rw [← ends.kept i inRow j inColumn, represented_last inRow]

omit [LinearOrder K] [IsStrictOrderedRing K] in
theorem gram_matrix (buffer : Buffer K) (i j : Fin n) :
    (buffer.matrix n * (buffer.matrix n)ᵀ) i j = gram n (buffer.entry n) i j := by
  rw [Matrix.mul_apply, gram, Finset.sum_range]
  rfl

end

theorem sqrt_exact : ExactRoot Real.sqrt := fun _ positive =>
  ⟨Real.sqrt_pos.mpr positive, Real.mul_self_sqrt positive.le⟩

/-- Up to 46340 rows an update goes through and adds the outer product of the vector; a downdate that
goes through subtracts it. Both leave a triangular factor with positive diagonal. -/
theorem cholUpdate_correct {n : Nat} {L x : Buffer ℝ} (rows : n ≤ 46340) (room : n * n ≤ L.size ∧ n ≤ x.size)
    (factor : CholFactor n (L.entry n)) :
    (∃ L', smlsMatCholUpdate Real.sqrt L x n true = some (.proceed L') ∧ CholFactor n (L'.entry n) ∧
      L'.matrix n * (L'.matrix n)ᵀ =
        L.matrix n * (L.matrix n)ᵀ + Matrix.vecMulVec (x.vector n) (x.vector n)) ∧
    ∃ flow, smlsMatCholUpdate Real.sqrt L x n false = some flow ∧
      ∀ L', flow = .proceed L' → CholFactor n (L'.entry n) ∧
        L'.matrix n * (L'.matrix n)ᵀ =
          L.matrix n * (L.matrix n)ᵀ - Matrix.vecMulVec (x.vector n) (x.vector n) := by
  constructor
  · obtain ⟨flow, called, ends⟩ := cholUpdate_ends sqrt_exact rows room factor true
    cases flow with
    | leave _ => exact absurd ends.symm Bool.false_ne_true
    | proceed L' =>
      refine ⟨L', called, ends.1, ?_⟩
      ext i j
      rw [gram_matrix, ends.2 i i.isLt j j.isLt, Matrix.add_apply, gram_matrix, weight, if_pos rfl,
        one_mul]
      rfl
  · obtain ⟨flow, called, ends⟩ := cholUpdate_ends sqrt_exact rows room factor false
    refine ⟨flow, called, ?_⟩
    rintro L' rfl
    refine ⟨ends.1, ?_⟩
    ext i j
    rw [gram_matrix, ends.2 i i.isLt j j.isLt, Matrix.sub_apply, gram_matrix, weight,
      if_neg Bool.false_ne_true, neg_one_mul, ← sub_eq_add_neg]
    rfl

/-- Ones on and below the diagonal of a matrix with two rows. -/
def lowerOnes : Buffer ℝ := ⟨4, fun i => if i = 1 then 0 else 1⟩

theorem lowerOnes_factor : CholFactor 2 (lowerOnes.entry 2) where
  lower := by
    intro i _ j inColumn before
    exact if_pos (by omega)
  diagonal := by
    intro i _
    have kept : lowerOnes.entry 2 i i = 1 := if_neg (by omega)
    rw [kept]
    exact one_pos

theorem cholUpdate_lowerOnes :
    (∃ L', smlsMatCholUpdate Real.sqrt lowerOnes ⟨2, fun _ => 1⟩ 2 true = some (.proceed L') ∧
      CholFactor 2 (L'.entry 2) ∧ L'.matrix 2 * (L'.matrix 2)ᵀ =
        lowerOnes.matrix 2 * (lowerOnes.matrix 2)ᵀ + Matrix.vecMulVec (fun _ => 1) fun _ => 1) ∧
    ∃ flow, smlsMatCholUpdate Real.sqrt lowerOnes ⟨2, fun _ => 1 / 2⟩ 2 false = some flow ∧
      ∀ L', flow = .proceed L' → CholFactor 2 (L'.entry 2) ∧ L'.matrix 2 * (L'.matrix 2)ᵀ =
        lowerOnes.matrix 2 * (lowerOnes.matrix 2)ᵀ - Matrix.vecMulVec (fun _ => 1 / 2) fun _ => 1 / 2 := by
  have room (item : ℝ) : 2 * 2 ≤ lowerOnes.size ∧ 2 ≤ (⟨2, fun _ => item⟩ : Buffer ℝ).size :=
    ⟨Nat.le_refl 4, Nat.le_refl 2⟩
  exact ⟨(cholUpdate_correct (by decide) (room 1) lowerOnes_factor).1,
    (cholUpdate_correct (by decide) (room (1 / 2)) lowerOnes_factor).2⟩

/-! More rows. -/

/-- With more rows no call gets through the last column: its index is not an `int`. -/
theorem cholUpdate_overflows {n : Nat} (many : 46340 < n) (L xx : Buffer ℝ) (rankOneUpdate : Bool) :
    ¬ ∃ L', smlsMatCholUpdate Real.sqrt L xx n rankOneUpdate = some (.proceed L') := by
  rintro ⟨L', called⟩
  obtain ⟨x, -, rest⟩ := Option.bind_eq_some_iff.mp called
  obtain ⟨flow, looped, last⟩ := Option.bind_eq_some_iff.mp rest
  have ends := Returns.flow_ran (fun k _ => ∀ j < k, Indexed n j) (fun _ => True) (Nat.zero_le n)
    (fun j before => absurd before (Nat.not_lt_zero j)) (fun k sweep flow _ inside held turned => by
      cases flow with
      | leave L => trivial
      | proceed next =>
        intro j before
        rcases Nat.lt_succ_iff_lt_or_eq.mp before with before | rfl
        · exact held j before
        · exact cholColumn_indexed inside turned) looped
  cases flow with
  | leave L => cases last
  | proceed sweep =>
    have corner := ends (n - 1) (by omega) (n - 1) (Nat.le_refl _) (by omega)
    have large : 46341 * 46340 ≤ n * (n - 1) := Nat.mul_le_mul (by omega) (by omega)
    rw [intMax] at corner
    omega

/-- The identity. -/
def unitFactor (n : Nat) : Buffer ℝ := ⟨n * n, fun k => if k / n = k % n then 1 else 0⟩

theorem unitFactor_entry {n i j : Nat} (inColumn : j < n) :
    (unitFactor n).entry n i j = if i = j then 1 else 0 := by
  have positive := Nat.zero_lt_of_lt inColumn
  rw [Buffer.entry, unitFactor]
  simp only [Nat.mul_add_div positive, Nat.div_eq_of_lt inColumn, Nat.add_zero, Nat.mul_add_mod,
    Nat.mod_eq_of_lt inColumn]

theorem unitFactor_factor (n : Nat) : CholFactor n ((unitFactor n).entry n) where
  lower := by
    intro i _ j inColumn before
    rw [unitFactor_entry inColumn, if_neg before.ne]
  diagonal := by
    intro i inRow
    rw [unitFactor_entry inRow, if_pos rfl]
    exact one_pos

/-- The identity of 46341 rows is not updated. -/
theorem cholUpdate_unit_overflows : ¬ ∀ (n : Nat) (L x : Buffer ℝ), 1 ≤ n → n < 2 ^ 16 →
    n * n ≤ L.size ∧ n ≤ x.size → CholFactor n (L.entry n) →
      ∃ L', smlsMatCholUpdate Real.sqrt L x n true = some (.proceed L') := by
  intro completes
  have called := completes 46341 (unitFactor 46341) ⟨46341, fun _ => 0⟩ (by decide) (by decide)
    ⟨le_rfl, le_rfl⟩ (unitFactor_factor 46341)
  exact cholUpdate_overflows (by decide) _ _ _ called

end Simuless.Linalg
