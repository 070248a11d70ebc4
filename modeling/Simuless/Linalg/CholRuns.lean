import Simuless.Linalg.Chol
import Simuless.Linalg.CholDowndate

/-! Runs of updates and downdates of one factor.

A downdate goes through exactly where the matrix it leads to is positive
definite. As long as that holds, the factor kept up to date is the one that a
factorisation of the changed matrix gives.
-/

set_option autoImplicit false

namespace Simuless.Linalg

open Foundation
open scoped Matrix

variable {K : Type}

/-- The arguments of one call of `smls_mat_chol_update`. -/
structure RankOneChange (K : Type) where
  xx : Buffer K
  rankOneUpdate : Bool

/-- Calls one after the other; no call tells whether it returned early. -/
def cholRun [Field K] [LinearOrder K] (sqrtf : K → K) (row : Nat) (changes : List (RankOneChange K))
    (L : Buffer K) : Option (Buffer K) :=
  changes.foldlM (fun L change =>
    (smlsMatCholUpdate sqrtf L change.xx row change.rankOneUpdate).map leftFactor) L

/-- What a change adds to the matrix that the factor stands for. -/
def RankOneChange.outer [Field K] (n : Nat) (change : RankOneChange K) : Matrix (Fin n) (Fin n) K :=
  (weight change.rankOneUpdate : K) • Matrix.vecMulVec (change.xx.vector n) (change.xx.vector n)

/-- The matrix behind all changes. -/
def changed [Field K] (n : Nat) (A : Matrix (Fin n) (Fin n) K) (changes : List (RankOneChange K)) :
    Matrix (Fin n) (Fin n) K :=
  A + (changes.map (RankOneChange.outer n)).sum

theorem changed_cons [Field K] (n : Nat) (A : Matrix (Fin n) (Fin n) K) (change : RankOneChange K)
    (rest : List (RankOneChange K)) :
    changed n A (change :: rest) = changed n (A + change.outer n) rest := by
  rw [changed, changed, List.map_cons, List.sum_cons, add_assoc]

/-! One call. -/

section
variable {n k : Nat} {L x : Buffer ℝ} {rankOneUpdate : Bool}

/-- What the columns still stand for, seen from the next diagonal entry. -/
theorem represented_bordered {factor : Nat → Nat → ℝ} {rest : Nat → ℝ} (sign : ℝ)
    (lower : ∀ i < n, ∀ j < n, i < j → factor i j = 0) (inside : k < n) :
    Bordered k (represented n sign k factor rest) factor
      (factor k k * factor k k + sign * (rest k * rest k)) where
  lower := fun i above j before => lower i (by omega) j (by omega)
  entries := by
    intro i above j above'
    rw [represented, (gram_bordered lower inside).entries i above j above', add_assoc]
    congr 1
    by_cases last : i = k ∧ j = k
    · rw [if_pos last, if_pos last, last.1, last.2, remaining, if_neg (Nat.lt_irrefl k)]
    · rw [if_neg last, if_neg last, zero_add, remaining, remaining]
      by_cases before : i < k
      · rw [if_pos before, zero_mul, mul_zero]
      · rw [if_pos (by omega : j < k), mul_zero, mul_zero]

/-- A call that leads to a positive definite matrix goes through. -/
theorem cholUpdate_proceeds (rows : n ≤ 46340) (room : n * n ≤ L.size ∧ n ≤ x.size)
    (factor : CholFactor n (L.entry n))
    (definite : (L.matrix n * (L.matrix n)ᵀ + (RankOneChange.mk x rankOneUpdate).outer n).PosDef) :
    Returns (smlsMatCholUpdate Real.sqrt L x n rankOneUpdate) (Flow.Ends (fun _ => False) fun L' =>
      n * n ≤ L'.size ∧ CholFactor n (L'.entry n) ∧
        L'.matrix n * (L'.matrix n)ᵀ =
          L.matrix n * (L.matrix n)ᵀ + (RankOneChange.mk x rankOneUpdate).outer n) := by
  have entry (a b : Fin n) : (L.matrix n * (L.matrix n)ᵀ + (RankOneChange.mk x rankOneUpdate).outer n) a b =
      gram n (L.entry n) a b + weight rankOneUpdate * (x.cells a * x.cells b) := by
    rw [Matrix.add_apply, gram_matrix]
    rfl
  apply Returns.known (Buffer.copy_whole x n (fun _ => 0) room.2)
  have start : Sweeping n rankOneUpdate (L.entry n) x.cells 0 (startSweep n L x) := by
    refine ⟨⟨room.1, Nat.le_refl n⟩, factor, fun i inRow j inColumn => ?_⟩
    rw [represented_zero, startSweep_x inRow, startSweep_x inColumn]
    rfl
  refine Returns.next (Returns.flow _ (fun _ => False) (Nat.zero_le n) start ?_) ?_
  · intro k sweep _ inside sweeping
    have bordered : Bordered k (represented n (weight rankOneUpdate) k (sweep.L.entry n) sweep.x.cells)
        (sweep.L.entry n) (radicand rankOneUpdate sweep n k) :=
      represented_bordered _ sweeping.factor.lower inside
    have positive : 0 < radicand rankOneUpdate sweep n k := by
      refine (bordered.posDef_iff fun j before =>
        (sweeping.factor.diagonal j (before.trans inside)).ne').mp ?_
      have whole := definite.submatrix (Fin.castLE_injective (Nat.succ_le_of_lt inside))
      refine Eq.mp (congrArg Matrix.PosDef ?_) whole
      ext a b
      rw [Matrix.submatrix_apply, entry]
      exact (sweeping.kept a (by omega) b (by omega)).symm
    refine (sweeping.column sqrt_exact inside (indexed_small rows inside)).weaken fun flow ends => ?_
    cases flow with
    | leave L => exact absurd positive (not_lt.mpr ends)
    | proceed next => exact ends
  · intro flow _ ends
    cases flow with
    | leave L => exact ends.elim
    | proceed sweep =>
      refine Returns.done ⟨ends.fits.L, ends.factor, ?_⟩
      ext a b
      rw [gram_matrix, entry, ← ends.kept a a.isLt b b.isLt, represented_last a.isLt]

/-- A downdate goes through if and only if the matrix it leads to is positive definite. -/
theorem downdate_proceeds_iff (rows : n ≤ 46340) (room : n * n ≤ L.size ∧ n ≤ x.size)
    (factor : CholFactor n (L.entry n)) :
    (∃ L', smlsMatCholUpdate Real.sqrt L x n false = some (.proceed L')) ↔
      (L.matrix n * (L.matrix n)ᵀ - Matrix.vecMulVec (x.vector n) (x.vector n)).PosDef := by
  have outer : (RankOneChange.mk x false).outer n = -Matrix.vecMulVec (x.vector n) (x.vector n) := by
    rw [RankOneChange.outer, weight, if_neg Bool.false_ne_true, neg_one_smul]
  constructor
  · rintro ⟨L', called⟩
    obtain ⟨flow, called', ends⟩ := cholUpdate_ends sqrt_exact rows room factor false
    cases called.symm.trans called'
    have definite := gram_posDef ends.1.lower fun i inside => (ends.1.diagonal i inside).ne'
    refine Eq.mp (congrArg Matrix.PosDef ?_) definite
    ext a b
    rw [Matrix.sub_apply, gram_matrix, sub_eq_add_neg, corner, ends.2 a a.isLt b b.isLt, weight,
      if_neg Bool.false_ne_true, neg_one_mul]
    rfl
  · intro definite
    rw [sub_eq_add_neg, ← outer] at definite
    obtain ⟨flow, called, ends⟩ := cholUpdate_proceeds rows room factor definite
    cases flow with
    | leave L' => exact ends.elim
    | proceed L' => exact ⟨L', called⟩

end

/-- A downdate to a singular matrix does not go through. -/
theorem downdate_proceeds_iff_ones : ¬ ∃ L', smlsMatCholUpdate Real.sqrt lowerOnes
    ⟨2, fun i => if i = 1 then 1 else 0⟩ 2 false = some (.proceed L') := by
  have room : 2 * 2 ≤ lowerOnes.size ∧ 2 ≤ (⟨2, fun i => if i = 1 then 1 else 0⟩ : Buffer ℝ).size :=
    ⟨Nat.le_refl 4, Nat.le_refl 2⟩
  rw [downdate_proceeds_iff (by decide) room lowerOnes_factor]
  intro definite
  have regular := ((Matrix.isUnit_iff_isUnit_det _).mp definite.isUnit).ne_zero
  rw [Matrix.det_fin_two] at regular
  simp [gram_matrix, gram, Finset.sum_range_succ, Buffer.entry, Buffer.vector, lowerOnes,
    Matrix.vecMulVec_apply] at regular

/-! Whole runs. -/

section
variable {n : Nat} {A B L L' : Buffer ℝ} {changes : List (RankOneChange ℝ)}

/-- As long as the matrix stays positive definite, the factor follows it. -/
theorem cholRun_returns (rows : n ≤ 46340) (vectors : ∀ change ∈ changes, n ≤ change.xx.size)
    (room : n * n ≤ L.size)
    (factor : CholFactor n (L.entry n))
    (definite : ∀ earlier, earlier <+: changes → (changed n (L.matrix n * (L.matrix n)ᵀ) earlier).PosDef) :
    Returns (cholRun Real.sqrt n changes L) fun L' => n * n ≤ L'.size ∧ CholFactor n (L'.entry n) ∧
      L'.matrix n * (L'.matrix n)ᵀ = changed n (L.matrix n * (L.matrix n)ᵀ) changes := by
  induction changes generalizing L with
  | nil => exact Returns.done ⟨room, factor, (add_zero _).symm⟩
  | cons change rest ih =>
    have first := definite [change] ⟨rest, rfl⟩
    rw [changed_cons, changed, List.map_nil, List.sum_nil, add_zero] at first
    obtain ⟨flow, called, ends⟩ := cholUpdate_proceeds rows
      ⟨room, vectors change List.mem_cons_self⟩ factor first
    cases flow with
    | leave L' => exact ends.elim
    | proceed L' =>
      obtain ⟨room', factor', product⟩ := ends
      rw [cholRun, List.foldlM_cons, called, changed_cons, ← product]
      refine ih (fun other member => vectors other (List.mem_cons_of_mem change member)) room' factor'
        fun earlier part => ?_
      rw [leftFactor, product, ← changed_cons]
      exact definite (change :: earlier) (List.cons_prefix_cons.mpr ⟨rfl, part⟩)

/-- Two factors of one matrix are the same. -/
theorem CholFactor.unique (factor : CholFactor n (L.entry n)) (factor' : CholFactor n (L'.entry n))
    (same : L.matrix n * (L.matrix n)ᵀ = L'.matrix n * (L'.matrix n)ᵀ) : L.matrix n = L'.matrix n := by
  have entries := factor_unique factor.lower factor'.lower factor.diagonal factor'.diagonal
    fun i inRow j inColumn => by
      have entry := congrFun (congrFun same ⟨i, inRow⟩) ⟨j, inColumn⟩
      rwa [gram_matrix, gram_matrix] at entry
  ext i j
  exact entries j j.isLt i i.isLt

/-- A factor that is kept up to date is the one that the changed matrix is factored into. -/
theorem cholRun_refactors (rows : n ≤ 46340) (room : n * n ≤ A.size ∧ n * n ≤ B.size)
    (room' : n * n ≤ L.size ∧ n * n ≤ L'.size)
    (vectors : ∀ change ∈ changes, n ≤ change.xx.size)
    (definite : ∀ earlier, earlier <+: changes → (changed n (A.matrix n) earlier).PosDef)
    (same : B.matrix n = changed n (A.matrix n) changes) :
    ∃ updated anew, (smlsMatChol Real.sqrt A L n >>= cholRun Real.sqrt n changes) = some updated ∧
      smlsMatChol Real.sqrt B L' n = some anew ∧ updated.matrix n = anew.matrix n := by
  have whole := definite changes (List.prefix_refl changes)
  have bare := definite [] List.nil_prefix
  rw [changed, List.map_nil, List.sum_nil, add_zero] at bare
  obtain ⟨first, called, size, factor, entries⟩ := smlsMatChol_factors rows room.1 room'.1 bare
  obtain ⟨anew, called', -, factor', entries'⟩ := smlsMatChol_factors rows room.2 room'.2 (same ▸ whole)
  have product := gram_product entries
  obtain ⟨updated, ran, -, factor'', product''⟩ := cholRun_returns rows vectors (size.symm ▸ room'.1) factor
    fun earlier part => by
      rw [product]
      exact definite earlier part
  refine ⟨updated, anew, ?_, called', ?_⟩
  · rw [called]
    exact ran
  · refine factor''.unique factor' ?_
    rw [product'', product, gram_product entries', same]

/-- Calls of one kind with these vectors. -/
def changesOf (rankOneUpdate : Bool) (vectors : List (Buffer ℝ)) : List (RankOneChange ℝ) :=
  vectors.map (RankOneChange.mk · rankOneUpdate)

/-- The sum of the outer products. -/
def outers (n : Nat) (vectors : List (Buffer ℝ)) : Matrix (Fin n) (Fin n) ℝ :=
  (vectors.map fun x => Matrix.vecMulVec (x.vector n) (x.vector n)).sum

theorem outers_posSemidef (vectors : List (Buffer ℝ)) : (outers n vectors).PosSemidef := by
  induction vectors with
  | nil => exact Matrix.PosSemidef.zero
  | cons x rest ih =>
    rw [outers, List.map_cons, List.sum_cons]
    exact (Matrix.posSemidef_vecMulVec_self_star (x.vector n)).add ih

theorem changed_changesOf (rankOneUpdate : Bool) (vectors : List (Buffer ℝ))
    (A : Matrix (Fin n) (Fin n) ℝ) :
    changed n A (changesOf rankOneUpdate vectors) = A + (weight rankOneUpdate : ℝ) • outers n vectors := by
  rw [changed, changesOf, outers, List.map_map, List.smul_sum, List.map_map]
  rfl

theorem changesOf_sizes {vectors : List (Buffer ℝ)} (sizes : ∀ x ∈ vectors, n ≤ x.size) (kind : Bool) :
    ∀ change ∈ changesOf kind vectors, n ≤ change.xx.size := by
  intro change member
  obtain ⟨x, inside, rfl⟩ := List.mem_map.mp member
  exact sizes x inside

theorem changed_updates (A : Matrix (Fin n) (Fin n) ℝ) (vectors : List (Buffer ℝ)) :
    changed n A (changesOf true vectors) = A + outers n vectors := by
  rw [changed_changesOf, weight, if_pos rfl, one_smul]

theorem changed_downdates (A : Matrix (Fin n) (Fin n) ℝ) (vectors : List (Buffer ℝ)) :
    changed n A (changesOf false vectors) = A - outers n vectors := by
  rw [changed_changesOf, weight, if_neg Bool.false_ne_true, neg_one_smul, sub_eq_add_neg]

/-- Updates alone keep a matrix positive definite. -/
theorem updates_definite {A : Matrix (Fin n) (Fin n) ℝ} (definite : A.PosDef) (vectors : List (Buffer ℝ)) :
    ∀ earlier, earlier <+: changesOf true vectors → (changed n A earlier).PosDef := by
  intro earlier part
  obtain ⟨taken, -, rfl⟩ := List.prefix_map_iff.mp part
  have whole := definite.add_posSemidef (outers_posSemidef taken)
  rwa [← changed_updates] at whole

/-- Updates, and later the downdates with the same vectors in any order, leave the factor as it was. -/
theorem cholRun_restores {vectors back : List (Buffer ℝ)} (rows : n ≤ 46340)
    (sizes : ∀ x ∈ vectors, n ≤ x.size) (reordered : back.Perm vectors) (room : n * n ≤ L.size)
    (factor : CholFactor n (L.entry n)) :
    ∃ L', cholRun Real.sqrt n (changesOf true vectors ++ changesOf false back) L = some L' ∧
      L'.matrix n = L.matrix n := by
  have start := factor.posDef
  obtain ⟨high, ran, room', factor', product⟩ := cholRun_returns rows (changesOf_sizes sizes true) room factor
    (updates_definite start vectors)
  have total : outers n vectors = outers n back := (reordered.map _).sum_eq.symm
  rw [changed_updates, total] at product
  obtain ⟨low, ran', -, factor'', product'⟩ := cholRun_returns rows
    (changesOf_sizes (fun x member => sizes x (reordered.subset member)) false) room' factor'
    fun earlier part => by
      -- what is not taken away yet is still a sum of outer products
      obtain ⟨taken, ⟨rest, rfl⟩, rfl⟩ := List.prefix_map_iff.mp part
      have split : outers n (taken ++ rest) = outers n rest + outers n taken := by
        rw [outers, List.map_append, List.sum_append, add_comm]
        rfl
      have left := start.add_posSemidef (outers_posSemidef rest)
      rwa [← add_sub_cancel_right (_ + _) (outers n taken), add_assoc, ← split, ← product,
        ← changed_downdates] at left
  refine ⟨low, ?_, factor''.unique factor ?_⟩
  · rw [cholRun, List.foldlM_append]
    exact (congrArg (· >>= _) ran).trans ran'
  · rw [product', changed_downdates, product, add_sub_cancel_right]

end

/-- The rows `2, 2` and `2, 3`. -/
def onesChanged : Buffer ℝ := ⟨4, fun i => if i = 3 then 1 + 1 + 1 else 1 + 1⟩

theorem cholRun_refactors_ones : ∃ updated anew, (smlsMatChol Real.sqrt onesGram ⟨4, fun _ => 0⟩ 2 >>=
      cholRun Real.sqrt 2 (changesOf true [⟨2, fun _ => 1⟩])) = some updated ∧
    smlsMatChol Real.sqrt onesChanged ⟨4, fun _ => 0⟩ 2 = some anew ∧
      updated.matrix 2 = anew.matrix 2 := by
  refine cholRun_refactors (by decide) ⟨Nat.le_refl 4, Nat.le_refl 4⟩ ⟨Nat.le_refl 4, Nat.le_refl 4⟩
    (changesOf_sizes ?_ true) (updates_definite onesGram_posDef _) ?_
  · intro x member
    cases List.mem_singleton.mp member
    exact Nat.le_refl 2
  · rw [changed_updates, outers, List.map_singleton, List.sum_singleton]
    ext a b
    fin_cases a <;> fin_cases b <;>
      simp [Buffer.matrix, Buffer.entry, Buffer.vector, onesGram, onesChanged, Matrix.vecMulVec_apply]

theorem cholRun_restores_ones : ∃ L', cholRun Real.sqrt 2
    (changesOf true [⟨2, fun _ => 1⟩, ⟨2, fun _ => 5⟩] ++
      changesOf false [⟨2, fun _ => 5⟩, ⟨2, fun _ => 1⟩]) lowerOnes = some L' ∧
    L'.matrix 2 = lowerOnes.matrix 2 := by
  refine cholRun_restores (by decide) ?_ (List.Perm.swap _ _ _) (Nat.le_refl 4) lowerOnes_factor
  intro x member
  rcases List.mem_pair.mp member with rfl | rfl
  · exact Nat.le_refl 2
  · exact Nat.le_refl 2

end Simuless.Linalg
