import Mathlib.Algebra.BigOperators.Field
import Mathlib.Analysis.SpecialFunctions.Pow.Real
import Mathlib.LinearAlgebra.Matrix.Charpoly.Basic

/-! Balancing by powers of two.

A row is divided by a power of two and the column of the same number multiplied
with it, when this makes their entries apart from the diagonal smaller by a
fixed ratio. There is no end to such steps only if the entries of some rows and
columns become as small as one likes. Then the powers descend along every entry
of these, from rows that are left alone to columns that are left alone, although
those stay as they are.
-/

set_option autoImplicit false

namespace Simuless.Foundation

variable {n : Nat} {M M' : Matrix (Fin n) (Fin n) ℝ} {i : Fin n}

/-! Powers of two. -/

/-- Every row divided by a power of two, and the column multiplied with it. -/
noncomputable def scaledBy (M : Matrix (Fin n) (Fin n) ℝ) (k : Fin n → ℤ) : Matrix (Fin n) (Fin n) ℝ :=
  Matrix.of fun p q => M p q * (1 + 1) ^ (k q - k p)

theorem scaledBy_apply (M : Matrix (Fin n) (Fin n) ℝ) (k : Fin n → ℤ) (p q : Fin n) :
    scaledBy M k p q = M p q * 2 ^ (k q - k p) := by
  rw [scaledBy, Matrix.of_apply, one_add_one_eq_two]

theorem scaledBy_zero (M : Matrix (Fin n) (Fin n) ℝ) : scaledBy M 0 = M := by
  ext p q
  rw [scaledBy_apply, Pi.zero_apply, Pi.zero_apply, sub_zero, zpow_zero, mul_one]

theorem scaledBy_scaledBy (M : Matrix (Fin n) (Fin n) ℝ) (k k' : Fin n → ℤ) :
    scaledBy (scaledBy M k) k' = scaledBy M (k + k') := by
  ext p q
  rw [scaledBy_apply, scaledBy_apply, scaledBy_apply, mul_assoc, ← zpow_add₀ two_ne_zero]
  congr 2
  simp only [Pi.add_apply]
  ring

theorem scaledBy_zero_iff {k : Fin n → ℤ} {p q : Fin n} : scaledBy M k p q = 0 ↔ M p q = 0 := by
  rw [scaledBy_apply, mul_eq_zero, or_iff_left (zpow_ne_zero _ two_ne_zero)]

/-- The matrix is similar to what it was. -/
theorem charpoly_scaledBy (M : Matrix (Fin n) (Fin n) ℝ) (k : Fin n → ℤ) :
    (scaledBy M k).charpoly = M.charpoly := by
  let D := Matrix.diagonal fun p => (2 : ℝ) ^ k p
  let D' := Matrix.diagonal fun p => (2 : ℝ) ^ (-k p)
  have inverse : D * D' = 1 := by
    rw [Matrix.diagonal_mul_diagonal, ← Matrix.diagonal_one]
    congr 1
    funext p
    rw [← zpow_add₀ two_ne_zero, add_neg_cancel, zpow_zero]
  have product : scaledBy M k = D' * (M * D) := by
    ext p q
    rw [Matrix.diagonal_mul, Matrix.mul_diagonal, scaledBy_apply, zpow_sub₀ two_ne_zero, zpow_neg]
    field_simp
  rw [product, Matrix.charpoly_mul_comm, Matrix.mul_assoc, inverse, Matrix.mul_one]

/-! Sums of magnitudes. -/

/-- The entries of a column apart from the diagonal. -/
def inward (M : Matrix (Fin n) (Fin n) ℝ) (i : Fin n) : ℝ := ∑ j, if j = i then 0 else |M j i|

/-- The entries of a row apart from the diagonal. -/
def outward (M : Matrix (Fin n) (Fin n) ℝ) (i : Fin n) : ℝ := ∑ j, if j = i then 0 else |M i j|

theorem magnitude_nonneg (condition : Prop) [Decidable condition] (x : ℝ) :
    0 ≤ if condition then 0 else |x| := by
  split
  · exact le_rfl
  · exact abs_nonneg x

theorem inward_nonneg (M : Matrix (Fin n) (Fin n) ℝ) (i : Fin n) : 0 ≤ inward M i :=
  Finset.sum_nonneg fun _ _ => magnitude_nonneg _ _

theorem outward_nonneg (M : Matrix (Fin n) (Fin n) ℝ) (i : Fin n) : 0 ≤ outward M i :=
  Finset.sum_nonneg fun _ _ => magnitude_nonneg _ _

/-- No entry of a column is larger than their sum. -/
theorem entry_le_inward {j : Fin n} (apart : j ≠ i) : |M j i| ≤ inward M i := by
  have single := Finset.single_le_sum (fun j _ => magnitude_nonneg (j = i) (M j i)) (Finset.mem_univ j)
  rwa [if_neg apart] at single

theorem entry_le_outward {j : Fin n} (apart : j ≠ i) : |M i j| ≤ outward M i := by
  have single := Finset.single_le_sum (fun j _ => magnitude_nonneg (j = i) (M i j)) (Finset.mem_univ j)
  rwa [if_neg apart] at single

theorem exists_inward (nonzero : inward M i ≠ 0) : ∃ j, j ≠ i ∧ M j i ≠ 0 := by
  obtain ⟨j, -, different⟩ := Finset.exists_ne_zero_of_sum_ne_zero nonzero
  by_cases same : j = i
  · exact absurd (if_pos same) different
  · rw [if_neg same, abs_ne_zero] at different
    exact ⟨j, same, different⟩

theorem exists_outward (nonzero : outward M i ≠ 0) : ∃ j, j ≠ i ∧ M i j ≠ 0 := by
  obtain ⟨j, -, different⟩ := Finset.exists_ne_zero_of_sum_ne_zero nonzero
  by_cases same : j = i
  · exact absurd (if_pos same) different
  · rw [if_neg same, abs_ne_zero] at different
    exact ⟨j, same, different⟩

/-- All entries apart from the diagonal. -/
def magnitude (M : Matrix (Fin n) (Fin n) ℝ) : ℝ := ∑ p, ∑ q, if p = q then 0 else |M p q|

/-- The entries in neither the row nor the column. -/
def elsewhere (M : Matrix (Fin n) (Fin n) ℝ) (i : Fin n) : ℝ :=
  ∑ p, ∑ q, if p = q ∨ p = i ∨ q = i then 0 else |M p q|

theorem magnitude_nonneg_sum (M : Matrix (Fin n) (Fin n) ℝ) : 0 ≤ magnitude M :=
  Finset.sum_nonneg fun _ _ => Finset.sum_nonneg fun _ _ => magnitude_nonneg _ _

theorem magnitude_split (M : Matrix (Fin n) (Fin n) ℝ) (i : Fin n) :
    magnitude M = inward M i + outward M i + elsewhere M i := by
  have entry (p q : Fin n) : (if p = q then 0 else |M p q|) =
      (if q = i then if p = i then 0 else |M p q| else 0) +
        (if p = i then if q = i then 0 else |M p q| else 0) +
          if p = q ∨ p = i ∨ q = i then 0 else |M p q| := by
    by_cases row : p = i <;> by_cases column : q = i <;> simp [row, column]
    · exact fun same => absurd same.symm column
  have columns : ∑ p, ∑ q, (if q = i then if p = i then 0 else |M p q| else 0) = inward M i := by
    refine Finset.sum_congr rfl fun p _ => ?_
    rw [Finset.sum_ite_eq' Finset.univ i, if_pos (Finset.mem_univ i)]
  have rows : ∑ p, ∑ q, (if p = i then if q = i then 0 else |M p q| else 0) = outward M i := by
    rw [Finset.sum_comm]
    refine Finset.sum_congr rfl fun q _ => ?_
    rw [Finset.sum_ite_eq' Finset.univ i, if_pos (Finset.mem_univ i)]
  simp only [magnitude, entry, Finset.sum_add_distrib]
  rw [columns, rows]
  rfl

/-! Steps. -/

/-- A row and its column get smaller together by a ratio. -/
structure Rebalances (ratio : ℝ) (M M' : Matrix (Fin n) (Fin n) ℝ) (i : Fin n) (power : ℤ) : Prop where
  scaled : M' = scaledBy M (Pi.single i power)
  column : inward M i ≠ 0
  row : outward M i ≠ 0
  smaller : inward M' i + outward M' i < ratio * (inward M i + outward M i)

/-- A step, from the second matrix to the first. -/
def Rebalanced (ratio : ℝ) (M' M : Matrix (Fin n) (Fin n) ℝ) : Prop :=
  ∃ i power, Rebalances ratio M M' i power

section
variable {ratio : ℝ} {power : ℤ}

theorem single_unchanged {p q : Fin n} (row : p ≠ i) (column : q ≠ i) :
    scaledBy M (Pi.single i power) p q = M p q := by
  rw [scaledBy_apply, Pi.single_eq_of_ne row, Pi.single_eq_of_ne column, sub_zero, zpow_zero, mul_one]

theorem single_column {j : Fin n} (apart : j ≠ i) :
    scaledBy M (Pi.single i power) j i = M j i * 2 ^ power := by
  rw [scaledBy_apply, Pi.single_eq_same, Pi.single_eq_of_ne apart, sub_zero]

theorem single_row {j : Fin n} (apart : j ≠ i) :
    scaledBy M (Pi.single i power) i j = M i j / 2 ^ power := by
  rw [scaledBy_apply, Pi.single_eq_same, Pi.single_eq_of_ne apart, zero_sub, zpow_neg, div_eq_mul_inv]

/-- Dividing the row and then multiplying the column. -/
theorem scaledBy_single (M : Matrix (Fin n) (Fin n) ℝ) (i : Fin n) (power : ℤ) (p q : Fin n) :
    scaledBy M (Pi.single i power) p q =
      (if p = i then M p q / 2 ^ power else M p q) * if q = i then 2 ^ power else 1 := by
  by_cases row : p = i
  · rw [if_pos row, row]
    by_cases column : q = i
    · rw [if_pos column, column, div_mul_cancel₀ _ (zpow_ne_zero _ two_ne_zero), scaledBy_apply, sub_self,
        zpow_zero, mul_one]
    · rw [if_neg column, mul_one, single_row column]
  · rw [if_neg row]
    by_cases column : q = i
    · rw [if_pos column, column, single_column row]
    · rw [if_neg column, mul_one, single_unchanged row column]

theorem inward_scaled : inward (scaledBy M (Pi.single i power)) i = inward M i * 2 ^ power := by
  rw [inward, inward, Finset.sum_mul]
  apply Finset.sum_congr rfl
  intro j _
  split
  case isTrue => rw [zero_mul]
  case isFalse apart => rw [single_column apart, abs_mul, abs_of_pos (zpow_pos (two_pos (α := ℝ)) _)]

theorem outward_scaled : outward (scaledBy M (Pi.single i power)) i = outward M i / 2 ^ power := by
  rw [outward, outward, Finset.sum_div]
  apply Finset.sum_congr rfl
  intro j _
  split
  case isTrue => rw [zero_div]
  case isFalse apart => rw [single_row apart, abs_div, abs_of_pos (zpow_pos (two_pos (α := ℝ)) _)]

theorem elsewhere_scaled : elsewhere (scaledBy M (Pi.single i power)) i = elsewhere M i := by
  refine Finset.sum_congr rfl fun p _ => Finset.sum_congr rfl fun q _ => ?_
  by_cases outside : p = q ∨ p = i ∨ q = i
  · rw [if_pos outside, if_pos outside]
  · rw [if_neg outside, if_neg outside]
    simp only [not_or] at outside
    rw [single_unchanged outside.2.1 outside.2.2]

/-- A step takes its part of what it works on. -/
theorem Rebalances.falls (step : Rebalances ratio M M' i power) :
    (1 - ratio) * (inward M i + outward M i) ≤ magnitude M - magnitude M' := by
  have rest : elsewhere M' i = elsewhere M i := step.scaled ▸ elsewhere_scaled
  have smaller := step.smaller
  rw [magnitude_split M i, magnitude_split M' i, rest]
  linarith

/-- So the entries apart from the diagonal get smaller together. -/
theorem magnitude_descends (less : ratio < 1) (steps : Relation.TransGen (Rebalanced ratio) M' M) :
    magnitude M' ≤ magnitude M := by
  have step (M M' : Matrix (Fin n) (Fin n) ℝ) (step : Rebalanced ratio M' M) :
      magnitude M' ≤ magnitude M := by
    obtain ⟨i, power, step⟩ := step
    have nonneg := mul_nonneg (sub_pos.mpr less).le (add_nonneg (inward_nonneg M i) (outward_nonneg M i))
    exact sub_nonneg.mp (nonneg.trans step.falls)
  induction steps with
  | single once => exact step _ _ once
  | tail _ once ih => exact ih.trans (step _ _ once)

end

/-- The entries that are not zero are bounded from below. -/
theorem exists_least (M : Matrix (Fin n) (Fin n) ℝ) :
    ∃ least, 0 < least ∧ ∀ p q, M p q ≠ 0 → least ≤ |M p q| := by
  let positive (entry : Fin n × Fin n) : ℝ := if M entry.1 entry.2 = 0 then 1 else |M entry.1 entry.2|
  cases isEmpty_or_nonempty (Fin n × Fin n) with
  | inl empty => exact ⟨1, one_pos, fun p q => (empty.false (p, q)).elim⟩
  | inr filled =>
    obtain ⟨entry, least⟩ := Finite.exists_min positive
    refine ⟨positive entry, ?_, fun p q nonzero => (least (p, q)).trans_eq (if_neg nonzero)⟩
    simp only [positive]
    split
    case isTrue => exact one_pos
    case isFalse nonzero => exact abs_pos.mpr nonzero

/-! No end of steps. -/

/-- A run without an end. -/
structure Endless (ratio : ℝ) (run : ℕ → Matrix (Fin n) (Fin n) ℝ) (turn : ℕ → Fin n) (power : ℕ → ℤ) :
    Prop where
  less : ratio < 1
  step : ∀ t, Rebalances ratio (run t) (run (t + 1)) (turn t) (power t)

/-- The powers of two up to a step. -/
def powers (turn : ℕ → Fin n) (power : ℕ → ℤ) (t : ℕ) : Fin n → ℤ :=
  ∑ u ∈ Finset.range t, Pi.single (turn u) (power u)

/-- A row whose turn comes again and again. -/
def Recurs (turn : ℕ → Fin n) (i : Fin n) : Prop := ∀ N, ∃ t, N ≤ t ∧ turn t = i

section
variable {turn : ℕ → Fin n} {power : ℕ → ℤ}

/-- At last only such rows have turns. -/
theorem exists_settled (turn : ℕ → Fin n) : ∃ N, ∀ i, ¬ Recurs turn i → ∀ t, N ≤ t → turn t ≠ i := by
  have last (i : Fin n) : ∃ N, ¬ Recurs turn i → ∀ t, N ≤ t → turn t ≠ i := by
    by_cases recurs : Recurs turn i
    · exact ⟨0, fun other => absurd recurs other⟩
    · simp only [Recurs, not_forall, not_exists, not_and] at recurs
      obtain ⟨N, never⟩ := recurs
      exact ⟨N, fun _ => never⟩
  choose bound never using last
  refine ⟨Finset.univ.sup bound, fun i other t above => never i other t ?_⟩
  exact (Finset.le_sup (Finset.mem_univ i)).trans above

theorem powers_settled {N : ℕ} (never : ∀ t, N ≤ t → turn t ≠ i) {t : ℕ} (above : N ≤ t) :
    powers turn power t i = powers turn power N i := by
  induction t, above using Nat.le_induction with
  | base => rfl
  | succ t above ih =>
    rw [powers, Finset.sum_range_succ, Pi.add_apply, Pi.single_eq_of_ne (never t above).symm, add_zero]
    exact ih

end

namespace Endless

variable {ratio : ℝ} {run : ℕ → Matrix (Fin n) (Fin n) ℝ} {turn : ℕ → Fin n} {power : ℕ → ℤ}
  (endless : Endless ratio run turn power)
include endless

theorem scaled (t : ℕ) : run t = scaledBy (run 0) (powers turn power t) := by
  induction t with
  | zero => exact (scaledBy_zero _).symm
  | succ t ih =>
    rw [(endless.step t).scaled, ih, scaledBy_scaledBy, powers, powers, Finset.sum_range_succ]

/-- What the steps work on becomes as small as one likes. -/
theorem small {bound : ℝ} (positive : 0 < bound) :
    ∃ N, ∀ t, N ≤ t → inward (run t) (turn t) + outward (run t) (turn t) < bound := by
  have part : 0 < 1 - ratio := sub_pos.mpr endless.less
  have falls (t : ℕ) := (endless.step t).falls
  have nonneg (t : ℕ) : 0 ≤ inward (run t) (turn t) + outward (run t) (turn t) :=
    add_nonneg (inward_nonneg _ _) (outward_nonneg _ _)
  have antitone : Antitone fun t => magnitude (run t) := by
    apply antitone_nat_of_succ_le
    intro t
    have less := (mul_nonneg part.le (nonneg t)).trans (falls t)
    linarith
  have below : BddBelow (Set.range fun t => magnitude (run t)) :=
    ⟨0, Set.forall_mem_range.mpr fun t => magnitude_nonneg_sum _⟩
  have near : ⨅ t, magnitude (run t) < (⨅ t, magnitude (run t)) + (1 - ratio) * bound :=
    lt_add_of_pos_right _ (mul_pos part positive)
  obtain ⟨N, close⟩ := exists_lt_of_ciInf_lt near
  refine ⟨N, fun t above => ?_⟩
  have least := ciInf_le below (t + 1)
  have lower := antitone above
  have fall := falls t
  simp only at least lower
  exact lt_of_mul_lt_mul_left (by linarith) part.le

/-- So do the entries of the rows and columns that keep having turns. -/
theorem entries_small {bound : ℝ} (positive : 0 < bound) : ∃ N, ∀ t, N ≤ t → ∀ p q, p ≠ q →
    Recurs turn p ∨ Recurs turn q → |run t p q| < bound := by
  obtain ⟨N, below⟩ := endless.small positive
  -- behind a step all entries of its row and column are small
  have touched (t : ℕ) (above : N ≤ t) (p q : Fin n) (apart : p ≠ q) (here : p = turn t ∨ q = turn t) :
      |run (t + 1) p q| < bound := by
    have step := endless.step t
    have sum : inward (run (t + 1)) (turn t) + outward (run (t + 1)) (turn t) < bound := by
      have nonneg : 0 ≤ inward (run t) (turn t) + outward (run t) (turn t) :=
        add_nonneg (inward_nonneg _ _) (outward_nonneg _ _)
      have less := mul_le_of_le_one_left nonneg endless.less.le
      exact step.smaller.trans (less.trans_lt (below t above))
    rcases here with rfl | rfl
    · exact (entry_le_outward apart.symm).trans_lt
        ((le_add_of_nonneg_left (inward_nonneg _ _)).trans_lt sum)
    · exact (entry_le_inward apart).trans_lt
        ((le_add_of_nonneg_right (outward_nonneg _ _)).trans_lt sum)
  have step (t : ℕ) (above : N ≤ t) (p q : Fin n) (apart : p ≠ q) (held : |run t p q| < bound) :
      |run (t + 1) p q| < bound := by
    by_cases here : p = turn t ∨ q = turn t
    · exact touched t above p q apart here
    · simp only [not_or] at here
      rw [(endless.step t).scaled, single_unchanged here.1 here.2]
      exact held
  have since (i : Fin n) : ∃ N', Recurs turn i → N ≤ N' ∧ turn N' = i := by
    by_cases recurs : Recurs turn i
    · obtain ⟨t, above, same⟩ := recurs N
      exact ⟨t, fun _ => ⟨above, same⟩⟩
    · exact ⟨0, fun other => absurd other recurs⟩
  choose last turned using since
  refine ⟨Finset.univ.sup last + 1, fun t above p q apart recurs => ?_⟩
  obtain ⟨i, recurs, here⟩ : ∃ i, Recurs turn i ∧ (p = i ∨ q = i) :=
    recurs.elim (fun recurs => ⟨p, recurs, Or.inl rfl⟩) fun recurs => ⟨q, recurs, Or.inr rfl⟩
  obtain ⟨above', same⟩ := turned i recurs
  have behind : last i + 1 ≤ t := (Nat.succ_le_succ (Finset.le_sup (Finset.mem_univ i))).trans above
  clear above
  induction t, behind using Nat.le_induction with
  | base => exact touched (last i) above' p q apart (same.symm ▸ here)
  | succ t later ih => exact step t (above'.trans (Nat.le_of_succ_le later)) p q apart ih

/-- There is none. -/
theorem impossible : False := by
  obtain ⟨N, settled⟩ := exists_settled turn
  obtain ⟨least, positive, bounded⟩ := exists_least (run 0)
  let L : ℤ := ∑ x, |powers turn power N x|
  obtain ⟨N', small⟩ := endless.entries_small (mul_pos positive (zpow_pos two_pos (-L)))
  let t := max N N'
  -- along an entry of a row or column that recurs the powers descend
  have descends (p q : Fin n) (apart : p ≠ q) (recurs : Recurs turn p ∨ Recurs turn q)
      (nonzero : run 0 p q ≠ 0) : powers turn power t q < powers turn power t p - L := by
    have entry := small t (le_max_right N N') p q apart recurs
    rw [endless.scaled, scaledBy_apply, abs_mul, abs_of_pos (zpow_pos (two_pos (α := ℝ)) _)] at entry
    have power_small : (2 : ℝ) ^ (powers turn power t q - powers turn power t p) < 2 ^ (-L) := by
      refine lt_of_mul_lt_mul_left (entry.trans_le ?_) (abs_nonneg (run 0 p q))
      exact mul_le_mul_of_nonneg_right (bounded p q nonzero) (zpow_pos two_pos _).le
    have order := (zpow_lt_zpow_iff_right₀ one_lt_two).mp power_small
    linarith
  have early (u : ℕ) (p q : Fin n) (nonzero : run u p q ≠ 0) : run 0 p q ≠ 0 := by
    rw [endless.scaled, ne_eq, scaledBy_zero_iff] at nonzero
    exact nonzero
  have bound (x : Fin n) : |powers turn power N x| ≤ L :=
    Finset.single_le_sum (fun x _ => abs_nonneg (powers turn power N x)) (Finset.mem_univ x)
  have alone (x : Fin n) (other : ¬ Recurs turn x) : powers turn power t x = powers turn power N x :=
    powers_settled (settled x other) (le_max_left N N')
  classical
  let again := Finset.univ.filter fun x => Recurs turn x
  have some_again : again.Nonempty := by
    refine ⟨turn N, Finset.mem_filter.mpr ⟨Finset.mem_univ _, ?_⟩⟩
    by_contra other
    exact settled _ other N le_rfl rfl
  obtain ⟨high, inside, highest⟩ := again.exists_max_image (powers turn power t) some_again
  obtain ⟨low, inside', lowest⟩ := again.exists_min_image (powers turn power t) some_again
  have recurs := (Finset.mem_filter.mp inside).2
  have recurs' := (Finset.mem_filter.mp inside').2
  obtain ⟨u, -, same⟩ := recurs 0
  obtain ⟨u', -, same'⟩ := recurs' 0
  obtain ⟨j, apart, entry⟩ := exists_inward (endless.step u).column
  obtain ⟨j', apart', entry'⟩ := exists_outward (endless.step u').row
  rw [same] at apart entry
  rw [same'] at apart' entry'
  have above := descends j high apart (Or.inr recurs) (early u j high entry)
  have below := descends low j' apart'.symm (Or.inl recurs') (early u' low j' entry')
  have nonneg : 0 ≤ L := (abs_nonneg _).trans (bound j)
  have outside : ¬ Recurs turn j := fun recurs => by
    have order := highest j (Finset.mem_filter.mpr ⟨Finset.mem_univ j, recurs⟩)
    linarith
  have outside' : ¬ Recurs turn j' := fun recurs => by
    have order := lowest j' (Finset.mem_filter.mpr ⟨Finset.mem_univ j', recurs⟩)
    linarith
  have order := highest low inside'
  rw [alone j outside] at above
  rw [alone j' outside'] at below
  have upper := le_of_abs_le (bound j)
  have lower := neg_le_of_abs_le (bound j')
  linarith

end Endless

/-- Steps come to an end. -/
theorem rebalanced_wellFounded {ratio : ℝ} (less : ratio < 1) :
    WellFounded (Rebalanced ratio : Matrix (Fin n) (Fin n) ℝ → Matrix (Fin n) (Fin n) ℝ → Prop) := by
  rw [wellFounded_iff_isEmpty_descending_chain]
  refine ⟨fun ⟨run, steps⟩ => ?_⟩
  choose turn power step using steps
  exact Endless.impossible ⟨less, step⟩

end Simuless.Foundation
