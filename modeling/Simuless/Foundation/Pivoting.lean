import Mathlib.Algebra.Order.Field.Basic
import Simuless.Foundation.Elimination

/-! Elimination with partial pivoting.

A stage brings up the first row with an entry of largest magnitude in its column
and eliminates the column with it. It stalls on a column whose entries are all
refused as pivots.
-/

set_option autoImplicit false

namespace Simuless.Foundation

variable {K : Type} [Field K]

section
variable [LinearOrder K] {n stage best : Nat} {packed : Nat → Nat → K}

/-- The first row from the stage on with an entry of largest magnitude in its column. -/
structure IsPivot (n stage : Nat) (packed : Nat → Nat → K) (best : Nat) : Prop where
  behind : stage ≤ best
  inside : best < n
  largest : ∀ t, stage ≤ t → t < n → |packed t stage| ≤ |packed best stage|
  first : ∀ t, stage ≤ t → t < best → |packed t stage| < |packed best stage|

theorem IsPivot.le {best' : Nat} (pivot : IsPivot n stage packed best)
    (pivot' : IsPivot n stage packed best') : best ≤ best' := by
  by_contra later
  have smaller := pivot.first best' pivot'.behind (Nat.lt_of_not_le later)
  exact absurd smaller (not_lt.mpr (pivot'.largest best pivot.behind pivot.inside))

theorem IsPivot.congr {packed' : Nat → Nat → K} (pivot : IsPivot n stage packed best)
    (same : ∀ i < n, packed' i stage = packed i stage) : IsPivot n stage packed' best := by
  refine ⟨pivot.behind, pivot.inside, fun t above below => ?_, fun t above before => ?_⟩
  · rw [same t below, same best pivot.inside]
    exact pivot.largest t above below
  · rw [same t (before.trans pivot.inside), same best pivot.inside]
    exact pivot.first t above before

/-- Pivots of magnitude below a tolerance. -/
def tiny (tolerance : K) (pivot : K) : Prop := |pivot| < tolerance

instance (tolerance : K) : DecidablePred (tiny tolerance) := fun pivot =>
  inferInstanceAs (Decidable (|pivot| < tolerance))

/-- A test that refuses zero, and with a pivot every smaller one. -/
structure Refusal (refused : K → Prop) : Prop where
  zero : refused 0
  smaller : ∀ small large, |small| ≤ |large| → refused large → refused small

theorem Refusal.nonzero {refused : K → Prop} (refusal : Refusal refused) {pivot : K}
    (accepted : ¬ refused pivot) : pivot ≠ 0 := by
  rintro rfl
  exact accepted refusal.zero

theorem refusal_tiny [IsStrictOrderedRing K] {tolerance : K} (positive : 0 < tolerance) :
    Refusal (tiny tolerance) where
  zero := by
    rw [tiny, abs_zero]
    exact positive
  smaller := fun _ _ order refused => order.trans_lt refused

theorem refusal_zero [IsStrictOrderedRing K] : Refusal fun pivot : K => pivot = 0 where
  zero := rfl
  smaller := by
    rintro small large order rfl
    rw [abs_zero] at order
    exact abs_nonpos_iff.mp order

/-- The rows in their positions and the packed factors after this many stages. -/
inductive Pivoted (n : Nat) (refused : K → Prop) (A : Nat → Nat → K) :
    Nat → (Nat → Nat) → (Nat → Nat → K) → Prop where
  | start : Pivoted n refused A 0 id A
  | step {stage best : Nat} {order : Nat → Nat} {packed : Nat → Nat → K} :
      Pivoted n refused A stage order packed → stage < n → IsPivot n stage packed best →
        ¬ refused (packed best stage) → Pivoted n refused A (stage + 1)
          (order ∘ Equiv.swap stage best) (eliminate stage fun i => packed (Equiv.swap stage best i))

/-- Before the last column a stage is reached in whose column every entry is refused. -/
def StallsOn (n : Nat) (refused : K → Prop) (A : Nat → Nat → K) : Prop :=
  ∃ stage < n - 1, ∃ order packed, Pivoted n refused A stage order packed ∧
    ∀ t, stage ≤ t → t < n → refused (packed t stage)

/-- A stage is reached in whose column no entry meets the tolerance. -/
def Stalls (n : Nat) (tolerance : K) (A : Nat → Nat → K) : Prop := StallsOn n (tiny tolerance) A

namespace Pivoted

variable {refused : K → Prop} {A : Nat → Nat → K} {order : Nat → Nat}

theorem unique {order' : Nat → Nat} {packed' : Nat → Nat → K}
    (pivoted : Pivoted n refused A stage order packed)
    (pivoted' : Pivoted n refused A stage order' packed') : order = order' ∧ packed = packed' := by
  induction pivoted generalizing order' packed' with
  | start =>
    cases pivoted'
    exact ⟨rfl, rfl⟩
  | step reached inside pivot accepted ih =>
    cases pivoted' with
    | step reached' inside' pivot' accepted' =>
      obtain ⟨rfl, rfl⟩ := ih reached'
      obtain rfl := Nat.le_antisymm (pivot.le pivot') (pivot'.le pivot)
      exact ⟨rfl, rfl⟩

/-- Every stage that was gone through had a pivot. -/
theorem earlier (pivoted : Pivoted n refused A stage order packed) {k : Nat} (before : k < stage) :
    ∃ order packed best, Pivoted n refused A k order packed ∧ IsPivot n k packed best ∧
      ¬ refused (packed best k) := by
  induction pivoted with
  | start => exact absurd before (Nat.not_lt_zero k)
  | step reached inside pivot accepted ih =>
    rcases Nat.lt_succ_iff_lt_or_eq.mp before with before | rfl
    · exact ih before
    · exact ⟨_, _, _, reached, pivot, accepted⟩

theorem not_stalls (pivoted : Pivoted n refused A (n - 1) order packed) : ¬ StallsOn n refused A := by
  rintro ⟨stage, before, order', packed', reached, small⟩
  obtain ⟨order'', packed'', best, reached', pivot, accepted⟩ := pivoted.earlier before
  obtain ⟨rfl, rfl⟩ := reached.unique reached'
  exact accepted (small best pivot.behind pivot.inside)

theorem pivots (pivoted : Pivoted n refused A stage order packed) {k : Nat} (before : k < stage) :
    ¬ refused (packed k k) := by
  induction pivoted with
  | start => exact absurd before (Nat.not_lt_zero k)
  | step reached inside pivot accepted ih =>
    rw [eliminate_finished _ (Or.inl (Nat.le_of_lt_succ before))]
    rcases Nat.lt_succ_iff_lt_or_eq.mp before with before | rfl
    · rw [swap_finished pivot.behind before]
      exact ih before
    · rw [Equiv.swap_apply_left]
      exact accepted

variable (refusal : Refusal refused) (pivoted : Pivoted n refused A stage order packed)
include refusal pivoted

/-- The packed factors multiply to the matrix with its rows in their positions. -/
theorem product {i : Nat} (inRow : i < n) (j : Nat) :
    unpacked stage packed i j = A (order i) j := by
  induction pivoted generalizing i with
  | start => exact unpacked_start A i j
  | @step stage best order packed reached inside pivot accepted ih =>
    have nonzero : packed (Equiv.swap stage best stage) stage ≠ 0 := by
      rw [Equiv.swap_apply_left]
      exact refusal.nonzero accepted
    rw [unpacked_eliminate nonzero, unpacked_swap pivot.behind]
    exact ih (swap_lt inside pivot.inside inRow)

theorem multipliers [IsStrictOrderedRing K] {i k : Nat} (inRow : i < n) (before : k < min i stage) :
    |packed i k| ≤ 1 := by
  induction pivoted generalizing i with
  | start => exact absurd before (by omega)
  | @step stage best order packed reached inside pivot accepted ih =>
    rcases Nat.lt_succ_iff_lt_or_eq.mp (before.trans_le (Nat.min_le_right _ _)) with earlier | rfl
    · rw [eliminate_finished _ (Or.inr earlier)]
      apply ih (swap_lt inside pivot.inside inRow)
      rw [min_swap pivot.behind]
      omega
    · have below : k < i := before.trans_le (Nat.min_le_left _ _)
      have dominated := pivot.largest _ (swap_unfinished pivot.behind below.le)
        (swap_lt inside pivot.inside inRow)
      have positive : 0 < |packed best k| := abs_pos.mpr (refusal.nonzero accepted)
      rw [eliminate_column _ below, Equiv.swap_apply_left, abs_div]
      exact (div_le_one positive).mpr dominated

end Pivoted

end

end Simuless.Foundation
