import Mathlib.Algebra.BigOperators.Ring.Finset
import Mathlib.Algebra.Field.Basic
import Mathlib.Tactic.FieldSimp
import Mathlib.Tactic.LinearCombination
import Mathlib.Tactic.Ring

/-! Rank-one changes of a triangular factor, column by column.

A step rotates one column of the factor against a residual vector. The columns
before it are finished, and the entries of the residual before it no longer
count. What the factor and the residual stand for together does not change.
-/

set_option autoImplicit false

namespace Simuless.Foundation

variable {K : Type} [Field K]

/-- The product of a factor of `n` columns with its transpose. -/
def gram (n : Nat) (factor : Nat → Nat → K) (i j : Nat) : K :=
  ∑ k ∈ Finset.range n, factor i k * factor j k

/-- A vector whose entries before `k` are spent. -/
def remaining (k : Nat) (x : Nat → K) (i : Nat) : K := if i < k then 0 else x i

/-- What a factor and a residual from `k` on stand for, with the residual's sign. -/
def represented (n : Nat) (sign : K) (k : Nat) (factor : Nat → Nat → K) (x : Nat → K) (i j : Nat) :
    K :=
  gram n factor i j + sign * (remaining k x i * remaining k x j)

/-- Column `k` is rotated with cosine `c` and sine `s` to the new diagonal entry `r`. -/
structure Rotates (n : Nat) (sign : K) (k : Nat) (factor factor' : Nat → Nat → K) (x x' : Nat → K)
    (r c s : K) : Prop where
  column : k < n
  diagonal : factor k k ≠ 0
  nonzero : r ≠ 0
  square : r * r = factor k k * factor k k + sign * (x k * x k)
  cosine : c = r / factor k k
  sine : s = x k / factor k k
  above : ∀ i < k, factor i k = 0 ∧ factor' i k = 0
  corner : factor' k k = r
  below : ∀ i < n, k < i → factor' i k = (factor i k + sign * (s * x i)) / c ∧
    x' i = c * x i - s * factor' i k
  others : ∀ i < n, ∀ j < n, j ≠ k → factor' i j = factor i j

namespace Rotates

variable {n k : Nat} {sign : K} {factor factor' : Nat → Nat → K} {x x' : Nat → K} {r c s : K}
  (rotates : Rotates n sign k factor factor' x x' r c s)
include rotates

theorem cosine_ne : c ≠ 0 := by
  rw [rotates.cosine]
  exact div_ne_zero rotates.nonzero rotates.diagonal

theorem cosine_square : c * c = 1 + sign * (s * s) := by
  have diagonal := rotates.diagonal
  rw [rotates.cosine, rotates.sine]
  field_simp
  linear_combination rotates.square

/-- The old column in terms of the new one. -/
theorem below_old {i : Nat} (inside : i < n) (under : k < i) :
    factor i k = c * factor' i k - sign * (s * x i) := by
  have nonzero := rotates.cosine_ne
  rw [(rotates.below i inside under).1]
  field_simp
  ring

/-- The rotated column and the residual make up for each other. -/
theorem column_exchange {i j : Nat} (inside : i < n) (inside' : j < n) :
    factor' i k * factor' j k + sign * (remaining (k + 1) x' i * remaining (k + 1) x' j) =
      factor i k * factor j k + sign * (remaining k x i * remaining k x j) := by
  have spent (i : Nat) (before : i < k) : remaining k x i = 0 ∧ remaining (k + 1) x' i = 0 :=
    ⟨if_pos before, if_pos (Nat.lt_succ_of_lt before)⟩
  have now : remaining k x k = x k ∧ remaining (k + 1) x' k = 0 :=
    ⟨if_neg (Nat.lt_irrefl k), if_pos (Nat.lt_succ_self k)⟩
  have later (i : Nat) (under : k < i) : remaining k x i = x i ∧ remaining (k + 1) x' i = x' i :=
    ⟨if_neg (by omega), if_neg (by omega)⟩
  have scaled : r = c * factor k k := by
    rw [rotates.cosine, div_mul_cancel₀ _ rotates.diagonal]
  have sine : x k = s * factor k k := by
    rw [rotates.sine, div_mul_cancel₀ _ rotates.diagonal]
  have pythagoras := rotates.cosine_square
  -- the corner against an entry below it
  have mixed (i : Nat) (inside : i < n) (under : k < i) :
      r * factor' i k = factor k k * factor i k + sign * (x k * x i) := by
    rw [rotates.below_old inside under, scaled, sine]
    ring
  rcases Nat.lt_trichotomy i k with before | rfl | under
  · rw [(rotates.above i before).1, (rotates.above i before).2, (spent i before).1, (spent i before).2]
    ring
  · rw [rotates.corner, now.1, now.2]
    rcases Nat.lt_trichotomy j i with before | rfl | under
    · rw [(rotates.above j before).1, (rotates.above j before).2, (spent j before).1, (spent j before).2]
      ring
    · rw [rotates.corner, now.1, now.2, rotates.square]
      ring
    · rw [(later j under).1, mixed j inside' under]
      ring
  · rw [(later i under).1, (later i under).2]
    rcases Nat.lt_trichotomy j k with before | rfl | under'
    · rw [(rotates.above j before).1, (rotates.above j before).2, (spent j before).1, (spent j before).2]
      ring
    · rw [rotates.corner, now.1, now.2]
      linear_combination mixed i inside under
    · rw [(later j under').1, (later j under').2, (rotates.below i inside under).2,
        (rotates.below j inside' under').2, rotates.below_old inside under,
        rotates.below_old inside' under']
      linear_combination (sign * x i * x j - factor' i k * factor' j k) * pythagoras

/-- A step does not change what factor and residual stand for. -/
theorem represented_eq {i j : Nat} (inside : i < n) (inside' : j < n) :
    represented n sign (k + 1) factor' x' i j = represented n sign k factor x i j := by
  have column := Finset.mem_range.mpr rotates.column
  have rest : ∑ m ∈ (Finset.range n).erase k, factor' i m * factor' j m =
      ∑ m ∈ (Finset.range n).erase k, factor i m * factor j m := by
    apply Finset.sum_congr rfl
    intro m member
    obtain ⟨other, below⟩ := Finset.mem_erase.mp member
    rw [rotates.others i inside m (Finset.mem_range.mp below) other,
      rotates.others j inside' m (Finset.mem_range.mp below) other]
  rw [represented, represented, gram, gram, ← Finset.add_sum_erase _ _ column,
    ← Finset.add_sum_erase _ _ column, rest, add_right_comm, rotates.column_exchange inside inside',
    add_right_comm]

end Rotates

theorem represented_zero (n : Nat) (sign : K) (factor : Nat → Nat → K) (x : Nat → K) (i j : Nat) :
    represented n sign 0 factor x i j = gram n factor i j + sign * (x i * x j) := rfl

/-- With the residual spent the factor stands for itself. -/
theorem represented_last {n i : Nat} (inside : i < n) (sign : K) (factor : Nat → Nat → K)
    (x : Nat → K) (j : Nat) : represented n sign n factor x i j = gram n factor i j := by
  rw [represented, remaining, if_pos inside, zero_mul, mul_zero, add_zero]

end Simuless.Foundation
