import Mathlib.Algebra.BigOperators.Intervals
import Mathlib.Algebra.Field.Basic
import Mathlib.Logic.Equiv.Basic
import Mathlib.Tactic.Ring

/-! Elimination with both triangular factors in one matrix.

Below the diagonal of the finished columns stand multipliers, everywhere else
what elimination has left. A stage turns one more column into multipliers; what
the two factors multiply to does not change.
-/

set_option autoImplicit false

namespace Simuless.Foundation

variable {K : Type} [Field K]

/-- The product of the factors packed into a matrix of which `stage` columns are finished. -/
def unpacked (stage : Nat) (packed : Nat → Nat → K) (i j : Nat) : K :=
  ∑ k ∈ Finset.range (min (min i stage) (j + 1)), packed i k * packed k j +
    if j < min i stage then 0 else packed i j

/-- Before the first stage the matrix stands for itself. -/
theorem unpacked_start (packed : Nat → Nat → K) (i j : Nat) : unpacked 0 packed i j = packed i j := by
  rw [unpacked, Nat.min_zero, Nat.zero_min, Finset.sum_range_zero, if_neg (Nat.not_lt_zero j), zero_add]

/-- It depends on the first rows and columns alone. -/
theorem unpacked_congr {n stage i j : Nat} {packed packed' : Nat → Nat → K}
    (same : ∀ i < n, ∀ j < n, packed' i j = packed i j) (inRow : i < n) (inColumn : j < n) :
    unpacked stage packed' i j = unpacked stage packed i j := by
  rw [unpacked, unpacked, same i inRow j inColumn]
  congr 1
  apply Finset.sum_congr rfl
  intro k member
  have before := Finset.mem_range.mp member
  have inside : k < n := by omega
  rw [same i inRow k inside, same k inside j inColumn]

theorem swap_lt {i j k n : Nat} (inside : i < n) (inside' : j < n) (below : k < n) :
    Equiv.swap i j k < n := by
  rw [Equiv.swap_apply_def]
  split
  · exact inside'
  · split
    · exact inside
    · exact below

section
variable {stage other : Nat} (unfinished : stage ≤ other)
include unfinished

theorem swap_finished {k : Nat} (before : k < stage) : Equiv.swap stage other k = k :=
  Equiv.swap_apply_of_ne_of_ne (Nat.ne_of_lt before) (Nat.ne_of_lt (before.trans_le unfinished))

theorem swap_unfinished {i : Nat} (behind : stage ≤ i) : stage ≤ Equiv.swap stage other i := by
  rw [Equiv.swap_apply_def]
  split
  · exact unfinished
  · split
    · exact Nat.le_refl stage
    · exact behind

/-- An exchange moves no row across the stage. -/
theorem min_swap (i : Nat) : min (Equiv.swap stage other i) stage = min i stage := by
  by_cases before : i < stage
  · rw [swap_finished unfinished before]
  · rw [not_lt] at before
    rw [Nat.min_eq_right (swap_unfinished unfinished before), Nat.min_eq_right before]

/-- Rows that are not finished may be exchanged. -/
theorem unpacked_swap (packed : Nat → Nat → K) (i j : Nat) :
    unpacked stage (fun i => packed (Equiv.swap stage other i)) i j =
      unpacked stage packed (Equiv.swap stage other i) j := by
  rw [unpacked, unpacked, min_swap unfinished]
  congr 1
  apply Finset.sum_congr rfl
  intro k member
  have inside := Finset.mem_range.mp member
  have before : k < stage := by omega
  rw [swap_finished unfinished before]

end

/-- What a stage makes of a matrix whose pivot is in place. -/
def eliminate (stage : Nat) (packed : Nat → Nat → K) (i j : Nat) : K :=
  if i ≤ stage ∨ j < stage then packed i j
  else if j = stage then packed i stage / packed stage stage
  else packed i j - packed stage j * (packed i stage / packed stage stage)

section
variable {stage i j : Nat} (packed : Nat → Nat → K)

theorem eliminate_finished (finished : i ≤ stage ∨ j < stage) : eliminate stage packed i j = packed i j :=
  if_pos finished

theorem eliminate_column (below : stage < i) :
    eliminate stage packed i stage = packed i stage / packed stage stage := by
  rw [eliminate, if_neg (by omega), if_pos rfl]

theorem eliminate_rest (below : stage < i) (behind : stage < j) :
    eliminate stage packed i j = packed i j - packed stage j * eliminate stage packed i stage := by
  rw [eliminate_column packed below, eliminate, if_neg (by omega), if_neg (by omega)]

/-- The finished columns contribute to a row what they did. -/
theorem eliminate_sum {count : Nat} (finished : count ≤ stage) :
    ∑ k ∈ Finset.range count, eliminate stage packed i k * eliminate stage packed k j =
      ∑ k ∈ Finset.range count, packed i k * packed k j := by
  apply Finset.sum_congr rfl
  intro k member
  have before : k < stage := (Finset.mem_range.mp member).trans_le finished
  rw [eliminate_finished packed (Or.inr before), eliminate_finished packed (Or.inl before.le)]

variable {packed}

/-- What a stage makes of the first rows and columns depends on these alone. -/
theorem eliminate_congr {n : Nat} {packed' : Nat → Nat → K}
    (same : ∀ i < n, ∀ j < n, packed' i j = packed i j) (pivot : stage < n) (inRow : i < n)
    (inColumn : j < n) : eliminate stage packed' i j = eliminate stage packed i j := by
  rw [eliminate, eliminate, same i inRow j inColumn, same i inRow stage pivot,
    same stage pivot stage pivot, same stage pivot j inColumn]

/-- A stage does not change what the factors multiply to. -/
theorem unpacked_eliminate (pivot : packed stage stage ≠ 0) :
    unpacked (stage + 1) (eliminate stage packed) i j = unpacked stage packed i j := by
  by_cases above : i ≤ stage
  · -- a finished row is not touched
    have same : min i (stage + 1) = min i stage := by omega
    have finished : min (min i stage) (j + 1) ≤ stage := by omega
    rw [unpacked, unpacked, same, eliminate_finished packed (Or.inl above), eliminate_sum packed finished]
  · have below : stage < i := Nat.lt_of_not_le above
    have width : min i (stage + 1) = stage + 1 := by omega
    have width' : min i stage = stage := by omega
    rw [unpacked, unpacked, width, width']
    rcases Nat.lt_trichotomy j stage with before | rfl | behind
    · have count : min (stage + 1) (j + 1) = j + 1 := by omega
      have count' : min stage (j + 1) = j + 1 := by omega
      rw [count, count', if_pos (by omega), if_pos before, eliminate_sum packed before]
    · have count : min j (j + 1) = j := by omega
      rw [Nat.min_self, count, if_pos (Nat.lt_succ_self j), if_neg (Nat.lt_irrefl j),
        Finset.sum_range_succ, eliminate_sum packed (Nat.le_refl j), eliminate_column packed below,
        eliminate_finished packed (Or.inl (Nat.le_refl j)), div_mul_cancel₀ _ pivot, add_zero]
    · have count : min (stage + 1) (j + 1) = stage + 1 := by omega
      have count' : min stage (j + 1) = stage := by omega
      rw [count, count', if_neg (by omega), if_neg (by omega), Finset.sum_range_succ,
        eliminate_sum packed (Nat.le_refl stage), eliminate_rest packed below behind,
        eliminate_finished packed (Or.inl (Nat.le_refl stage))]
      ring

end

/-- The lower factor has ones on its diagonal. -/
def lowerEntry (packed : Nat → Nat → K) (i k : Nat) : K := if k = i then 1 else packed i k

/-- When all columns are finished, the product is that of a row of multipliers and the
upper part of the matrix. -/
theorem unpacked_last {n i : Nat} (inside : i < n) (packed : Nat → Nat → K) (j : Nat) :
    unpacked (n - 1) packed i j =
      ∑ k ∈ Finset.range (min i j + 1), lowerEntry packed i k * packed k j := by
  have width : min i (n - 1) = i := by omega
  rw [unpacked, width]
  by_cases before : j < i
  · have count : min i (j + 1) = min i j + 1 := by omega
    rw [if_pos before, add_zero, count]
    apply Finset.sum_congr rfl
    intro k member
    have other : k ≠ i := by
      have := Finset.mem_range.mp member
      omega
    rw [lowerEntry, if_neg other]
  · have count : min i (j + 1) = i := by omega
    have count' : min i j = i := by omega
    rw [if_neg before, count, count', Finset.sum_range_succ, lowerEntry, if_pos rfl, one_mul]
    congr 1
    apply Finset.sum_congr rfl
    intro k member
    rw [lowerEntry, if_neg (Nat.ne_of_lt (Finset.mem_range.mp member))]

end Simuless.Foundation
