import Mathlib.Algebra.BigOperators.Intervals
import Mathlib.Algebra.Field.Basic
import Mathlib.Data.List.GetD

/-! Linear difference equations with constant coefficients.

`sum (a_j * y[k-j]) = sum (b_i * x[k-i])` over signals that are zero before
they start. The next output is computed from two histories, newest sample
first, which shift by one sample a step.
-/

set_option autoImplicit false

namespace Simuless.Foundation

variable {K : Type}

section
variable [Zero K]

/-- A sample of a signal that is zero before it starts. -/
def sampleAt (samples : List K) (index : Int) : K :=
  if index < 0 then 0 else samples.getD index.toNat 0

theorem sampleAt_append {samples : List K} {index : Int} (below : index < samples.length)
    (more : List K) : sampleAt (samples ++ more) index = sampleAt samples index := by
  by_cases before : index < 0
  · rw [sampleAt, sampleAt, if_pos before, if_pos before]
  · rw [sampleAt, sampleAt, if_neg before, if_neg before, List.getD_append _ _ _ _ (by omega)]

theorem sampleAt_last (samples : List K) (sample : K) :
    sampleAt (samples ++ [sample]) samples.length = sample := by
  have started : ¬ (samples.length : Int) < 0 := by omega
  rw [sampleAt, if_neg started, Int.toNat_natCast, List.getD_append_right _ _ _ _ (Nat.le_refl _),
    Nat.sub_self]
  rfl

/-- The history holds the last samples, newest first. -/
def Recalls (samples : List K) (history : Nat → K) (length : Nat) : Prop :=
  ∀ i < length, history i = sampleAt samples (samples.length - 1 - i)

omit [Zero K] in
/-- A history after one more sample. -/
def shifted (sample : K) (history : Nat → K) (i : Nat) : K :=
  if i = 0 then sample else history (i - 1)

variable {samples : List K} {history later : Nat → K} {length : Nat}

theorem recalls_nil (zeroed : ∀ i < length, history i = 0) : Recalls [] history length := by
  intro i below
  have before : ((([] : List K).length : Int) - 1 - i) < 0 := by
    rw [List.length_nil]
    omega
  rw [zeroed i below, sampleAt, if_pos before]

theorem Recalls.shift (recalls : Recalls samples history length) (sample : K)
    (moved : ∀ i < length, later i = shifted sample history i) :
    Recalls (samples ++ [sample]) later length := by
  intro i below
  have extent : (samples ++ [sample]).length = samples.length + 1 := List.length_append
  rw [moved i below, extent, shifted]
  by_cases newest : i = 0
  · subst newest
    have last : ((samples.length + 1 : Nat) : Int) - 1 - (0 : Nat) = samples.length := by omega
    rw [if_pos rfl, last, sampleAt_last]
  · have older : ((samples.length + 1 : Nat) : Int) - 1 - i = samples.length - 1 - (i - 1 : Nat) := by
      omega
    rw [if_neg newest, recalls (i - 1) (by omega), older, sampleAt_append (by omega)]

end

structure DifferenceEquation (K : Type) where
  num : Nat → K
  den : Nat → K
  numOrder : Nat
  denOrder : Nat

namespace DifferenceEquation

section
variable [Ring K] (equation : DifferenceEquation K)

/-- What the equation says the leading term is. -/
def rightSide (inputs outputs : List K) (k : Nat) : K :=
  ∑ i ∈ Finset.range equation.numOrder, equation.num i * sampleAt inputs (k - i) -
    ∑ j ∈ Finset.Ico 1 equation.denOrder, equation.den j * sampleAt outputs (k - j)

variable {inputs outputs : List K}

/-- The right-hand side does not look ahead. -/
theorem rightSide_append {k : Nat} (arrived : k < inputs.length) (answered : k ≤ outputs.length)
    (more further : List K) :
    equation.rightSide (inputs ++ more) (outputs ++ further) k =
      equation.rightSide inputs outputs k := by
  rw [rightSide, rightSide]
  congr 1
  · apply Finset.sum_congr rfl
    intro i _
    rw [sampleAt_append (by omega)]
  · apply Finset.sum_congr rfl
    intro j member
    have delayed := (Finset.mem_Ico.mp member).1
    rw [sampleAt_append (by omega)]

structure Satisfies (inputs outputs : List K) : Prop where
  length : outputs.length = inputs.length
  law : ∀ k < inputs.length,
    equation.den 0 * sampleAt outputs k = equation.rightSide inputs outputs k

variable {equation}

theorem satisfies_nil : equation.Satisfies [] [] :=
  ⟨rfl, fun k below => absurd below (Nat.not_lt_zero k)⟩

theorem Satisfies.snoc (satisfies : equation.Satisfies inputs outputs) {x y : K}
    (next : equation.den 0 * y = equation.rightSide (inputs ++ [x]) outputs inputs.length) :
    equation.Satisfies (inputs ++ [x]) (outputs ++ [y]) := by
  obtain ⟨length, law⟩ := satisfies
  constructor
  · rw [List.length_append, List.length_append, length]
    rfl
  · intro k below
    rw [List.length_append, List.length_singleton] at below
    by_cases last : k = inputs.length
    · subst last
      -- the newest equation reads no output but those before
      have arrived : inputs.length < (inputs ++ [x]).length := by
        rw [List.length_append]
        exact Nat.lt_succ_self _
      have causal := equation.rightSide_append arrived length.ge [] [y]
      rw [List.append_nil] at causal
      rw [causal, ← next, ← length, sampleAt_last]
    · rw [equation.rightSide_append (by omega) (by omega), sampleAt_append (by omega)]
      exact law k (by omega)

/-! Sums computed by a loop. -/

theorem foldl_add (term : Nat → K) (count : Nat) :
    (List.range count).foldl (fun y i => y + term i) 0 = ∑ i ∈ Finset.range count, term i := by
  induction count with
  | zero => rfl
  | succ count ih =>
    rw [List.range_succ, List.foldl_append, ih, Finset.sum_range_succ]
    rfl

theorem foldl_sub (term : Nat → K) (start : K) (count : Nat) :
    (List.range' 1 count).foldl (fun y i => y - term i) start =
      start - ∑ i ∈ Finset.Ico 1 (count + 1), term i := by
  induction count with
  | zero => simp
  | succ count ih =>
    rw [List.range'_1_concat, List.foldl_append, ih,
      Finset.sum_Ico_succ_top (Nat.le_add_left 1 count), ← sub_sub, Nat.add_comm 1 count]
    rfl

end

variable [Field K] (equation : DifferenceEquation K)

/-- The output computed from the inputs up to now and the outputs before. -/
def next (recent past : Nat → K) : K :=
  (List.range' 1 (equation.denOrder - 1)).foldl (fun y j => y - equation.den j * past (j - 1))
    ((List.range equation.numOrder).foldl (fun y i => y + equation.num i * recent i) 0) /
      equation.den 0

/-- The histories belong to a solution of the equation. -/
structure Aligned (inputs outputs : List K) (recent past : Nat → K) : Prop where
  satisfies : equation.Satisfies inputs outputs
  recent : Recalls inputs recent equation.numOrder
  past : Recalls outputs past (equation.denOrder - 1)

variable {equation} {inputs outputs : List K} {recent past recent' past' : Nat → K}

theorem aligned_nil (recent_zero : ∀ i < equation.numOrder, recent i = 0)
    (past_zero : ∀ i < equation.denOrder - 1, past i = 0) : equation.Aligned [] [] recent past :=
  ⟨satisfies_nil, recalls_nil recent_zero, recalls_nil past_zero⟩

theorem next_law (leading : equation.den 0 ≠ 0) {k : Nat} (arrived : inputs.length = k + 1)
    (answered : outputs.length = k) (newest : Recalls inputs recent equation.numOrder)
    (older : Recalls outputs past (equation.denOrder - 1)) :
    equation.den 0 * equation.next recent past = equation.rightSide inputs outputs k := by
  have feedforward : ∀ i ∈ Finset.range equation.numOrder,
      equation.num i * recent i = equation.num i * sampleAt inputs (k - i) := by
    intro i member
    rw [newest i (Finset.mem_range.mp member), arrived]
    congr 2
    omega
  have feedback : ∀ j ∈ Finset.Ico 1 equation.denOrder,
      equation.den j * past (j - 1) = equation.den j * sampleAt outputs (k - j) := by
    intro j member
    have bounds := Finset.mem_Ico.mp member
    rw [older (j - 1) (by omega), answered]
    congr 2
    omega
  have extent : Finset.Ico 1 (equation.denOrder - 1 + 1) = Finset.Ico 1 equation.denOrder := by
    ext j
    simp only [Finset.mem_Ico]
    omega
  rw [next, mul_div_cancel₀ _ leading, foldl_add, foldl_sub, extent, Finset.sum_congr rfl feedforward,
    Finset.sum_congr rfl feedback, rightSide]

/-- One step of the equation: the new output extends the solution. -/
theorem Aligned.advance (aligned : equation.Aligned inputs outputs recent past)
    (leading : equation.den 0 ≠ 0) {x y : K} (computed : y = equation.next (shifted x recent) past)
    (recent_moved : ∀ i < equation.numOrder, recent' i = shifted x recent i)
    (past_moved : ∀ i < equation.denOrder - 1, past' i = shifted y past i) :
    equation.Aligned (inputs ++ [x]) (outputs ++ [y]) recent' past' := by
  obtain ⟨satisfies, newest, older⟩ := aligned
  refine ⟨satisfies.snoc ?_, newest.shift x recent_moved, older.shift y past_moved⟩
  rw [computed]
  exact next_law leading List.length_append satisfies.length (newest.shift x fun _ _ => rfl) older

end DifferenceEquation

end Simuless.Foundation
