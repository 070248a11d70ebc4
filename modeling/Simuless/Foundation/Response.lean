import Mathlib.RingTheory.PowerSeries.Inverse
import Simuless.Foundation.DifferenceEquation

/-! Responses of linear filters.

A signal that is zero before it starts is a formal power series, one sample a
power. A filter multiplies its input by a fixed series, so filters in a row
multiply and their order does not matter. A finite run shows the first
coefficients only, and these depend on as many samples.
-/

set_option autoImplicit false

namespace Simuless.Foundation

open PowerSeries

variable {K : Type} [Field K]

/-- The series of a signal of which these samples are known. -/
noncomputable def signal (samples : List K) : K⟦X⟧ := PowerSeries.mk fun k => samples.getD k 0

@[simp] theorem coeff_signal (samples : List K) (k : Nat) :
    coeff k (signal samples) = samples.getD k 0 := coeff_mk _ _

/-- Two series with the same first coefficients. -/
def AgreeUpTo (count : Nat) (left right : K⟦X⟧) : Prop := ∀ k < count, coeff k left = coeff k right

namespace AgreeUpTo

variable {count : Nat} {left middle right : K⟦X⟧}

theorem iff_dvd : AgreeUpTo count left right ↔ X ^ count ∣ left - right := by
  rw [X_pow_dvd_iff, AgreeUpTo]
  apply forall₂_congr
  intro k _
  rw [map_sub, sub_eq_zero]

theorem symm (agree : AgreeUpTo count left right) : AgreeUpTo count right left :=
  fun k below => (agree k below).symm

theorem trans (first : AgreeUpTo count left middle) (second : AgreeUpTo count middle right) :
    AgreeUpTo count left right := fun k below => (first k below).trans (second k below)

/-- A product does not look ahead. -/
theorem mul_left (agree : AgreeUpTo count left right) (factor : K⟦X⟧) :
    AgreeUpTo count (factor * left) (factor * right) := by
  rw [iff_dvd, ← mul_sub]
  exact (iff_dvd.mp agree).mul_left factor

end AgreeUpTo

theorem signal_append (samples more : List K) :
    AgreeUpTo samples.length (signal (samples ++ more)) (signal samples) := by
  intro k below
  rw [coeff_signal, coeff_signal, List.getD_append _ _ _ _ below]

/-- What a filter with this response answers to these inputs. -/
noncomputable def respond (response : K⟦X⟧) (inputs : List K) : List K :=
  (List.range inputs.length).map fun k => coeff k (response * signal inputs)

section
variable {response other : K⟦X⟧} {inputs outputs : List K}

@[simp] theorem length_respond : (respond response inputs).length = inputs.length := by
  rw [respond, List.length_map, List.length_range]

theorem getD_respond {k : Nat} (below : k < inputs.length) :
    (respond response inputs).getD k 0 = coeff k (response * signal inputs) := by
  rw [List.getD_eq_getElem _ _ (below.trans_eq length_respond.symm)]
  simp only [respond, List.getElem_map, List.getElem_range]

theorem signal_respond :
    AgreeUpTo inputs.length (signal (respond response inputs)) (response * signal inputs) := by
  intro k below
  rw [coeff_signal, getD_respond below]

theorem eq_respond_iff (length : outputs.length = inputs.length) : outputs = respond response inputs ↔
    AgreeUpTo inputs.length (signal outputs) (response * signal inputs) := by
  constructor
  · rintro rfl
    exact signal_respond
  · intro agree
    apply List.ext_getElem (length.trans length_respond.symm)
    intro k here there
    have below : k < inputs.length := here.trans_eq length
    rw [← List.getD_eq_getElem _ 0 here, ← List.getD_eq_getElem _ 0 there, getD_respond below,
      ← agree k below, coeff_signal]

/-- A filter answers each sample when it arrives. -/
theorem respond_concat (sample : K) : respond response (inputs ++ [sample]) =
    respond response inputs ++ [coeff inputs.length (response * signal (inputs ++ [sample]))] := by
  rw [respond, List.length_append, List.length_singleton, List.range_succ, List.map_append]
  congr 1
  apply List.map_congr_left
  intro k member
  exact (signal_append inputs [sample]).mul_left response k (List.mem_range.mp member)

end

/-! Difference equations as filters. -/

/-- The polynomial of the coefficients below an order. -/
def series (order : Nat) (coefficients : Nat → K) : K⟦X⟧ :=
  PowerSeries.mk fun i => if i < order then coefficients i else 0

theorem coeff_series (order : Nat) (coefficients : Nat → K) (i : Nat) :
    coeff i (series order coefficients) = if i < order then coefficients i else 0 := coeff_mk _ _

theorem sampleAt_sub (samples : List K) (k i : Nat) :
    sampleAt samples (k - i) = if i ≤ k then samples.getD (k - i) 0 else 0 := by
  by_cases started : i ≤ k
  · have index : ((k : Int) - i).toNat = k - i := by omega
    rw [sampleAt, if_neg (by omega), if_pos started, index]
  · rw [sampleAt, if_pos (by omega), if_neg started]

/-- A product with such a polynomial is a sum over the last samples. -/
theorem coeff_series_mul (order : Nat) (coefficients : Nat → K) (samples : List K) (k : Nat) :
    coeff k (series order coefficients * signal samples) =
      ∑ i ∈ Finset.range order, coefficients i * sampleAt samples (k - i) := by
  calc coeff k (series order coefficients * signal samples)
      = ∑ i ∈ Finset.range (k + 1), (if i < order then coefficients i else 0) *
          sampleAt samples (k - i) := by
        rw [coeff_mul, Finset.Nat.sum_antidiagonal_eq_sum_range_succ fun i j =>
          coeff i (series order coefficients) * coeff j (signal samples)]
        apply Finset.sum_congr rfl
        intro i member
        have inside := Finset.mem_range_succ_iff.mp member
        rw [coeff_series, coeff_signal, sampleAt_sub, if_pos inside]
    _ = ∑ i ∈ Finset.range (k + 1 + order), (if i < order then coefficients i else 0) *
          sampleAt samples (k - i) := by
        apply Finset.sum_subset (Finset.range_mono (Nat.le_add_right _ _))
        intro i _ outside
        rw [Finset.mem_range] at outside
        have unstarted : sampleAt samples ((k : Int) - i) = 0 := if_pos (by omega)
        rw [unstarted, mul_zero]
    _ = ∑ i ∈ Finset.range order, (if i < order then coefficients i else 0) *
          sampleAt samples (k - i) := by
        symm
        apply Finset.sum_subset (Finset.range_mono (Nat.le_add_left _ _))
        intro i _ outside
        rw [Finset.mem_range] at outside
        rw [if_neg outside, zero_mul]
    _ = ∑ i ∈ Finset.range order, coefficients i * sampleAt samples (k - i) := by
        apply Finset.sum_congr rfl
        intro i member
        rw [if_pos (Finset.mem_range.mp member)]

namespace DifferenceEquation

variable (equation other : DifferenceEquation K)

/-- The quotient of the two polynomials. -/
noncomputable def transfer : K⟦X⟧ :=
  series equation.numOrder equation.num * (series equation.denOrder equation.den)⁻¹

/-- The equation has a leading coefficient to divide by. -/
def Solvable : Prop := 0 < equation.denOrder ∧ equation.den 0 ≠ 0

variable {equation other}

theorem Solvable.constantCoeff (solvable : equation.Solvable) :
    PowerSeries.constantCoeff (series equation.denOrder equation.den) ≠ 0 := by
  rw [← coeff_zero_eq_constantCoeff_apply, coeff_series, if_pos solvable.1]
  exact solvable.2

/-- What solves the equation is the answer of its filter. -/
theorem Satisfies.eq_respond {inputs outputs : List K} (solvable : equation.Solvable)
    (satisfies : equation.Satisfies inputs outputs) : outputs = respond equation.transfer inputs := by
  rw [eq_respond_iff satisfies.length]
  have balanced : AgreeUpTo inputs.length (series equation.denOrder equation.den * signal outputs)
      (series equation.numOrder equation.num * signal inputs) := by
    intro k below
    have law := satisfies.law k below
    rw [rightSide] at law
    rw [coeff_series_mul, coeff_series_mul, Finset.range_eq_Ico,
      Finset.sum_eq_sum_Ico_succ_bot solvable.1, Nat.cast_zero, sub_zero, law]
    ring
  have divided := balanced.mul_left (series equation.denOrder equation.den)⁻¹
  rw [← mul_assoc, PowerSeries.inv_mul_cancel _ solvable.constantCoeff, one_mul, ← mul_assoc,
    mul_comm _ (series equation.numOrder equation.num)] at divided
  exact divided

/-- The next output of a filter at rest before its inputs. -/
theorem Aligned.answer {inputs outputs : List K} {recent past : Nat → K} (solvable : equation.Solvable)
    (aligned : equation.Aligned inputs outputs recent past) {x y : K}
    (computed : y = equation.next (shifted x recent) past) :
    y = coeff inputs.length (equation.transfer * signal (inputs ++ [x])) := by
  have extended := (aligned.advance solvable.2 computed (fun _ _ => rfl)
    (fun _ _ => rfl)).satisfies.eq_respond solvable
  have inside : inputs.length < (inputs ++ [x]).length := by
    rw [List.length_append]
    exact Nat.lt_succ_self _
  rw [← getD_respond inside, ← extended, ← aligned.satisfies.length,
    List.getD_append_right _ _ _ _ (Nat.le_refl _), Nat.sub_self]
  rfl

end DifferenceEquation

namespace DifferenceEquation

variable (first later : DifferenceEquation K)

/-- The equation that computes the input from the output. -/
def inverse : DifferenceEquation K where
  num := first.den
  den := first.num
  numOrder := first.denOrder
  denOrder := first.numOrder

variable {first}

end DifferenceEquation

end Simuless.Foundation
