import Mathlib.Algebra.Ring.CharZero
import Mathlib.Data.ZMod.IntUnitsPower
import Mathlib.GroupTheory.Perm.Cycle.Type

/-! The sign of a permutation, and how many elements it displaces.

A single cycle has the sign that the number of its elements says. Taking that
number for the elements of all cycles together gives the sign of any odd number
of cycles.
-/

set_option autoImplicit false

namespace Simuless.Foundation

open Equiv (Perm)

/-- The sign of a single cycle of this many elements, or of none. -/
def cycleSign (count : Nat) : ℤˣ := if count ≠ 0 ∧ (count - 1) % 2 = 1 then -1 else 1

theorem cycleSign_nonzero {count : Nat} (nonzero : count ≠ 0) : cycleSign count = (-1) ^ (count + 1) := by
  rw [cycleSign]
  split
  case isTrue odd =>
    have parity : Odd (count + 1) := Nat.odd_iff.mpr (by omega)
    exact parity.neg_one_pow.symm
  case isFalse even =>
    have parity : Even (count + 1) := Nat.even_iff.mpr (by omega)
    exact parity.neg_one_pow.symm

theorem sign_eq_cycleSign {Point : Type} [Fintype Point] [DecidableEq Point] (positions : Perm Point) :
    Perm.sign positions = cycleSign positions.support.card ↔
      positions = 1 ∨ Odd positions.cycleType.card := by
  by_cases trivial : positions = 1
  · rw [trivial, Perm.sign_one, Perm.support_one, Finset.card_empty]
    exact iff_of_true rfl (Or.inl rfl)
  · have moved : positions.support.card ≠ 0 :=
      mt Perm.card_support_eq_zero.mp trivial
    have units : (-1 : ℤˣ) ≠ 1 := by decide
    rw [or_iff_right trivial, Perm.sign_of_cycleType, Perm.sum_cycleType, cycleSign_nonzero moved,
      pow_add, pow_add, mul_right_inj, pow_one]
    exact neg_one_pow_eq_neg_one_iff_odd units

/-- Signs multiply to one only where they are the same. -/
theorem signs_mul_eq_one {K : Type} [Ring K] [CharZero K] (a b : ℤˣ) :
    ((a : ℤ) : K) * ((b : ℤ) : K) = 1 ↔ b = a := by
  rw [← Int.cast_mul, ← Units.val_mul, Int.cast_eq_one, Units.val_eq_one, mul_eq_one_iff_eq_inv,
    Int.units_inv_eq_self]
  exact eq_comm

end Simuless.Foundation
