import Mathlib.Logic.Equiv.Basic
import Mathlib.Order.Lattice

/-! Sorting by exchanges of neighbours.

A pass goes up and moves the least of the items that it meets along with it.
What earlier passes have brought to the end stays there, in descending order.
-/

set_option autoImplicit false

namespace Simuless.Foundation

variable {Item : Type} [LinearOrder Item] {items : Nat → Item} {n p j : Nat}

/-- Two neighbours in descending order. -/
def descend (items : Nat → Item) (j : Nat) : Nat → Item :=
  if items j < items (j + 1) then fun i => items (Equiv.swap j (j + 1) i) else items

/-- From a place on, no item is above one before it. -/
def SettledFrom (n p : Nat) (items : Nat → Item) : Prop :=
  ∀ a b, a < b → n ≤ b + p → b < n → items b ≤ items a

/-- A pass that has come to an item, the least one so far. -/
structure Passing (n p : Nat) (items : Nat → Item) (j : Nat) : Prop where
  settled : SettledFrom n p items
  least : ∀ a ≤ j, items j ≤ items a

theorem SettledFrom.pass (settled : SettledFrom n p items) : Passing n p items 0 := by
  refine ⟨settled, fun a first => ?_⟩
  rw [Nat.le_zero.mp first]

/-- The items after an exchange are those before it, in another order. -/
theorem descend_eq (items : Nat → Item) (j i : Nat) : ∃ before, descend items j i = items before ∧
    (before ≠ i → (i = j ∨ i = j + 1) ∧ (before = j ∨ before = j + 1)) := by
  rw [descend]
  split
  · refine ⟨Equiv.swap j (j + 1) i, rfl, fun moved => ?_⟩
    by_cases first : i = j
    · rw [first, Equiv.swap_apply_left]
      exact ⟨Or.inl rfl, Or.inr rfl⟩
    · by_cases second : i = j + 1
      · rw [second, Equiv.swap_apply_right]
        exact ⟨Or.inr rfl, Or.inl rfl⟩
      · exact absurd (Equiv.swap_apply_of_ne_of_ne first second) moved
  · exact ⟨i, rfl, fun moved => absurd rfl moved⟩

theorem descend_lower (items : Nat → Item) (j : Nat) :
    descend items j (j + 1) ≤ items j ∧ descend items j (j + 1) ≤ items (j + 1) := by
  rw [descend]
  split
  case isTrue less =>
    simp only [Equiv.swap_apply_right]
    exact ⟨le_rfl, le_of_lt less⟩
  case isFalse other => exact ⟨le_of_not_gt other, le_rfl⟩

theorem Passing.next (passing : Passing n p items j) (inside : j + 1 + p < n) :
    Passing n p (descend items j) (j + 1) := by
  constructor
  · intro a b order behind below
    obtain ⟨a', same, moved⟩ := descend_eq items j a
    obtain ⟨b', same', moved'⟩ := descend_eq items j b
    have stays : b' = b := by
      by_contra different
      have pair := (moved' different).1
      omega
    subst stays
    rw [same, same']
    refine passing.settled a' b' ?_ behind below
    by_cases here : a' = a
    · exact here ▸ order
    · have pair := (moved here).2
      omega
  · intro a upTo
    obtain ⟨first, second⟩ := descend_lower items j
    obtain ⟨a', same, moved⟩ := descend_eq items j a
    rw [same]
    by_cases here : a' = j + 1
    · exact here ▸ second
    · refine le_trans first (passing.least a' ?_)
      by_cases stays : a' = a
      · omega
      · have pair := (moved stays).2
        omega

theorem Passing.settles (passing : Passing n p items (n - p - 1)) (inside : p < n) :
    SettledFrom n (p + 1) items := by
  intro a b order behind below
  by_cases early : n ≤ b + p
  · exact passing.settled a b order early below
  · have last : b = n - p - 1 := by omega
    subst last
    exact passing.least a (Nat.le_of_lt order)

/-- All items are in order when there is one left. -/
theorem SettledFrom.sorted (settled : SettledFrom n (n - 1) items) {a b : Nat} (order : a ≤ b)
    (below : b < n) : items b ≤ items a := by
  rcases Nat.lt_or_eq_of_le order with before | rfl
  · exact settled a b before (by omega) below
  · exact le_rfl

end Simuless.Foundation
