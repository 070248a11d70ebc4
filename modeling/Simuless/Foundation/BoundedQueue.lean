import Mathlib.Data.Nat.ModEq
import Mathlib.Tactic.Common

/-! A bounded queue that drops its oldest item, and lists laid out in a ring.

The queue is a list, oldest item first. A ring lays a list out over cells from
a tail position on and wraps around; pushing and popping the list moves the
tail and writes one cell.
-/

set_option autoImplicit false

namespace Simuless.Foundation

variable {Item : Type}

/-! The queue. -/

inductive QueueOp (Item : Type) where
  | push (item : Item)
  | pop

/-- Append, then drop the oldest item if the list is longer than the bound. -/
def pushBounded (bound : Nat) (items : List Item) (item : Item) : List Item :=
  let longer := items ++ [item]
  if bound < longer.length then longer.drop 1 else longer

theorem pushBounded_room {bound : Nat} {items : List Item} (room : items.length < bound) (item : Item) :
    pushBounded bound items item = items ++ [item] := by
  refine if_neg ?_
  rw [List.length_append, List.length_singleton]
  omega

theorem pushBounded_full {bound : Nat} {first : Item} {rest : List Item}
    (full : (first :: rest).length = bound) (item : Item) :
    pushBounded bound (first :: rest) item = rest ++ [item] := by
  refine if_pos ?_
  rw [List.length_append, full]
  exact Nat.lt_succ_self bound

/-- Items that operations take out of the queue, and the queue after them. -/
def runQueue (bound : Nat) : List Item → List (QueueOp Item) → List (Option Item) × List Item
  | items, [] => ([], items)
  | items, .push item :: rest => runQueue bound (pushBounded bound items item) rest
  | items, .pop :: rest =>
      let later := runQueue bound (items.drop 1) rest
      (items.head? :: later.1, later.2)

/-! Lists in a ring. -/

/-- The cells hold the items from position `tail` on, wrapping around. -/
def InRing (cells : List Item) (capacity tail : Nat) (items : List Item) : Prop :=
  ∀ index, index < items.length → cells[(tail + index) % capacity]? = items[index]?

theorem InRing.nil (cells : List Item) (capacity tail : Nat) : InRing cells capacity tail [] :=
  fun _ inside => absurd inside (Nat.not_lt_zero _)

/-- Within one turn of the ring positions do not meet. -/
theorem ring_position_ne {capacity first second : Nat} (tail : Nat) (apart : first < second)
    (within : second < capacity) : (tail + first) % capacity ≠ (tail + second) % capacity := by
  intro same
  have shifted : first % capacity = second % capacity := Nat.ModEq.add_left_cancel' tail same
  rw [Nat.mod_eq_of_lt (apart.trans within), Nat.mod_eq_of_lt within] at shifted
  exact absurd shifted (Nat.ne_of_lt apart)

theorem InRing.push {cells items : List Item} {capacity tail : Nat}
    (ring : InRing cells capacity tail items) (room : items.length < capacity)
    (inside : capacity ≤ cells.length) (item : Item) :
    InRing (cells.set ((tail + items.length) % capacity) item) capacity tail (items ++ [item]) := by
  have positive : 0 < capacity := Nat.zero_lt_of_lt room
  intro index below
  rw [List.length_append, List.length_singleton] at below
  by_cases old : index < items.length
  · rw [List.getElem?_set_ne (ring_position_ne tail old room).symm, List.getElem?_append_left old]
    exact ring index old
  · have last : index = items.length := by omega
    subst last
    have cell : (tail + items.length) % capacity < cells.length :=
      (Nat.mod_lt _ positive).trans_le inside
    rw [List.getElem?_set_self cell, List.getElem?_concat_length]

theorem InRing.front {cells rest : List Item} {first : Item} {capacity tail : Nat}
    (ring : InRing cells capacity tail (first :: rest)) : cells[tail % capacity]? = some first :=
  ring 0 (Nat.zero_lt_succ _)

theorem InRing.pop {cells rest : List Item} {first : Item} {capacity tail : Nat}
    (ring : InRing cells capacity tail (first :: rest)) :
    InRing cells capacity ((tail + 1) % capacity) rest := by
  intro index inside
  have next := ring (index + 1) (Nat.succ_lt_succ inside)
  rw [Nat.mod_add_mod, Nat.add_assoc, Nat.add_comm 1 index]
  exact next

/-- A push into a full ring overwrites the oldest item. -/
theorem InRing.overwrite {cells rest : List Item} {first : Item} {capacity tail : Nat}
    (ring : InRing cells capacity tail (first :: rest)) (full : rest.length + 1 = capacity)
    (inside : capacity ≤ cells.length) (item : Item) :
    InRing (cells.set ((tail + capacity) % capacity) item) capacity ((tail + 1) % capacity)
      (rest ++ [item]) := by
  have pushed := ring.pop.push (by omega) inside item
  rwa [Nat.mod_add_mod, Nat.add_assoc, Nat.add_comm 1 rest.length, full] at pushed

/-- The item `age` positions from the newest. -/
theorem InRing.aged {cells items : List Item} {capacity tail age : Nat}
    (ring : InRing cells capacity tail items) (present : age < items.length)
    (within : items.length ≤ capacity) :
    cells[((tail + items.length) % capacity + capacity - 1 - age) % capacity]? =
      items.reverse[age]? := by
  have index : ((tail + items.length) % capacity + capacity - 1 - age) % capacity =
      (tail + (items.length - 1 - age)) % capacity := by
    have split : (tail + items.length) % capacity + capacity - 1 - age =
        (tail + items.length) % capacity + (capacity - 1 - age) := by omega
    rw [split, Nat.mod_add_mod]
    -- counting back from the head goes around the ring once
    have turn : tail + items.length + (capacity - 1 - age) =
        tail + (items.length - 1 - age) + capacity := by omega
    rw [turn, Nat.add_mod_right]
  rw [index, ring _ (by omega), List.getElem?_reverse present]

end Simuless.Foundation
