import Simuless.Foundation.Block
import Simuless.Foundation.BoundedQueue

/-! The ring buffer of samples.

Three counters describe which cells of the caller's storage hold samples. An
access outside the storage and a remainder by zero have no result. Samples are
only copied, so the cells hold values of any type with a zero to clear to.
-/

set_option autoImplicit false

namespace Simuless.Runtime

open Foundation

variable {Sample : Type}

def sizeofFloat : Nat := 4

/-- Storage for samples. As an object in memory its size in octets is a size. -/
structure Storage (Sample : Type) where
  cells : List Sample
  addressable : sizeofFloat * cells.length < 2 ^ 64

def Storage.read (storage : Storage Sample) (index : Nat) : Option Sample := storage.cells[index]?

def Storage.write (storage : Storage Sample) (index : Nat) (value : Sample) :
    Option (Storage Sample) :=
  if index < storage.cells.length then
    some ⟨storage.cells.set index value, by rw [List.length_set]; exact storage.addressable⟩
  else none

/-- `memset(storage, 0, octets)` over whole cells. -/
def Storage.clear [Zero Sample] (storage : Storage Sample) (octets : Nat) : Option (Storage Sample) :=
  let count := octets / sizeofFloat
  if inside : count ≤ storage.cells.length then
    some ⟨List.replicate count 0 ++ storage.cells.drop count, by
      rw [List.length_append, List.length_replicate, List.length_drop, Nat.add_sub_cancel' inside]
      exact storage.addressable⟩
  else none

structure Ringbuf (Sample : Type) where
  data : Storage Sample
  capacity : Nat
  head : Nat
  tail : Nat
  size : Nat

/-- `value % capacity` on sizes. -/
def wrap (value : Int) (capacity : Nat) : Option Nat :=
  if capacity = 0 then none else some (toSize value % capacity)

def ringbufInit [Zero Sample] (storage : Storage Sample) (capacity : Nat) : Option (Ringbuf Sample) := do
  let data ← storage.clear (toSize (sizeofFloat * capacity))
  return ⟨data, capacity, 0, 0, 0⟩

def ringbufPush (rb : Ringbuf Sample) (value : Sample) : Option (Ringbuf Sample) := do
  let data ← rb.data.write rb.head value
  let head ← wrap (rb.head + 1) rb.capacity
  if rb.size < rb.capacity then
    return { rb with data, head, size := toSize (rb.size + 1) }
  else
    let tail ← wrap (rb.tail + 1) rb.capacity
    return { rb with data, head, tail }

/-- The return value, the buffer and `*out` after the call. -/
def ringbufPop (rb : Ringbuf Sample) (out : Sample) : Option (Bool × Ringbuf Sample × Sample) :=
  if rb.size = 0 then some (false, rb, out)
  else do
    let out ← rb.data.read rb.tail
    let tail ← wrap (rb.tail + 1) rb.capacity
    return (true, { rb with tail, size := toSize (rb.size - 1) }, out)

def ringbufLatest (rb : Ringbuf Sample) (out : Sample) : Option (Bool × Sample) :=
  if rb.size = 0 then some (false, out)
  else do
    let idx := if rb.head = 0 then toSize (rb.capacity - 1) else toSize (rb.head - 1)
    let out ← rb.data.read idx
    return (true, out)

def ringbufAt (rb : Ringbuf Sample) (age : Nat) (out : Sample) : Option (Bool × Sample) :=
  if rb.size ≤ age then some (false, out)
  else do
    let idx ← wrap (rb.head + rb.capacity - 1 - age) rb.capacity
    let out ← rb.data.read idx
    return (true, out)

def ringbufEmpty (rb : Ringbuf Sample) : Bool := rb.size == 0

def ringbufFull (rb : Ringbuf Sample) : Bool := rb.size == rb.capacity

def ringbufSize (rb : Ringbuf Sample) : Nat := rb.size

/-! Runs, and what a caller sees. -/

/-- What a call shows: the value of `*out` if it returned true. -/
def shown : Bool → Sample → Option Sample
  | true, out => some out
  | false, _ => none

/-- A sequence of push and pop calls, all pops through one output object. -/
def runRingbuf (rb : Ringbuf Sample) (out : Sample) :
    List (QueueOp Sample) → Option (List (Option Sample) × Ringbuf Sample)
  | [] => some ([], rb)
  | .push value :: rest => do
      let rb ← ringbufPush rb value
      runRingbuf rb out rest
  | .pop :: rest => do
      let (success, rb, out) ← ringbufPop rb out
      let (later, rb) ← runRingbuf rb out rest
      return (shown success out :: later, rb)

/-- The buffer holds these samples, oldest first, in a ring of `bound` cells. -/
structure Represents (rb : Ringbuf Sample) (bound : Nat) (items : List Sample) : Prop where
  capacity : rb.capacity = bound
  positive : 0 < bound
  inside : bound ≤ rb.data.cells.length
  size : rb.size = items.length
  within : items.length ≤ bound
  tail : rb.tail < bound
  head : rb.head = (rb.tail + items.length) % bound
  contents : InRing rb.data.cells bound rb.tail items

theorem wrap_ofNat (value : Nat) {capacity : Nat} (positive : 0 < capacity) (small : value < 2 ^ 64) :
    wrap value capacity = some (value % capacity) := by
  rw [wrap, if_neg (Nat.ne_of_gt positive), toSize_ofNat value small]

theorem Represents.bound_lt {rb : Ringbuf Sample} {bound : Nat} {items : List Sample}
    (held : Represents rb bound items) : bound < 2 ^ 62 := by
  have addressable := rb.data.addressable
  have inside := held.inside
  unfold sizeofFloat at addressable
  omega

theorem Represents.head_lt {rb : Ringbuf Sample} {bound : Nat} {items : List Sample}
    (held : Represents rb bound items) : rb.head < bound := by
  rw [held.head]
  exact Nat.mod_lt _ held.positive

/-- A freshly initialised buffer is the empty queue. -/
theorem ringbufInit_represents [Zero Sample] (storage : Storage Sample) {capacity : Nat}
    (positive : 0 < capacity) (inside : capacity ≤ storage.cells.length) :
    ∃ rb, ringbufInit storage capacity = some rb ∧ Represents rb capacity [] := by
  have addressable := storage.addressable
  unfold sizeofFloat at addressable
  -- the octets of addressable storage do not wrap around
  have octets : toSize (sizeofFloat * capacity) = sizeofFloat * capacity :=
    toSize_ofNat (sizeofFloat * capacity) (by unfold sizeofFloat; omega)
  have count : sizeofFloat * capacity / sizeofFloat = capacity :=
    Nat.mul_div_cancel_left capacity (by decide)
  have cleared : ∃ data, storage.clear (toSize (sizeofFloat * capacity)) = some data ∧
      data.cells.length = storage.cells.length := by
    rw [octets]
    simp only [Storage.clear, count, dif_pos inside]
    refine ⟨_, rfl, ?_⟩
    rw [List.length_append, List.length_replicate, List.length_drop, Nat.add_sub_cancel' inside]
  obtain ⟨data, cleared, length⟩ := cleared
  refine ⟨⟨data, capacity, 0, 0, 0⟩, by rw [ringbufInit, cleared]; rfl, ?_⟩
  exact {
    capacity := rfl
    positive := positive
    inside := length ▸ inside
    size := rfl
    within := Nat.zero_le _
    tail := positive
    head := (Nat.zero_mod capacity).symm
    contents := InRing.nil _ _ _ }

section
variable {rb : Ringbuf Sample} {bound : Nat} {items : List Sample}

/-- A counter moves to the next cell of the ring. -/
theorem Represents.advance (held : Represents rb bound items) {position : Nat}
    (below : position < bound) : wrap (position + 1) rb.capacity = some ((position + 1) % bound) := by
  have small := held.bound_lt
  rw [held.capacity]
  exact wrap_ofNat (position + 1) held.positive (by omega)

theorem Represents.push (held : Represents rb bound items) (value : Sample) :
    ∃ next, ringbufPush rb value = some next ∧
      Represents next bound (pushBounded bound items value) := by
  have small := held.bound_lt
  have inside := held.inside
  have within := held.within
  obtain ⟨data, written, cells⟩ : ∃ data, rb.data.write rb.head value = some data ∧
      data.cells = rb.data.cells.set rb.head value :=
    ⟨_, if_pos (held.head_lt.trans_le inside), rfl⟩
  have reserved : bound ≤ data.cells.length := by
    rw [cells, List.length_set]
    exact inside
  have turned : (rb.head + 1) % bound = (rb.tail + (items.length + 1)) % bound := by
    rw [held.head, Nat.mod_add_mod, Nat.add_assoc]
  simp only [ringbufPush, written, held.advance held.head_lt, held.advance held.tail,
    Option.bind_eq_bind, Option.bind_some]
  by_cases room : items.length < bound
  · -- the next cell is free
    rw [if_pos (by rw [held.size, held.capacity]; exact room), pushBounded_room room]
    refine ⟨_, rfl, ?_⟩
    exact {
      capacity := held.capacity
      positive := held.positive
      inside := reserved
      size := by
        rw [List.length_append, held.size]
        exact toSize_ofNat (items.length + 1) (by omega)
      within := by
        rw [List.length_append]
        exact room
      tail := held.tail
      head := by
        rw [List.length_append]
        exact turned
      contents := by
        rw [cells, held.head]
        exact held.contents.push room inside value }
  · -- the oldest cell is overwritten
    have full : items.length = bound := by omega
    cases items with
    | nil => exact absurd held.positive (by rw [← full]; exact Nat.lt_irrefl 0)
    | cons first rest =>
      have length : rest.length + 1 = bound := full
      rw [if_neg (by rw [held.size, held.capacity]; exact room), pushBounded_full full]
      refine ⟨_, rfl, ?_⟩
      exact {
        capacity := held.capacity
        positive := held.positive
        inside := reserved
        size := by
          rw [List.length_append]
          exact held.size
        within := by
          rw [List.length_append]
          exact within
        tail := Nat.mod_lt _ held.positive
        head := by
          rw [List.length_append, List.length_singleton, turned, full, length, Nat.mod_add_mod]
          rw [Nat.add_right_comm, Nat.add_assoc]
        contents := by
          rw [cells, held.head, full]
          exact held.contents.overwrite length inside value }

theorem Represents.pop (held : Represents rb bound items) (out : Sample) :
    ∃ success next result, ringbufPop rb out = some (success, next, result) ∧
      shown success result = items.head? ∧ Represents next bound (items.drop 1) := by
  have small := held.bound_lt
  have within := held.within
  cases items with
  | nil => exact ⟨false, rb, out, if_pos held.size, rfl, held⟩
  | cons first rest =>
    have nonempty : rb.size ≠ 0 := by
      rw [held.size]
      exact Nat.succ_ne_zero _
    have read : rb.data.read rb.tail = some first := by
      have front := held.contents.front
      rwa [Nat.mod_eq_of_lt held.tail] at front
    simp only [ringbufPop, if_neg nonempty, read, held.advance held.tail, Option.bind_eq_bind,
      Option.bind_some]
    refine ⟨true, _, first, rfl, rfl, ?_⟩
    exact {
      capacity := held.capacity
      positive := held.positive
      inside := held.inside
      size := by
        rw [held.size]
        exact toSize_sub (rest.length + 1) 1 (by omega) (by simp only [List.length_cons] at within; omega)
      within := Nat.le_of_succ_le within
      tail := Nat.mod_lt _ held.positive
      head := by
        rw [held.head, Nat.mod_add_mod, List.length_cons, List.drop_one, List.tail_cons,
          Nat.add_right_comm, Nat.add_assoc]
      contents := held.contents.pop }

/-! Observers. -/

theorem Represents.index (held : Represents rb bound items) {age : Nat} (within : age < bound) :
    wrap (rb.head + rb.capacity - 1 - age) rb.capacity =
      some ((rb.head + bound - 1 - age) % bound) := by
  have small := held.bound_lt
  have head := held.head_lt
  have exact : (rb.head : Int) + bound - 1 - age = (rb.head + bound - 1 - age : Nat) := by omega
  rw [held.capacity, exact]
  exact wrap_ofNat _ held.positive (by omega)

theorem Represents.aged (held : Represents rb bound items) (age : Nat) (out : Sample) :
    ∃ success result, ringbufAt rb age out = some (success, result) ∧
      shown success result = items.reverse[age]? := by
  by_cases present : age < items.length
  · have cell := held.contents.aged present held.within
    have index := held.index (present.trans_le held.within)
    have reversed : age < items.reverse.length := by
      rw [List.length_reverse]
      exact present
    rw [← held.head, List.getElem?_eq_getElem reversed] at cell
    rw [ringbufAt, if_neg (by rw [held.size]; exact Nat.not_le.mpr present),
      List.getElem?_eq_getElem reversed]
    simp only [index, Storage.read, cell, Option.bind_eq_bind, Option.bind_some]
    exact ⟨true, _, rfl, rfl⟩
  · have outside : items.length ≤ age := Nat.le_of_not_lt present
    refine ⟨false, out, if_pos (held.size ▸ outside), ?_⟩
    exact (List.getElem?_eq_none (by rw [List.length_reverse]; exact outside)).symm

/-- The index of the newest sample, computed without a remainder. -/
theorem Represents.latest_index (held : Represents rb bound items) :
    (if rb.head = 0 then toSize (rb.capacity - 1) else toSize (rb.head - 1)) =
      (rb.head + bound - 1) % bound := by
  have small := held.bound_lt
  have head := held.head_lt
  have positive := held.positive
  rw [held.capacity]
  by_cases zero : rb.head = 0
  · rw [if_pos zero, zero, Nat.zero_add, Nat.mod_eq_of_lt (by omega)]
    exact toSize_sub bound 1 positive (by omega)
  · have turn : rb.head + bound - 1 = rb.head - 1 + bound := by omega
    rw [if_neg zero, turn, Nat.add_mod_right, Nat.mod_eq_of_lt (by omega)]
    exact toSize_sub rb.head 1 (by omega) (by omega)

/-- The newest sample is the one of age zero. -/
theorem Represents.latest (held : Represents rb bound items) (out : Sample) :
    ∃ success result, ringbufLatest rb out = some (success, result) ∧
      shown success result = items.getLast? := by
  obtain ⟨success, result, called, same⟩ := held.aged 0 out
  have index := held.index held.positive
  refine ⟨success, result, ?_, ?_⟩
  · rw [← called, ringbufLatest, ringbufAt]
    by_cases empty : rb.size = 0
    · rw [if_pos empty, if_pos (Nat.le_of_eq empty)]
    · rw [if_neg empty, if_neg fun none => empty (Nat.le_zero.mp none), index, held.latest_index]
      rfl
  · rw [same, ← List.head?_eq_getElem?, List.head?_reverse]

end

/-- Everything a caller can ask the buffer agrees with the list. -/
structure Shows (rb : Ringbuf Sample) (bound : Nat) (items : List Sample) : Prop where
  pop : ∀ out, ∃ success next result, ringbufPop rb out = some (success, next, result) ∧
    shown success result = items.head?
  latest : ∀ out, ∃ success result, ringbufLatest rb out = some (success, result) ∧
    shown success result = items.getLast?
  aged : ∀ age out, ∃ success result, ringbufAt rb age out = some (success, result) ∧
    shown success result = items.reverse[age]?
  size : ringbufSize rb = items.length
  empty : ringbufEmpty rb = true ↔ items = []
  full : ringbufFull rb = true ↔ items.length = bound

theorem Represents.shows {rb : Ringbuf Sample} {bound : Nat} {items : List Sample}
    (held : Represents rb bound items) : Shows rb bound items where
  pop out := by
    obtain ⟨success, next, result, called, same, -⟩ := held.pop out
    exact ⟨success, next, result, called, same⟩
  latest := held.latest
  aged := held.aged
  size := held.size
  empty := by
    rw [ringbufEmpty, held.size, beq_iff_eq]
    exact List.length_eq_zero_iff
  full := by
    rw [ringbufFull, held.size, held.capacity, beq_iff_eq]

/-- A run of pushes and pops does what the queue does. -/
theorem Represents.run {rb : Ringbuf Sample} {bound : Nat} {items : List Sample}
    (held : Represents rb bound items) (out : Sample) (ops : List (QueueOp Sample)) :
    ∃ final, runRingbuf rb out ops = some ((runQueue bound items ops).1, final) ∧
      Represents final bound (runQueue bound items ops).2 := by
  induction ops generalizing rb items out with
  | nil => exact ⟨rb, rfl, held⟩
  | cons op rest ih =>
    cases op with
    | push value =>
      obtain ⟨next, pushed, held⟩ := held.push value
      obtain ⟨final, ran, held⟩ := ih held out
      refine ⟨final, ?_, held⟩
      simp only [runRingbuf, pushed, Option.bind_eq_bind, Option.bind_some, ran, runQueue]
    | pop =>
      obtain ⟨success, next, result, popped, same, held⟩ := held.pop out
      obtain ⟨final, ran, held⟩ := ih held result
      refine ⟨final, ?_, held⟩
      simp only [runRingbuf, popped, Option.bind_eq_bind, Option.bind_some, ran, runQueue, same]
      rfl

/-- The ring buffer is a bounded queue that drops its oldest sample. -/
theorem ringbuf_refines [Zero Sample] (storage : Storage Sample) (capacity : Nat)
    (positive : 1 ≤ capacity) (inside : capacity ≤ storage.cells.length) (out : Sample)
    (ops : List (QueueOp Sample)) :
    ∃ rb final, ringbufInit storage capacity = some rb ∧
      runRingbuf rb out ops = some ((runQueue capacity [] ops).1, final) ∧
      Shows final capacity (runQueue capacity [] ops).2 := by
  obtain ⟨rb, initialised, held⟩ := ringbufInit_represents storage positive inside
  obtain ⟨final, ran, held⟩ := held.run out ops
  exact ⟨rb, final, initialised, ran, held.shows⟩

theorem ringbuf_refines_pair :
    let storage : Storage Nat := ⟨[7, 7], by decide⟩
    let ops : List (QueueOp Nat) := [.push 1, .push 2, .push 3, .pop]
    ∃ rb final, ringbufInit storage 2 = some rb ∧
      runRingbuf rb 0 ops = some ((runQueue 2 [] ops).1, final) ∧
      Shows final 2 (runQueue 2 [] ops).2 :=
  ringbuf_refines _ 2 (by decide) (by decide) 0 _

end Simuless.Runtime
