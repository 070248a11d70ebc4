import Mathlib.Data.Matrix.Basic
import Simuless.Foundation.Loop

/-! Buffers, and square matrices stored in them row by row.

An access outside a buffer, a copy beyond its end and a division by zero have
no result. Neither have an index and a size beyond the range of the `int` they
are computed in. Where a function has at most 256 rows, or its caller has
checked a size as large, they are within it and no range is checked. Numbers are
those of a field in place of floats.
-/

set_option autoImplicit false

namespace Simuless.Linalg

open Foundation

variable {Item : Type}

/-- `INT_MAX`. -/
def intMax : Nat := 2147483647

/-- The value of an `int` that is not negative; beyond the range there is none. -/
def asInt (value : Nat) : Option Nat := if value ≤ intMax then some value else none

theorem asInt_small {value : Nat} (small : value ≤ intMax) : asInt value = some value := if_pos small

theorem asInt_large {value : Nat} (large : intMax < value) : asInt value = none :=
  if_neg (Nat.not_le.mpr large)

theorem asInt_ran {value result : Nat} (ran : asInt value = some result) : value ≤ intMax := by
  by_contra large
  rw [asInt_large (Nat.lt_of_not_le large)] at ran
  cases ran

structure Buffer (Item : Type) where
  size : Nat
  cells : Nat → Item

namespace Buffer

def read (buffer : Buffer Item) (index : Nat) : Option Item :=
  if index < buffer.size then some (buffer.cells index) else none

/-- The buffer with another item in one cell. -/
def set (buffer : Buffer Item) (index : Nat) (item : Item) : Buffer Item :=
  { buffer with cells := Function.update buffer.cells index item }

def write (buffer : Buffer Item) (index : Nat) (item : Item) : Option (Buffer Item) :=
  if index < buffer.size then some (buffer.set index item) else none

/-- `memcpy(target, source, count * sizeof(item))`. -/
def copy (target source : Buffer Item) (count : Nat) : Option (Buffer Item) :=
  if count ≤ target.size ∧ count ≤ source.size then
    some { target with cells := fun i => if i < count then source.cells i else target.cells i }
  else none

/-- `memset(target, 0, count * sizeof(item))`. -/
def clear [Zero Item] (target : Buffer Item) (count : Nat) : Option (Buffer Item) :=
  if count ≤ target.size then
    some { target with cells := fun i => if i < count then 0 else target.cells i }
  else none

/-- `buffer[index]`, with an index computed as an `int`. -/
def readInt (buffer : Buffer Item) (index : Nat) : Option Item := do
  let index ← asInt index
  buffer.read index

def writeInt (buffer : Buffer Item) (index : Nat) (item : Item) : Option (Buffer Item) := do
  let index ← asInt index
  buffer.write index item

/-- `*(buffer + start + index)`: the start is an `int`, and a pointer is moved on by the index. -/
def readFrom (buffer : Buffer Item) (start index : Nat) : Option Item := do
  let start ← asInt start
  buffer.read (start + index)

def writeFrom (buffer : Buffer Item) (start index : Nat) (item : Item) : Option (Buffer Item) := do
  let start ← asInt start
  buffer.write (start + index) item

/-- `memcpy(target, source, count * sizeof(item))`, with a count computed as an `int`. -/
def copyInt (target source : Buffer Item) (count : Nat) : Option (Buffer Item) := do
  let count ← asInt count
  target.copy source count

def clearInt [Zero Item] (target : Buffer Item) (count : Nat) : Option (Buffer Item) := do
  let count ← asInt count
  target.clear count

/-- The buffer with cells of another one from a start on. -/
def paste (target : Buffer Item) (start : Nat) (source : Buffer Item) (first count : Nat) : Buffer Item :=
  { target with cells := fun i =>
      if start ≤ i ∧ i < start + count then source.cells (first + (i - start)) else target.cells i }

/-- `memcpy(target + start, source + first, count * sizeof(item))`; where there is nothing
to copy, no cell is accessed. -/
def copyAt (target : Buffer Item) (start : Nat) (source : Buffer Item) (first count : Nat) :
    Option (Buffer Item) :=
  if count = 0 ∨ start + count ≤ target.size ∧ first + count ≤ source.size then
    some (target.paste start source first count)
  else none

/-- What a pointer to this cell points to. -/
def tail (buffer : Buffer Item) (first : Nat) : Buffer Item :=
  ⟨buffer.size - first, fun i => buffer.cells (first + i)⟩

/-- The buffer after writes through such a pointer. -/
def graft (buffer : Buffer Item) (first : Nat) (part : Buffer Item) : Buffer Item :=
  { buffer with cells := fun i => if i < first then buffer.cells i else part.cells (i - first) }

/-- The entry of a matrix with rows of this length. -/
def entry (buffer : Buffer Item) (row i j : Nat) : Item := buffer.cells (row * i + j)

/-- The square matrix in the buffer. -/
def matrix (buffer : Buffer Item) (row : Nat) : Matrix (Fin row) (Fin row) Item :=
  fun i j => buffer.entry row i j

/-- The matrix in the buffer. -/
def rectangle (buffer : Buffer Item) (row column : Nat) : Matrix (Fin row) (Fin column) Item :=
  fun i j => buffer.entry column i j

/-- The vector in the buffer. -/
def vector (buffer : Buffer Item) (row : Nat) : Fin row → Item := fun i => buffer.cells i

variable (buffer : Buffer Item)

theorem read_inside {index : Nat} (inside : index < buffer.size) :
    buffer.read index = some (buffer.cells index) := if_pos inside

theorem write_inside {index : Nat} (inside : index < buffer.size) (item : Item) :
    buffer.write index item = some (buffer.set index item) := if_pos inside

section
variable {start index count : Nat}

theorem readInt_inside (inside : index < buffer.size) (small : index ≤ intMax) :
    buffer.readInt index = some (buffer.cells index) := by
  rw [readInt, asInt_small small]
  exact buffer.read_inside inside

theorem readInt_ran {item : Item} (ran : buffer.readInt index = some item) : index ≤ intMax := by
  obtain ⟨_, converted, _⟩ := Option.bind_eq_some_iff.mp ran
  exact asInt_ran converted

theorem writeInt_inside (inside : index < buffer.size) (small : index ≤ intMax) (item : Item) :
    buffer.writeInt index item = some (buffer.set index item) := by
  rw [writeInt, asInt_small small]
  exact buffer.write_inside inside item

theorem readFrom_inside (inside : start + index < buffer.size) (small : start ≤ intMax) :
    buffer.readFrom start index = some (buffer.cells (start + index)) := by
  rw [readFrom, asInt_small small]
  exact buffer.read_inside inside

theorem writeFrom_inside (inside : start + index < buffer.size) (small : start ≤ intMax) (item : Item) :
    buffer.writeFrom start index item = some (buffer.set (start + index) item) := by
  rw [writeFrom, asInt_small small]
  exact buffer.write_inside inside item

theorem copyInt_small (small : count ≤ intMax) (source : Buffer Item) :
    buffer.copyInt source count = buffer.copy source count := by
  rw [copyInt, asInt_small small]
  rfl

theorem clearInt_small [Zero Item] (small : count ≤ intMax) :
    buffer.clearInt count = buffer.clear count := by
  rw [clearInt, asInt_small small]
  rfl

end

@[simp] theorem set_size (index : Nat) (item : Item) : (buffer.set index item).size = buffer.size := rfl

@[simp] theorem set_same (index : Nat) (item : Item) : (buffer.set index item).cells index = item :=
  Function.update_self _ _ _

@[simp] theorem set_cells (index : Nat) : buffer.set index (buffer.cells index) = buffer := by
  rw [set, Function.update_eq_self]

@[simp] theorem set_set (index : Nat) (item item' : Item) :
    (buffer.set index item).set index item' = buffer.set index item' := by
  simp only [set, Function.update_idem]

theorem set_other {index other : Nat} (different : other ≠ index) (item : Item) :
    (buffer.set index item).cells other = buffer.cells other :=
  Function.update_of_ne different _ _

/-- A copy over a whole array of this size. -/
theorem copy_whole (source : Buffer Item) (count : Nat) (cells : Nat → Item)
    (inside : count ≤ source.size) : (⟨count, cells⟩ : Buffer Item).copy source count =
      some ⟨count, fun i => if i < count then source.cells i else cells i⟩ :=
  if_pos ⟨Nat.le_refl count, inside⟩

end Buffer

/-- A division that is refused where it has no value. -/
def quotient {K : Type} [Zero K] [Div K] [DecidableEq K] (x y : K) : Option K :=
  if y = 0 then none else some (x / y)

theorem quotient_nonzero {K : Type} [Zero K] [Div K] [DecidableEq K] {y : K} (nonzero : y ≠ 0) (x : K) :
    quotient x y = some (x / y) := if_neg nonzero

/-! Indices of entries. -/

section
variable {row i j i' j' : Nat}

theorem flat_lt_product {column : Nat} (inRow : i < row) (inColumn : j < column) :
    column * i + j < row * column := by
  calc column * i + j < column * i + column := Nat.add_lt_add_left inColumn _
    _ = column * (i + 1) := (Nat.mul_succ column i).symm
    _ ≤ column * row := Nat.mul_le_mul_left column inRow
    _ = row * column := Nat.mul_comm column row

theorem flat_lt (inRow : i < row) (inColumn : j < row) : row * i + j < row * row :=
  flat_lt_product inRow inColumn

/-- The largest square matrix with an `int` as its size. -/
theorem square_small (rows : row ≤ 46340) : row * row ≤ intMax :=
  (Nat.mul_le_mul rows rows).trans (by decide)

theorem flat_small (rows : row ≤ 46340) (inRow : i < row) (inColumn : j < row) : row * i + j ≤ intMax :=
  (flat_lt inRow inColumn).le.trans (square_small rows)

theorem start_small (rows : row ≤ 46340) (inRow : i < row) : row * i ≤ intMax :=
  (Nat.mul_le_mul_left row inRow.le).trans (square_small rows)

theorem flat_injective (inColumn : j < row) (inColumn' : j' < row) (same : row * i + j = row * i' + j') :
    i = i' ∧ j = j' := by
  have positive : 0 < row := Nat.zero_lt_of_lt inColumn
  have rows := congrArg (· / row) same
  have columns := congrArg (· % row) same
  simp only [Nat.mul_add_div positive, Nat.div_eq_of_lt inColumn, Nat.div_eq_of_lt inColumn',
    Nat.add_zero] at rows
  simp only [Nat.mul_add_mod, Nat.mod_eq_of_lt inColumn, Nat.mod_eq_of_lt inColumn'] at columns
  exact ⟨rows, columns⟩

variable {buffer : Buffer Item}

theorem Buffer.read_entry {column : Nat} (room : row * column ≤ buffer.size) (inRow : i < row)
    (inColumn : j < column) : buffer.read (i * column + j) = some (buffer.entry column i j) := by
  rw [Nat.mul_comm i column]
  exact buffer.read_inside ((flat_lt_product inRow inColumn).trans_le room)

theorem Buffer.write_entry {column : Nat} (room : row * column ≤ buffer.size) (inRow : i < row)
    (inColumn : j < column) (item : Item) :
    buffer.write (i * column + j) item = some (buffer.set (column * i + j) item) := by
  rw [Nat.mul_comm i column]
  exact buffer.write_inside ((flat_lt_product inRow inColumn).trans_le room) item

theorem Buffer.readInt_entry {column : Nat} (small : row * column ≤ intMax)
    (room : row * column ≤ buffer.size) (inRow : i < row) (inColumn : j < column) :
    buffer.readInt (i * column + j) = some (buffer.entry column i j) := by
  have inside := flat_lt_product inRow inColumn
  rw [Nat.mul_comm i column]
  exact buffer.readInt_inside (inside.trans_le room) (inside.le.trans small)

theorem Buffer.writeInt_entry {column : Nat} (small : row * column ≤ intMax)
    (room : row * column ≤ buffer.size) (inRow : i < row) (inColumn : j < column) (item : Item) :
    buffer.writeInt (i * column + j) item = some (buffer.set (column * i + j) item) := by
  have inside := flat_lt_product inRow inColumn
  rw [Nat.mul_comm i column]
  exact buffer.writeInt_inside (inside.trans_le room) (inside.le.trans small) item

theorem Buffer.readInt_flat (rows : row ≤ 46340) (room : row * row ≤ buffer.size) (inRow : i < row)
    (inColumn : j < row) : buffer.readInt (row * i + j) = some (buffer.cells (row * i + j)) :=
  buffer.readInt_inside ((flat_lt inRow inColumn).trans_le room) (flat_small rows inRow inColumn)

theorem Buffer.writeInt_flat (rows : row ≤ 46340) (room : row * row ≤ buffer.size) (inRow : i < row)
    (inColumn : j < row) (item : Item) :
    buffer.writeInt (row * i + j) item = some (buffer.set (row * i + j) item) :=
  buffer.writeInt_inside ((flat_lt inRow inColumn).trans_le room) (flat_small rows inRow inColumn) item

theorem Buffer.readFrom_flat (rows : row ≤ 46340) (room : row * row ≤ buffer.size) (inRow : i < row)
    (inColumn : j < row) : buffer.readFrom (row * i) j = some (buffer.cells (row * i + j)) :=
  buffer.readFrom_inside ((flat_lt inRow inColumn).trans_le room) (start_small rows inRow)

theorem Buffer.writeFrom_flat (rows : row ≤ 46340) (room : row * row ≤ buffer.size) (inRow : i < row)
    (inColumn : j < row) (item : Item) :
    buffer.writeFrom (row * i) j item = some (buffer.set (row * i + j) item) :=
  buffer.writeFrom_inside ((flat_lt inRow inColumn).trans_le room) (start_small rows inRow) item

/-- Writing one entry leaves the others as they are. -/
theorem Buffer.entry_set (inColumn : j < row) (inColumn' : j' < row) (item : Item) :
    (buffer.set (row * i + j) item).entry row i' j' =
      if i' = i ∧ j' = j then item else buffer.entry row i' j' := by
  rw [Buffer.entry]
  split
  case isTrue same => rw [same.1, same.2, Buffer.set_same]
  case isFalse apart =>
    rw [Buffer.set_other _ fun same => apart (flat_injective inColumn' inColumn same)]
    rfl

end

end Simuless.Linalg
