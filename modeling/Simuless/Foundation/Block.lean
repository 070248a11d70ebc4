import Simuless.Foundation.LittleEndian

/-! Fixed-size memory objects with checked accesses.

An access names the range it touches. One that leaves the object has no
result, so a program whose run has a result has stayed inside its objects.
-/

set_option autoImplicit false

namespace Simuless.Foundation

/-- Conversion of an integer expression to an unsigned 64-bit size. -/
def toSize (value : Int) : Nat := (value % 2 ^ 64).toNat

theorem toSize_ofNat (value : Nat) (small : value < 2 ^ 64) : toSize (value : Int) = value := by
  unfold toSize
  omega

theorem toSize_sub (value less : Nat) (below : less ≤ value) (small : value < 2 ^ 64) :
    toSize ((value : Int) - (less : Int)) = value - less := by
  unfold toSize
  omega

/-- An object of exactly `size` octets. -/
@[ext] structure Block (size : Nat) where
  bytes : Bytes
  length_bytes : bytes.length = size
  deriving DecidableEq

variable {size : Nat}

attribute [simp] Block.length_bytes

def Block.replicate (size : Nat) (value : UInt8) : Block size :=
  ⟨List.replicate size value, List.length_replicate⟩

def Block.ofBytes (bytes : Bytes) : Block bytes.length := ⟨bytes, rfl⟩

def Block.load (block : Block size) (offset count : Nat) : Option Bytes :=
  if offset + count ≤ size then some ((block.bytes.drop offset).take count) else none

def Block.overwrite (block : Block size) (offset : Nat) (data : Bytes)
    (fits : offset + data.length ≤ size) : Block size :=
  ⟨block.bytes.take offset ++ data ++ block.bytes.drop (offset + data.length), by
    simp only [List.length_append, List.length_take, List.length_drop, block.length_bytes]
    omega⟩

def Block.store (block : Block size) (offset : Nat) (data : Bytes) : Option (Block size) :=
  if fits : offset + data.length ≤ size then some (block.overwrite offset data fits) else none

/-- Copy within one object; source and destination may overlap. -/
def Block.memmove (block : Block size) (target source count : Nat) : Option (Block size) := do
  let data ← block.load source count
  block.store target data

theorem Block.load_fits (block : Block size) (offset count : Nat) (fits : offset + count ≤ size) :
    block.load offset count = some ((block.bytes.drop offset).take count) :=
  if_pos fits

theorem Block.store_fits (block : Block size) (offset : Nat) (data : Bytes)
    (fits : offset + data.length ≤ size) :
    block.store offset data = some (block.overwrite offset data fits) :=
  dif_pos fits

theorem Block.store_eq_some {block result : Block size} {offset : Nat} {data : Bytes}
    (stored : block.store offset data = some result) :
    ∃ fits : offset + data.length ≤ size, block.overwrite offset data fits = result := by
  unfold store at stored
  split at stored
  case isTrue fits => exact ⟨fits, Option.some.inj stored⟩
  case isFalse => cases stored

theorem Block.load_eq_some {block : Block size} {offset count : Nat} {data : Bytes}
    (loaded : block.load offset count = some data) :
    offset + count ≤ size ∧ (block.bytes.drop offset).take count = data := by
  unfold load at loaded
  split at loaded
  case isTrue fits => exact ⟨fits, Option.some.inj loaded⟩
  case isFalse => cases loaded

theorem Block.memmove_fits {target source count : Nat} {block moved : Block size}
    (done : block.memmove target source count = some moved) : source + count ≤ size := by
  simp only [memmove, Option.bind_eq_bind, Option.bind_eq_some_iff] at done
  obtain ⟨_, loaded, -⟩ := done
  exact (load_eq_some loaded).1

/-- Stores made one behind the other build up a record. -/
theorem Block.store_append {block : Block size} {done rest : Bytes}
    (bytes : block.bytes = done ++ rest) (data : Bytes) (fits : data.length ≤ rest.length) :
    ∃ next, block.store done.length data = some next ∧
      next.bytes = done ++ data ++ rest.drop data.length := by
  have total := block.length_bytes
  rw [bytes, List.length_append] at total
  have room : done.length + data.length ≤ size := by omega
  refine ⟨block.overwrite done.length data room, block.store_fits _ _ room, ?_⟩
  simp only [overwrite, bytes, List.take_left, ← List.drop_drop, List.drop_left]

/-- A block moved to the front of its object. -/
theorem Block.memmove_front (block : Block size) (source count : Nat) (fits : source + count ≤ size) :
    ∃ moved, block.memmove 0 source count = some moved ∧
      moved.bytes.take count = (block.bytes.drop source).take count := by
  have length : ((block.bytes.drop source).take count).length = count := by
    simp only [List.length_take, List.length_drop, block.length_bytes]
    omega
  have room : ((block.bytes.drop source).take count).length ≤ block.bytes.length := by
    rw [length, block.length_bytes]
    omega
  obtain ⟨moved, stored, bytes⟩ := block.store_append (List.nil_append _).symm _ room
  refine ⟨moved, ?_, ?_⟩
  · simp only [memmove, block.load_fits source count fits]
    exact stored
  · rw [bytes, List.nil_append]
    exact List.take_left' length

end Simuless.Foundation
