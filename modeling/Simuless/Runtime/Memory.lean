import Mathlib.Logic.Function.Basic
import Mathlib.Tactic.Common
import Simuless.Foundation.Block

/-! Signal edges and the memory that nodes read and write.

Edges are referred to by number. Memory cells belong to numbered arrays of
four kinds: an edge's signal, an integrator's accumulators and the two
histories of a difference equation, so private state is never a signal. Every
access is recorded in a trace the program itself cannot see.
-/

set_option autoImplicit false

namespace Simuless.Runtime

inductive DType where
  | bool
  | float32
  | uint32
  | int32
  deriving DecidableEq

structure Edge where
  /-- The array the signal pointer refers to; `none` is a null pointer. -/
  signal : Option Nat
  type : DType
  rank : Int
  shape : Fin 4 → UInt16
  timestampUs : UInt64
  sequence : UInt32

/-- The product of the four dimensions in 32 bits. -/
def dtypeElementCount (edge : Option Edge) : UInt32 :=
  match edge with
  | none => 0
  | some edge => (List.finRange 4).foldl (fun count i => count * (edge.shape i).toUInt32) 1

inductive Cell where
  | signal (array index : Nat)
  | accumulator (array index : Nat)
  | inputHist (array index : Nat)
  | outputHist (array index : Nat)
  deriving DecidableEq

theorem Cell.signal_ne {i j : Nat} (different : i ≠ j) (array : Nat) :
    Cell.signal array i ≠ Cell.signal array j := by
  intro same
  injection same with _ index
  exact different index

theorem Cell.accumulator_ne {i j : Nat} (different : i ≠ j) (array : Nat) :
    Cell.accumulator array i ≠ Cell.accumulator array j := by
  intro same
  injection same with _ index
  exact different index

inductive Access where
  | read (cell : Cell)
  | write (cell : Cell)
  deriving DecidableEq

structure Memory (Value : Type) where
  edges : Nat → Edge
  cells : Cell → Value
  trace : List Access

namespace Memory

variable {Value : Type}

def load (memory : Memory Value) (cell : Cell) : Value × Memory Value :=
  (memory.cells cell, { memory with trace := memory.trace ++ [.read cell] })

def store (memory : Memory Value) (cell : Cell) (value : Value) : Memory Value :=
  { memory with
    cells := Function.update memory.cells cell value
    trace := memory.trace ++ [.write cell] }

/-- The caller writes a signal array between two steps. -/
def poke (memory : Memory Value) (array : Nat) (values : Nat → Value) : Memory Value :=
  { memory with
    cells := fun cell => match cell with
      | .signal other index => if other = array then values index else memory.cells cell
      | _ => memory.cells cell }

/-- `memcpy(target->shape, source->shape, sizeof(uint16_t) * rank)`; a copy
beyond the four dimensions has no result. -/
def copyShape (rank : Int) (target source : Fin 4 → UInt16) : Option (Fin 4 → UInt16) :=
  let octets := Foundation.toSize (2 * rank)
  if octets ≤ 8 then some fun i => if 2 * i.val < octets then source i else target i else none

/-- The output edge takes over type, rank and shape of the input edge. -/
def copyDescriptor (memory : Memory Value) (target source : Nat) : Option (Memory Value) := do
  let inEdge := memory.edges source
  let outEdge := { memory.edges target with type := inEdge.type, rank := inEdge.rank }
  let shape ← copyShape inEdge.rank outEdge.shape inEdge.shape
  return { memory with edges := Function.update memory.edges target { outEdge with shape } }

/-- The same memory with another descriptor in this edge. -/
def setEdge (memory : Memory Value) (number : Nat) (edge : Edge) : Memory Value :=
  { memory with edges := Function.update memory.edges number edge }

variable (memory : Memory Value) (cell : Cell) (value : Value)

@[simp] theorem setEdge_self (number : Nat) (edge : Edge) :
    (memory.setEdge number edge).edges number = edge :=
  Function.update_self _ _ _

theorem setEdge_other {number other : Nat} (different : other ≠ number) (edge : Edge) :
    (memory.setEdge number edge).edges other = memory.edges other :=
  Function.update_of_ne different _ _

/-- What the caller wrote is there. -/
theorem poke_signal (array i : Nat) (values : Nat → Value) :
    (memory.poke array values).cells (.signal array i) = values i := if_pos rfl

@[simp] theorem load_value : (memory.load cell).1 = memory.cells cell := rfl

@[simp] theorem load_edges : (memory.load cell).2.edges = memory.edges := rfl

@[simp] theorem load_cells : (memory.load cell).2.cells = memory.cells := rfl

@[simp] theorem load_trace : (memory.load cell).2.trace = memory.trace ++ [.read cell] := rfl

@[simp] theorem store_edges : (memory.store cell value).edges = memory.edges := rfl

@[simp] theorem store_cells :
    (memory.store cell value).cells = Function.update memory.cells cell value := rfl

@[simp] theorem store_trace : (memory.store cell value).trace = memory.trace ++ [.write cell] := rfl

theorem store_other {cell other : Cell} (different : cell ≠ other) (value : Value) :
    (memory.store other value).cells cell = memory.cells cell :=
  Function.update_of_ne different _ _

/-! Loops over memory, element by element. -/

section
variable {body : Memory Value → Nat → Memory Value} {memory}

theorem foldl_edges (each : ∀ memory i, (body memory i).edges = memory.edges) (list : List Nat) :
    (list.foldl body memory).edges = memory.edges := by
  induction list generalizing memory with
  | nil => rfl
  | cons i rest ih => exact ih.trans (each memory i)

theorem foldl_trace {accesses : Nat → List Access}
    (each : ∀ memory i, (body memory i).trace = memory.trace ++ accesses i) (list : List Nat) :
    (list.foldl body memory).trace = memory.trace ++ list.flatMap accesses := by
  induction list generalizing memory with
  | nil => exact (List.append_nil _).symm
  | cons i rest ih =>
    rw [List.foldl_cons, ih, each, List.flatMap_cons, List.append_assoc]

/-- A cell that no turn of the loop changes is not changed. -/
theorem foldl_other {cell : Cell} (list : List Nat)
    (each : ∀ memory, ∀ i ∈ list, (body memory i).cells cell = memory.cells cell) :
    (list.foldl body memory).cells cell = memory.cells cell := by
  induction list generalizing memory with
  | nil => rfl
  | cons i rest ih =>
    rw [List.foldl_cons, ih fun memory other member => each memory other (List.mem_cons_of_mem i member)]
    exact each memory i List.mem_cons_self

/-- A cell that no turn after turn `i` changes is as turn `i` has left it. -/
theorem foldl_turn {cell : Cell} {i count : Nat} (inside : i < count)
    (later : ∀ memory j, i < j → (body memory j).cells cell = memory.cells cell) :
    ((List.range count).foldl body memory).cells cell =
      (body ((List.range i).foldl body memory) i).cells cell := by
  induction count with
  | zero => exact absurd inside (Nat.not_lt_zero i)
  | succ count ih =>
    rw [List.range_succ, List.foldl_append, List.foldl_cons, List.foldl_nil]
    by_cases last : i = count
    · rw [last]
    · rw [later _ count (by omega)]
      exact ih (by omega)

end

/-- From one memory to another only accesses with this property were made. -/
structure Reaches (property : Access → Prop) (before after : Memory Value) : Prop where
  edges : after.edges = before.edges
  trace : ∃ accesses, after.trace = before.trace ++ accesses ∧ ∀ access ∈ accesses, property access

section
variable {property : Access → Prop} {before middle after : Memory Value}

theorem Reaches.refl (memory : Memory Value) : Reaches property memory memory :=
  ⟨rfl, [], (List.append_nil _).symm, fun _ member => by cases member⟩

theorem Reaches.trans (first : Reaches property before middle)
    (later : Reaches property middle after) : Reaches property before after := by
  obtain ⟨same, accesses, trace, good⟩ := first
  obtain ⟨same', accesses', trace', good'⟩ := later
  refine ⟨same'.trans same, accesses ++ accesses', ?_, ?_⟩
  · rw [trace', trace, List.append_assoc]
  · intro access member
    rcases List.mem_append.mp member with member | member
    · exact good access member
    · exact good' access member

theorem Reaches.load (memory : Memory Value) {cell : Cell} (good : property (.read cell)) :
    Reaches property memory (memory.load cell).2 :=
  ⟨rfl, [.read cell], rfl, fun _ member => List.mem_singleton.mp member ▸ good⟩

theorem Reaches.store (memory : Memory Value) {cell : Cell} (value : Value)
    (good : property (.write cell)) : Reaches property memory (memory.store cell value) :=
  ⟨rfl, [.write cell], rfl, fun _ member => List.mem_singleton.mp member ▸ good⟩

end

end Memory

end Simuless.Runtime
