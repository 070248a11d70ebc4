import Mathlib.Algebra.BigOperators.Fin
import Mathlib.Data.Fin.VecNotation
import Simuless.Runtime.NodeApi

/-! How many elements an edge has.

The four dimensions are multiplied in 32 bits. The product serves as a loop
bound and as the check for a scalar, and neither notices when it has wrapped.
-/

set_option autoImplicit false

namespace Simuless.Runtime

/-- The number of elements the shape describes. -/
def Edge.elements (edge : Edge) : Nat := ∏ i, (edge.shape i).toNat

/-- Between two memories every one of this many elements was read from the
source and written to the target. -/
def Visits {Value : Type} (before after : Memory Value) (source target elements : Nat) : Prop :=
  ∃ accesses, after.trace = before.trace ++ accesses ∧ ∀ i < elements,
    .read (.signal source i) ∈ accesses ∧ .write (.signal target i) ∈ accesses

/-- What the operators rely on when they count the elements of an edge. -/
structure CountsExactly (Value : Type) [Zero Value] [Add Value] [Mul Value] [BEq Value] (edge : Edge) :
    Prop where
  count : (dtypeElementCount (some edge)).toNat = edge.elements
  scalar : ∀ (node : Node Value) (memory : Memory Value) (number : Nat), memory.edges number = edge →
    node.inputs 0 = some number ∨ node.outputs 0 = some number →
      diffEqValidate (some node) memory = some .ok → ∀ i, edge.shape i = 1
  visited : ∀ (node : Node Value) (memory after : Memory Value) (input output source target : Nat),
    Wired node memory input output source target → memory.edges input = edge →
      gainStep (some node) memory = some (.ok, after) ∨
        integratorStep (some node) memory = some (.ok, after) →
          Visits memory after source target edge.elements

/-! The product in 32 bits. -/

theorem count_fold (shape : Fin 4 → UInt16) (list : List (Fin 4)) (count : UInt32) :
    (list.foldl (fun count i => count * (shape i).toUInt32) count).toNat =
      count.toNat * (list.map fun i => (shape i).toNat).prod % 2 ^ 32 := by
  induction list generalizing count with
  | nil =>
    rw [List.foldl_nil, List.map_nil, List.prod_nil, Nat.mul_one]
    exact (Nat.mod_eq_of_lt count.toNat_lt).symm
  | cons i rest ih =>
    rw [List.foldl_cons, ih, List.map_cons, List.prod_cons, UInt32.toNat_mul,
      UInt16.toNat_toUInt32, Nat.mod_mul_mod, Nat.mul_assoc]

theorem elementCount_mod (edge : Edge) :
    (dtypeElementCount (some edge)).toNat = edge.elements % 2 ^ 32 := by
  rw [dtypeElementCount, count_fold, Edge.elements, Fin.prod_univ_def]
  exact congrArg (· % 2 ^ 32) (Nat.one_mul _)

theorem elementCount_iff (edge : Edge) :
    (dtypeElementCount (some edge)).toNat = edge.elements ↔ edge.elements < 2 ^ 32 := by
  rw [elementCount_mod]
  constructor
  · intro exact
    rw [← exact]
    exact Nat.mod_lt _ (Nat.two_pow_pos 32)
  · exact Nat.mod_eq_of_lt

/-- Only the scalar shape has one element. -/
theorem elements_one {edge : Edge} : edge.elements = 1 ↔ ∀ i, edge.shape i = 1 := by
  rw [Edge.elements, Finset.prod_eq_one_iff]
  constructor
  · intro ones i
    exact UInt16.toNat_inj.mp (ones i (Finset.mem_univ i))
  · intro ones i _
    rw [ones i]
    rfl

/-! What the operators count. -/

section
variable {Value : Type} {node : Node Value} {memory after : Memory Value}
  {input output source target : Nat}

/-- A validated difference equation has counted one element on either side. -/
theorem diffEq_counts_one [Zero Value] [BEq Value] {number : Nat}
    (valid : diffEqValidate (some node) memory = some .ok)
    (bound : node.inputs 0 = some number ∨ node.outputs 0 = some number) : memory.count number = 1 := by
  obtain ⟨wiring, ready⟩ := diffEqValidate_ok.mp valid
  rcases bound with bound | bound
  · cases ready.bound.1.symm.trans bound
    rw [Memory.count, ready.scalar.1]
    rfl
  · cases ready.bound.2.symm.trans bound
    rw [Memory.count, ready.scalar.2]
    rfl

variable (wired : Wired node memory input output source target)
include wired

theorem gain_visits [Mul Value] (stepped : gainStep (some node) memory = some (.ok, after)) :
    Visits memory after source target (memory.count input) := by
  obtain ⟨param, input', output', source', target', ready⟩ := gainStep_ok stepped
  cases ready.bound.1.symm.trans wired.bound.1
  cases ready.bound.2.symm.trans wired.bound.2
  cases ready.inSignal.symm.trans wired.inSignal
  cases ready.outSignal.symm.trans wired.outSignal
  rw [gainStep_ready ready] at stepped
  cases stepped
  refine ⟨_, gainLoop_trace _ _ _ _, fun i below => ?_⟩
  simp only [List.mem_flatMap, List.mem_range]
  exact ⟨⟨i, below, by simp⟩, ⟨i, below, by simp⟩⟩

theorem integrator_visits [Add Value] [Mul Value]
    (stepped : integratorStep (some node) memory = some (.ok, after)) :
    Visits memory after source target (memory.count input) := by
  obtain ⟨param, state, input', output', source', target', array, ready⟩ := integratorStep_ok stepped
  cases ready.bound.1.symm.trans wired.bound.1
  cases ready.bound.2.symm.trans wired.bound.2
  cases ready.inSignal.symm.trans wired.inSignal
  cases ready.outSignal.symm.trans wired.outSignal
  rw [integratorStep_ready ready] at stepped
  cases stepped
  refine ⟨_, integratorLoop_trace _ _ _ _ _, fun i below => ?_⟩
  simp only [List.mem_flatMap, List.mem_range]
  exact ⟨⟨i, below, by simp⟩, ⟨i, below, by simp⟩⟩

end

/-- Counting serves its purpose exactly for the shapes of less than 2^32 elements. -/
theorem countsExactly_iff (Value : Type) [Zero Value] [Add Value] [Mul Value] [BEq Value] (edge : Edge) :
    CountsExactly Value edge ↔ edge.elements < 2 ^ 32 := by
  constructor
  · intro counts
    exact (elementCount_iff edge).mp counts.count
  · intro small
    have exact := (elementCount_iff edge).mpr small
    constructor
    case count => exact exact
    case scalar =>
      intro node memory number same bound valid
      have one := diffEq_counts_one valid bound
      rw [Memory.count, same, exact] at one
      exact elements_one.mp one
    case visited =>
      intro node memory after input output source target wired same stepped
      have count : memory.count input = edge.elements := by rw [Memory.count, same, exact]
      rw [← count]
      rcases stepped with stepped | stepped
      · exact gain_visits wired stepped
      · exact integrator_visits wired stepped

/-- A shape of 2^33 + 1 elements. -/
def vastEdge : Edge := ⟨some 0, .float32, 3, ![603, 683, 20857, 1], 0, 0⟩

/-- It counts as one element: the difference equation accepts it, and a gain
step reads its first element only. -/
theorem vast_counts_one : ∃ equation gain after,
    let memory : Memory Int := ⟨fun _ => vastEdge, fun _ => 1, []⟩
    vastEdge.elements = 2 ^ 33 + 1 ∧ dtypeElementCount (some vastEdge) = 1 ∧
      builtNode .diffEq (some ⟨⟨0⟩, ⟨0⟩, ⟨some fun _ => 1, some fun _ => 1, 1, 1⟩⟩)
        (some ⟨⟨none, 0⟩, ⟨some 0, none⟩⟩) (0 : Int) = some equation ∧
      diffEqValidate (some equation) memory = some .ok ∧
      gainNode = some gain ∧ gainStep (some gain) memory = some (.ok, after) ∧
      after.trace = [.read (.signal 0 0), .write (.signal 0 0)] ∧ ¬ CountsExactly Int vastEdge := by
  refine ⟨_, _, _, by decide, by decide, rfl, rfl, rfl, rfl, rfl, ?_⟩
  intro counts
  have scalar := counts.count
  exact absurd scalar (by decide)

end Simuless.Runtime
