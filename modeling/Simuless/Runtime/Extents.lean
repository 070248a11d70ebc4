import Mathlib.Order.Nat
import Simuless.Runtime.NodeApi

/-! The extents a step stays in.

The loops of gain and integrator run over the elements of the input edge,
while they write to the output edge and to the accumulators. The difference
equation checks both edges for one element.
-/

set_option autoImplicit false

namespace Simuless.Runtime

variable {Value : Type}

/-- Writes to a signal stay within the output edge's elements, and private
state is touched within its declared length only. -/
def Inside (node : Node Value) (memory : Memory Value) : Access → Prop
  | .read (.signal _ _) => True
  | .write (.signal array index) => ∃ output, node.outputs 0 = some output ∧
      (memory.edges output).signal = some array ∧ index < memory.count output
  | .read (.accumulator array index) | .write (.accumulator array index) =>
      ∃ state, node.state = some state ∧ state.integrator.state = some array ∧
        index < state.integrator.dim.toNat
  | .read (.inputHist array index) | .write (.inputHist array index) =>
      ∃ param state, node.param = some param ∧ node.state = some state ∧
        state.diffEq.inputHist = some array ∧ index < param.diffEq.numOrder.toNat
  | .read (.outputHist array index) | .write (.outputHist array index) =>
      ∃ param state, node.param = some param ∧ node.state = some state ∧
        state.diffEq.outputHist = some array ∧ index < param.diffEq.denOrder.toNat - 1

/-- Everything accessed between two memories was inside. -/
def StaysInside (node : Node Value) (before after : Memory Value) : Prop :=
  ∃ accesses, after.trace = before.trace ++ accesses ∧ ∀ access ∈ accesses, Inside node before access

/-- The output edge has at least as many elements as the input edge. -/
def OutputCovers (node : Node Value) (memory : Memory Value) : Prop :=
  ∃ input output, node.inputs 0 = some input ∧ node.outputs 0 = some output ∧
    memory.count input ≤ memory.count output

/-- The integrator has at least as many accumulators as the input edge has elements. -/
def StateCovers (node : Node Value) (memory : Memory Value) : Prop :=
  ∃ input state, node.inputs 0 = some input ∧ node.state = some state ∧
    memory.count input ≤ state.integrator.dim.toNat

/-- What keeps the loop of a node's operator inside. -/
def Covered (node : Node Value) (memory : Memory Value) : Prop :=
  match node.ops with
  | some .gain => OutputCovers node memory
  | some .integrator => OutputCovers node memory ∧ StateCovers node memory
  | _ => True

section
variable {node : Node Value} {before after : Memory Value}

theorem staysInside_iff {accesses : List Access} (trace : after.trace = before.trace ++ accesses) :
    StaysInside node before after ↔ ∀ access ∈ accesses, Inside node before access := by
  constructor
  · rintro ⟨accesses', trace', inside⟩
    have same : accesses = accesses' := List.append_cancel_left (trace.symm.trans trace')
    rw [same]
    exact inside
  · intro inside
    exact ⟨accesses, trace, inside⟩

theorem outputCovers_iff {input output source target : Nat}
    (wired : Wired node before input output source target) :
    OutputCovers node before ↔
      ∀ i < before.count input, Inside node before (.write (.signal target i)) := by
  obtain ⟨⟨boundIn, boundOut⟩, -, outSignal, -, -⟩ := wired
  have extent (i : Nat) : Inside node before (.write (.signal target i)) ↔
      i < before.count output := by
    simp only [Inside, boundOut, Option.some.injEq, exists_eq_left', outSignal, true_and]
  simp only [extent, OutputCovers, boundIn, boundOut, Option.some.injEq, exists_and_left,
    exists_eq_left']
  exact (forall_lt_iff_le (a := before.count input)).symm

theorem gain_extents [Mul Value] (stepped : gainStep (some node) before = some (.ok, after)) :
    StaysInside node before after ↔ OutputCovers node before := by
  obtain ⟨param, input, output, source, target, ready⟩ := gainStep_ok stepped
  rw [gainStep_ready ready] at stepped
  cases stepped
  rw [staysInside_iff (gainLoop_trace _ _ _ _), outputCovers_iff ready.toWired]
  simp only [List.mem_flatMap, List.mem_range, List.mem_cons, List.not_mem_nil, or_false]
  constructor
  · intro inside i below
    exact inside _ ⟨i, below, Or.inr rfl⟩
  · rintro inside access ⟨i, below, rfl | rfl⟩
    · trivial
    · exact inside i below

theorem integrator_extents [Add Value] [Mul Value]
    (stepped : integratorStep (some node) before = some (.ok, after)) :
    StaysInside node before after ↔ OutputCovers node before ∧ StateCovers node before := by
  obtain ⟨param, state, input, output, source, target, array, ready⟩ := integratorStep_ok stepped
  rw [integratorStep_ready ready] at stepped
  cases stepped
  have extent (i : Nat) : Inside node before (.write (.accumulator array i)) ↔
      i < state.integrator.dim.toNat := by
    simp only [Inside, ready.stateBlock, Option.some.injEq, exists_eq_left', ready.accumulators,
      true_and]
  have covers : StateCovers node before ↔
      ∀ i < before.count input, Inside node before (.write (.accumulator array i)) := by
    simp only [extent, StateCovers, ready.bound.1, ready.stateBlock, Option.some.injEq,
      exists_and_left, exists_eq_left']
    exact (forall_lt_iff_le (a := before.count input)).symm
  -- turn i of the loop touches accumulator i and writes element i
  rw [staysInside_iff (integratorLoop_trace _ _ _ _ _), outputCovers_iff ready.toWired, covers]
  simp only [List.mem_flatMap, List.mem_range, List.mem_cons, List.not_mem_nil, or_false]
  constructor
  · intro inside
    constructor
    · intro i below
      exact inside _ ⟨i, below, by simp⟩
    · intro i below
      exact inside _ ⟨i, below, by simp⟩
  · rintro ⟨targets, accumulators⟩ access ⟨i, below, rfl | rfl | rfl | rfl | rfl⟩
    -- reading an accumulator is as much inside as writing it
    · exact accumulators i below
    · trivial
    · exact accumulators i below
    · exact accumulators i below
    · exact targets i below

variable [Zero Value] [BEq Value]

/-- The accesses of a ready difference equation are all inside. -/
theorem DiffEqReady.inside {wiring : DiffEqWiring Value} (ready : DiffEqReady node before wiring)
    {access : Access} (within : wiring.Within access) : Inside node before access := by
  obtain ⟨param, parameter, coefficients⟩ := ready.parameter
  obtain ⟨state, stateBlock, inputs, outputs⟩ := ready.state
  have input {i : Nat} (below : i < wiring.numOrder.toNat) :
      Inside node before (.write (.inputHist wiring.inputHist i)) :=
    ⟨param, state, parameter, stateBlock, inputs, by rw [coefficients]; exact below⟩
  have output {i : Nat} (below : i < wiring.denOrder.toNat - 1) :
      Inside node before (.write (.outputHist wiring.outputHist i)) := by
    have feedback : 1 < wiring.denOrder := UInt8.lt_iff_toNat_lt.mpr (by
      change 1 < wiring.denOrder.toNat
      omega)
    exact ⟨param, state, parameter, stateBlock, outputs feedback, by rw [coefficients]; exact below⟩
  match access, within with
  | .read (.signal _ _), _ => trivial
  | .write (.signal _ _), ⟨rfl, rfl⟩ =>
      refine ⟨wiring.output, ready.bound.2, ready.outSignal, ?_⟩
      rw [Memory.count, ready.scalar.2]
      decide
  | .read (.inputHist _ _), ⟨rfl, below⟩ => exact input below
  | .write (.inputHist _ _), ⟨rfl, below⟩ => exact input below
  | .read (.outputHist _ _), ⟨rfl, below⟩ => exact output below
  | .write (.outputHist _ _), ⟨rfl, below⟩ => exact output below

variable [Add Value] [Sub Value] [Mul Value] [Div Value]

theorem diffEq_extents (stepped : diffEqStep (some node) before = some (.ok, after)) :
    StaysInside node before after := by
  obtain ⟨wiring, ready⟩ := diffEqStep_ok stepped
  obtain ⟨after', stepped', -, reaches⟩ := diffEqStep_ready ready
  have same : after' = after := by
    rw [stepped'] at stepped
    cases stepped
    rfl
  subst same
  obtain ⟨accesses, trace, within⟩ := reaches.trace
  exact ⟨accesses, trace, fun access member => ready.inside (within access member)⟩

/-- A successful step stays inside if and only if the input edge has no more
elements than the storage the loop of the operator writes to. -/
theorem step_extents_iff (stepped : nodeStep (some node) before = some (0, after)) :
    StaysInside node before after ↔ Covered node before := by
  obtain ⟨ops, table⟩ := nodeStep_ops stepped
  rw [nodeStep_table table] at stepped
  simp only [Covered, table]
  cases ops with
  | gain => exact gain_extents (called_ok.mp stepped)
  | diffEq => exact iff_true_intro (diffEq_extents (called_ok.mp stepped))
  | integrator => exact integrator_extents (called_ok.mp stepped)

end

/-- A vector of two floats. -/
def pairEdge (signal : Option Nat) : Edge :=
  ⟨signal, .float32, 1, fun i => if i.val = 0 then 2 else 1, 0, 0⟩

theorem integrator_pair_inside : ∃ node after,
    let memory : Memory Int := ⟨fun i => pairEdge (some i), fun _ => 1, []⟩
    integratorNode = some node ∧ nodeStep (some node) memory = some (0, after) ∧
      StaysInside node memory after := by
  refine ⟨_, _, rfl, rfl, (step_extents_iff rfl).mpr ?_⟩
  exact ⟨⟨0, 1, rfl, rfl, by decide⟩, 0, _, rfl, rfl, by decide⟩

/-- From a vector to a scalar the step succeeds and writes past the output. -/
theorem integrator_pair_outside : ∃ node after,
    let memory : Memory Int :=
      ⟨fun i => if i = 0 then pairEdge (some i) else scalarEdge (some i), fun _ => 1, []⟩
    integratorNode = some node ∧ nodeStep (some node) memory = some (0, after) ∧
      .write (.signal 1 1) ∈ after.trace ∧ ¬ StaysInside node memory after := by
  refine ⟨_, _, rfl, rfl, by decide, ?_⟩
  rintro ⟨accesses, trace, inside⟩
  obtain rfl : _ = accesses := trace
  obtain ⟨output, bound, -, below⟩ := inside (.write (.signal 1 1)) (by decide)
  cases bound
  exact absurd below (by decide)

end Simuless.Runtime
