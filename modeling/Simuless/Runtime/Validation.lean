import Simuless.Runtime.NodeApi

/-! What validation leaves for the step to find out.

The validate callback of the difference equation checks everything its step
needs. The other two leave some of their checks to the step.
-/

set_option autoImplicit false

namespace Simuless.Runtime

variable {Value : Type}

/-- The edge's signal pointer is not null. -/
def HasSignal (memory : Memory Value) (edge : Option Nat) : Prop :=
  ∃ index source, edge = some index ∧ (memory.edges index).signal = some source

/-- The edge's elements are floats. -/
def HasFloats (memory : Memory Value) (edge : Option Nat) : Prop :=
  ∃ index, edge = some index ∧ (memory.edges index).type = .float32

/-- What a step needs of a node and validation does not check. -/
def Unchecked (node : Node Value) (memory : Memory Value) : Prop :=
  match node.ops with
  | some .gain =>
      (HasSignal memory (node.inputs 0) ∧ HasSignal memory (node.outputs 0)) ∧
        HasFloats memory (node.inputs 0) ∧ HasFloats memory (node.outputs 0)
  | some .integrator =>
      (HasSignal memory (node.inputs 0) ∧ HasSignal memory (node.outputs 0)) ∧
        node.param.isSome ∧ ∃ state array, node.state = some state ∧ state.integrator.state = some array
  | _ => True

section
variable {node : Node Value} {memory : Memory Value}

theorem gain_steps_iff [Mul Value] (valid : gainValidate (some node) memory = some .ok) :
    (∃ after, gainStep (some node) memory = some (.ok, after)) ↔
      (HasSignal memory (node.inputs 0) ∧ HasSignal memory (node.outputs 0)) ∧
        HasFloats memory (node.inputs 0) ∧ HasFloats memory (node.outputs 0) := by
  constructor
  · rintro ⟨after, stepped⟩
    obtain ⟨param, input, output, source, target, ready⟩ := gainStep_ok stepped
    obtain ⟨boundIn, boundOut⟩ := ready.bound
    exact ⟨⟨⟨input, source, boundIn, ready.inSignal⟩, output, target, boundOut, ready.outSignal⟩,
      ⟨input, boundIn, ready.inType⟩, output, boundOut, ready.outType⟩
  · rintro ⟨⟨⟨input, source, boundIn, inSignal⟩, output, target, boundOut, outSignal⟩,
      ⟨input', boundIn', inType⟩, output', boundOut', outType⟩
    rw [boundIn, Option.some.injEq] at boundIn'
    rw [boundOut, Option.some.injEq] at boundOut'
    subst boundIn' boundOut'
    obtain ⟨param, parameter⟩ := Option.isSome_iff_exists.mp (gainValidate_ok.mp valid).1
    -- validation has checked the parameter
    have ready : GainReady node memory param input output source target :=
      ⟨⟨⟨boundIn, boundOut⟩, inSignal, outSignal, inType, outType⟩, parameter⟩
    exact ⟨_, gainStep_ready ready⟩

theorem integrator_steps_iff [Add Value] [Mul Value]
    (valid : integratorValidate (some node) memory = some .ok) :
    (∃ after, integratorStep (some node) memory = some (.ok, after)) ↔
      (HasSignal memory (node.inputs 0) ∧ HasSignal memory (node.outputs 0)) ∧ node.param.isSome ∧
        ∃ state array, node.state = some state ∧ state.integrator.state = some array := by
  constructor
  · rintro ⟨after, stepped⟩
    obtain ⟨param, state, input, output, source, target, array, ready⟩ := integratorStep_ok stepped
    obtain ⟨boundIn, boundOut⟩ := ready.bound
    exact ⟨⟨⟨input, source, boundIn, ready.inSignal⟩, output, target, boundOut, ready.outSignal⟩,
      Option.isSome_iff_exists.mpr ⟨param, ready.parameter⟩, state, array, ready.stateBlock,
      ready.accumulators⟩
  · rintro ⟨⟨⟨input, source, boundIn, inSignal⟩, output, target, boundOut, outSignal⟩, present, state,
      array, stateBlock, accumulators⟩
    obtain ⟨input', output', boundIn', boundOut', inRank, outRank, inType, outType⟩ :=
      integratorValidate_ok.mp valid
    rw [boundIn, Option.some.injEq] at boundIn'
    rw [boundOut, Option.some.injEq] at boundOut'
    subst boundIn' boundOut'
    obtain ⟨param, parameter⟩ := Option.isSome_iff_exists.mp present
    -- validation has checked the ranks and the types
    have ready : IntegratorReady node memory param state input output source target array :=
      ⟨⟨⟨boundIn, boundOut⟩, inSignal, outSignal, inType, outType⟩, ⟨inRank, outRank⟩, parameter,
        stateBlock, accumulators⟩
    exact ⟨_, integratorStep_ready ready⟩

variable [Zero Value] [Add Value] [Sub Value] [Mul Value] [Div Value] [BEq Value]

theorem diffEq_steps (valid : diffEqValidate (some node) memory = some .ok) :
    ∃ after, diffEqStep (some node) memory = some (.ok, after) := by
  obtain ⟨wiring, ready⟩ := diffEqValidate_ok.mp valid
  obtain ⟨after, stepped, -⟩ := diffEqStep_ready ready
  exact ⟨after, stepped⟩

/-- A validated node steps if and only if what validation left out is there. -/
theorem validate_sufficient_iff (valid : nodeValidate (some node) memory = some 0) :
    (∃ after, nodeStep (some node) memory = some (0, after)) ↔ Unchecked node memory := by
  have passed {err : Option NodeErr} (code : err.map NodeErr.code = some 0) : err = some .ok := by
    obtain ⟨err, rfl, zero⟩ := Option.map_eq_some_iff.mp code
    rw [NodeErr.code_zero.mp zero]
  cases table : node.ops with
  | none =>
    simp only [nodeValidate, opsOf, table, Option.bind_eq_bind, Option.bind_some, Option.bind_none,
      Option.some.injEq] at valid
    exact absurd valid (by decide)
  | some ops =>
    rw [nodeValidate_table table] at valid
    simp only [nodeStep_table table, Unchecked, table]
    cases ops with
    | gain =>
      simp only [called_ok]
      exact gain_steps_iff (passed valid)
    | diffEq =>
      simp only [called_ok, iff_true]
      exact diffEq_steps (passed valid)
    | integrator =>
      simp only [called_ok]
      exact integrator_steps_iff (passed valid)

end

theorem validated_gain_steps : ∃ node, gainNode = some node ∧
    ∃ after, nodeStep (some node) ⟨fun i => scalarEdge (some i), fun _ => 3, []⟩ = some (0, after) := by
  refine ⟨_, rfl, (validate_sufficient_iff rfl).mpr ?_⟩
  exact ⟨⟨⟨0, 0, rfl, rfl⟩, 1, 1, rfl, rfl⟩, ⟨0, rfl, rfl⟩, 1, rfl, rfl⟩

/-- Validation lets a null signal pointer pass that the step refuses. -/
theorem validated_gain_fails : ∃ node, gainNode = some node ∧
    let memory : Memory Int := ⟨fun _ => scalarEdge none, fun _ => 0, []⟩
    nodeValidate (some node) memory = some 0 ∧ nodeStep (some node) memory = some (-1, memory) :=
  ⟨_, rfl, rfl, rfl⟩

end Simuless.Runtime
