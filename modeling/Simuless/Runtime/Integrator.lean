import Simuless.Runtime.Node

/-! The integrator operator, `x[k+1] = x[k] + u[k] * dt` element by element.

Its callback table has no init and no reset callback.
-/

set_option autoImplicit false

namespace Simuless.Runtime

variable {Value : Type}

def integratorValidate (node : Option (Node Value)) (memory : Memory Value) : Option NodeErr := do
  if node.isNone then return .nullPtr
  let node ← node
  let inEdge := node.inputs 0
  let outEdge := node.outputs 0
  if inEdge.isNone then return .inputMissing
  if outEdge.isNone then return .outputMissing
  let inEdge ← inEdge
  let outEdge ← outEdge
  if 1 < (memory.edges inEdge).rank then return .unsurppotedShape
  if 1 < (memory.edges outEdge).rank then return .unsurppotedShape
  if (memory.edges inEdge).type ≠ .float32 then return .shapeMismatch
  if (memory.edges outEdge).type ≠ .float32 then return .shapeMismatch
  return .ok

def integratorInferShape (node : Option (Node Value)) (memory : Memory Value) :
    Option (NodeErr × Memory Value) := do
  if node.isNone then return (.nullPtr, memory)
  let node ← node
  if (node.inputs 0).isNone then return (.inputMissing, memory)
  if (node.outputs 0).isNone then return (.outputMissing, memory)
  let inEdge ← node.inputs 0
  let outEdge ← node.outputs 0
  if 1 < (memory.edges inEdge).rank then return (.unsurppotedShape, memory)
  let memory ← memory.copyDescriptor outEdge inEdge
  return (.ok, memory)

/-- One turn of the loop: `state->state[i] += in[i] * node->dt; out[i] = state->state[i]`. -/
def integratorElement [Add Value] [Mul Value] (dt : Value) (state source target : Nat)
    (memory : Memory Value) (i : Nat) : Memory Value :=
  let (x, memory) := memory.load (.accumulator state i)
  let (u, memory) := memory.load (.signal source i)
  let memory := memory.store (.accumulator state i) (x + u * dt)
  let (x, memory) := memory.load (.accumulator state i)
  memory.store (.signal target i) x

def integratorStep [Add Value] [Mul Value] (node : Option (Node Value)) (memory : Memory Value) :
    Option (NodeErr × Memory Value) := do
  let ret ← integratorValidate node memory
  if ret.code < 0 then return (ret, memory)
  let node ← node
  let param := node.param
  let state := node.state
  let inEdge ← node.inputs 0
  let outEdge ← node.outputs 0
  if param.isNone then return (.paramNull, memory)
  let inSignal := (memory.edges inEdge).signal
  let outSignal := (memory.edges outEdge).signal
  if inSignal.isNone ∨ outSignal.isNone ∨ state.isNone then return (.nullPtr, memory)
  let state ← state
  if state.integrator.state.isNone then return (.nullPtr, memory)
  if (memory.edges inEdge).type ≠ .float32 ∨ (memory.edges outEdge).type ≠ .float32 then
    return (.shapeMismatch, memory)
  let count := dtypeElementCount (some (memory.edges inEdge))
  let source ← inSignal
  let target ← outSignal
  let array ← state.integrator.state
  return (.ok, (List.range count.toNat).foldl (integratorElement node.dt array source target) memory)

variable {node : Node Value} {memory after : Memory Value}

theorem integratorValidate_ok : integratorValidate (some node) memory = some .ok ↔
    ∃ input output, node.inputs 0 = some input ∧ node.outputs 0 = some output ∧
      (memory.edges input).rank ≤ 1 ∧ (memory.edges output).rank ≤ 1 ∧
      (memory.edges input).type = .float32 ∧ (memory.edges output).type = .float32 := by
  simp only [integratorValidate, Option.isNone_some, Option.bind_eq_bind, Option.bind_some,
    Option.bind_eq_some_iff, check_passed, ne_eq, reduceCtorEq, not_false_eq_true,
    Option.isNone_iff_eq_none, not_not, Int.not_lt]
  constructor
  · rintro ⟨-, -, -, input, boundIn, output, boundOut, inRank, outRank, inType, outType, -⟩
    exact ⟨input, output, boundIn, boundOut, inRank, outRank, inType, outType⟩
  · rintro ⟨input, output, boundIn, boundOut, inRank, outRank, inType, outType⟩
    refine ⟨trivial, ?_, ?_, input, boundIn, output, boundOut, inRank, outRank, inType, outType, rfl⟩
    · simp [boundIn]
    · simp [boundOut]

/-- The integrator can step: everything is in place, and its accumulators are `array`. -/
structure IntegratorReady (node : Node Value) (memory : Memory Value) (param : ParamBlock Value)
    (state : StateBlock) (input output source target array : Nat) : Prop extends
    Wired node memory input output source target where
  ranks : (memory.edges input).rank ≤ 1 ∧ (memory.edges output).rank ≤ 1
  parameter : node.param = some param
  stateBlock : node.state = some state
  accumulators : state.integrator.state = some array

section
variable [Add Value] [Mul Value]

theorem integratorStep_ready {param : ParamBlock Value} {state : StateBlock}
    {input output source target array : Nat}
    (ready : IntegratorReady node memory param state input output source target array) :
    integratorStep (some node) memory = some (.ok,
      (List.range (memory.count input)).foldl (integratorElement node.dt array source target)
        memory) := by
  obtain ⟨⟨⟨boundIn, boundOut⟩, inSignal, outSignal, inType, outType⟩, ranks, parameter, stateBlock,
    accumulators⟩ := ready
  have valid : integratorValidate (some node) memory = some .ok :=
    integratorValidate_ok.mpr ⟨input, output, boundIn, boundOut, ranks.1, ranks.2, inType, outType⟩
  simp only [integratorStep, valid, NodeErr.code, Int.lt_irrefl, if_false, Option.bind_eq_bind,
    Option.bind_some, parameter, boundIn, boundOut, Option.isNone_some, inSignal, outSignal,
    stateBlock, accumulators, inType, outType, ne_eq, not_true, Bool.false_eq_true, or_self]
  rfl

theorem integratorStep_ok (stepped : integratorStep (some node) memory = some (.ok, after)) :
    ∃ param state input output source target array,
      IntegratorReady node memory param state input output source target array := by
  simp only [integratorStep, Option.bind_eq_bind, validated] at stepped
  obtain ⟨valid, stepped⟩ := stepped
  obtain ⟨input, output, boundIn, boundOut, inRank, outRank, inType, outType⟩ :=
    integratorValidate_ok.mp valid
  simp only [Option.bind_some, Option.bind_eq_some_iff, boundIn, boundOut, check_passed, ne_eq,
    Prod.mk.injEq, reduceCtorEq, false_and, not_false_eq_true, Option.isNone_iff_eq_none] at stepped
  obtain ⟨present, -, state, stateBlock, -, -, source, inSignal, target, outSignal, array,
    accumulators, -⟩ := stepped
  obtain ⟨param, parameter⟩ := Option.ne_none_iff_exists'.mp present
  exact ⟨param, state, input, output, source, target, array,
    ⟨⟨boundIn, boundOut⟩, inSignal, outSignal, inType, outType⟩, ⟨inRank, outRank⟩, parameter,
    stateBlock, accumulators⟩

end

/-! What the loop does. -/

section
variable [Add Value] [Mul Value] (dt : Value) (state source target count : Nat)

theorem integratorLoop_edges :
    ((List.range count).foldl (integratorElement dt state source target) memory).edges =
      memory.edges := by
  apply Memory.foldl_edges
  intro memory i
  rfl

theorem integratorLoop_trace :
    ((List.range count).foldl (integratorElement dt state source target) memory).trace =
      memory.trace ++ (List.range count).flatMap fun i =>
        [.read (.accumulator state i), .read (.signal source i), .write (.accumulator state i),
          .read (.accumulator state i), .write (.signal target i)] := by
  apply Memory.foldl_trace
  intro memory i
  simp only [integratorElement, Memory.store_trace, Memory.load_trace, List.append_assoc]
  rfl

/-- One turn advances its accumulator and writes the sum to both cells. -/
theorem integratorElement_cells (i : Nat) :
    (integratorElement dt state source target memory i).cells =
      let x := memory.cells (.accumulator state i) + memory.cells (.signal source i) * dt
      Function.update (Function.update memory.cells (.accumulator state i) x) (.signal target i) x := by
  simp only [integratorElement, Memory.load_value, Memory.load_cells, Memory.store_cells,
    Function.update_self]

theorem integratorLoop_other {cell : Cell} (state_other : ∀ i < count, cell ≠ .accumulator state i)
    (target_other : ∀ i < count, cell ≠ .signal target i) :
    ((List.range count).foldl (integratorElement dt state source target) memory).cells cell =
      memory.cells cell := by
  apply Memory.foldl_other
  intro memory i member
  have inside := List.mem_range.mp member
  rw [integratorElement_cells, Function.update_of_ne (target_other i inside),
    Function.update_of_ne (state_other i inside)]

/-- Each accumulator is advanced once, and its new value is the output. -/
theorem integratorLoop_element {i : Nat} (inside : i < count) :
    ((List.range count).foldl (integratorElement dt state source target) memory).cells
        (.accumulator state i) =
      memory.cells (.accumulator state i) + memory.cells (.signal source i) * dt ∧
    ((List.range count).foldl (integratorElement dt state source target) memory).cells
        (.signal target i) =
      memory.cells (.accumulator state i) + memory.cells (.signal source i) * dt := by
  have apart (array j : Nat) : Cell.accumulator state i ≠ Cell.signal array j := by
    intro same
    cases same
  have state_later (memory : Memory Value) (j : Nat) (behind : i < j) :
      (integratorElement dt state source target memory j).cells (.accumulator state i) =
        memory.cells (.accumulator state i) := by
    rw [integratorElement_cells, Function.update_of_ne (apart target j),
      Function.update_of_ne (Cell.accumulator_ne (Nat.ne_of_lt behind) state)]
  have target_later (memory : Memory Value) (j : Nat) (behind : i < j) :
      (integratorElement dt state source target memory j).cells (.signal target i) =
        memory.cells (.signal target i) := by
    rw [integratorElement_cells, Function.update_of_ne (Cell.signal_ne (Nat.ne_of_lt behind) target),
      Function.update_of_ne (by intro same; cases same)]
  -- the turns before have touched other elements only
  have accumulator : ((List.range i).foldl (integratorElement dt state source target) memory).cells
      (.accumulator state i) = memory.cells (.accumulator state i) := by
    apply integratorLoop_other
    · intro j before
      exact Cell.accumulator_ne (Nat.ne_of_gt before) state
    · intro j _
      exact apart target j
  have input : ((List.range i).foldl (integratorElement dt state source target) memory).cells
      (.signal source i) = memory.cells (.signal source i) := by
    apply integratorLoop_other
    · intro j _ same
      cases same
    · intro j before same
      injection same with _ index
      exact absurd index (Nat.ne_of_gt before)
  rw [Memory.foldl_turn inside state_later, Memory.foldl_turn inside target_later,
    integratorElement_cells, Function.update_of_ne (apart target i), Function.update_self,
    Function.update_self, accumulator, input]
  exact ⟨rfl, rfl⟩

end

end Simuless.Runtime
