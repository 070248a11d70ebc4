import Simuless.Runtime.Node

/-! The gain operator, `y = k * x` element by element. -/

set_option autoImplicit false

namespace Simuless.Runtime

variable {Value : Type}

def gainValidate (node : Option (Node Value)) (_ : Memory Value) : Option NodeErr := do
  if node.isNone then return .nullPtr
  let node ← node
  if node.param.isNone then return .paramNull
  if (node.inputs 0).isNone then return .inputMissing
  if (node.outputs 0).isNone then return .outputMissing
  return .ok

def gainInferShape (node : Option (Node Value)) (memory : Memory Value) :
    Option (NodeErr × Memory Value) := do
  if node.isNone then return (.nullPtr, memory)
  let node ← node
  if (node.inputs 0).isNone then return (.inputMissing, memory)
  if (node.outputs 0).isNone then return (.outputMissing, memory)
  let inEdge ← node.inputs 0
  let outEdge ← node.outputs 0
  let memory ← memory.copyDescriptor outEdge inEdge
  return (.ok, memory)

/-- One turn of the loop: `out[i] = param->k * in[i]`. -/
def gainElement [Mul Value] (k : Value) (source target : Nat) (memory : Memory Value) (i : Nat) :
    Memory Value :=
  let (x, memory) := memory.load (.signal source i)
  memory.store (.signal target i) (k * x)

def gainStep [Mul Value] (node : Option (Node Value)) (memory : Memory Value) :
    Option (NodeErr × Memory Value) := do
  let ret ← gainValidate node memory
  if ret.code < 0 then return (ret, memory)
  let node ← node
  let param ← node.param
  let inEdge ← node.inputs 0
  let outEdge ← node.outputs 0
  let inSignal := (memory.edges inEdge).signal
  let outSignal := (memory.edges outEdge).signal
  if inSignal.isNone ∨ outSignal.isNone then return (.nullPtr, memory)
  if (memory.edges inEdge).type ≠ .float32 ∨ (memory.edges outEdge).type ≠ .float32 then
    return (.shapeMismatch, memory)
  let count := dtypeElementCount (some (memory.edges inEdge))
  let source ← inSignal
  let target ← outSignal
  return (.ok, (List.range count.toNat).foldl (gainElement param.gain.k source target) memory)

variable {node : Node Value} {memory after : Memory Value}

theorem gainValidate_ok : gainValidate (some node) memory = some .ok ↔
    node.param.isSome ∧ (node.inputs 0).isSome ∧ (node.outputs 0).isSome := by
  simp only [gainValidate, Option.isNone_some, Option.bind_eq_bind, Option.bind_some]
  cases node.param <;> cases node.inputs 0 <;> cases node.outputs 0 <;> simp

structure GainReady (node : Node Value) (memory : Memory Value) (param : ParamBlock Value)
    (input output source target : Nat) : Prop extends
    Wired node memory input output source target where
  parameter : node.param = some param

/-- A step with everything in place runs the loop over the input's elements. -/
theorem gainStep_ready [Mul Value] {param : ParamBlock Value} {input output source target : Nat}
    (ready : GainReady node memory param input output source target) :
    gainStep (some node) memory = some (.ok,
      (List.range (memory.count input)).foldl (gainElement param.gain.k source target) memory) := by
  obtain ⟨⟨⟨boundIn, boundOut⟩, inSignal, outSignal, inType, outType⟩, parameter⟩ := ready
  have valid : gainValidate (some node) memory = some .ok := by
    simp [gainValidate_ok, parameter, boundIn, boundOut]
  simp only [gainStep, valid, NodeErr.code, Int.lt_irrefl, if_false, Option.bind_eq_bind,
    Option.bind_some, parameter, boundIn, boundOut, Option.isNone_some, inSignal, outSignal, inType,
    outType, ne_eq, not_true, Bool.false_eq_true, or_self]
  rfl

theorem gainStep_ok [Mul Value] (stepped : gainStep (some node) memory = some (.ok, after)) :
    ∃ param input output source target, GainReady node memory param input output source target := by
  simp only [gainStep, Option.bind_eq_bind, validated] at stepped
  have passed := stepped.2
  simp only [Option.bind_some, Option.bind_eq_some_iff, check_passed, ne_eq, Prod.mk.injEq,
    reduceCtorEq, false_and, not_false_eq_true, not_or, not_not] at passed
  obtain ⟨param, parameter, input, boundIn, output, boundOut, -, ⟨inType, outType⟩, source,
    inSignal, target, outSignal, -⟩ := passed
  exact ⟨param, input, output, source, target,
    ⟨⟨boundIn, boundOut⟩, inSignal, outSignal, inType, outType⟩, parameter⟩

/-! What the loop does. -/

section
variable [Mul Value] (k : Value) (source target count : Nat)

theorem gainLoop_edges :
    ((List.range count).foldl (gainElement k source target) memory).edges = memory.edges := by
  apply Memory.foldl_edges
  intro memory i
  rfl

theorem gainLoop_trace :
    ((List.range count).foldl (gainElement k source target) memory).trace = memory.trace ++
      (List.range count).flatMap fun i =>
        [.read (.signal source i), .write (.signal target i)] := by
  apply Memory.foldl_trace
  intro memory i
  exact List.append_assoc _ _ _

theorem gainLoop_other {cell : Cell} (other : ∀ i < count, cell ≠ .signal target i) :
    ((List.range count).foldl (gainElement k source target) memory).cells cell =
      memory.cells cell := by
  apply Memory.foldl_other
  intro memory i member
  exact Function.update_of_ne (other i (List.mem_range.mp member)) _ _

/-- Source and target may be the same signal: each element is read before it is written. -/
theorem gainLoop_target {i : Nat} (inside : i < count) :
    ((List.range count).foldl (gainElement k source target) memory).cells (.signal target i) =
      k * memory.cells (.signal source i) := by
  have later (memory : Memory Value) (j : Nat) (behind : i < j) :
      (gainElement k source target memory j).cells (.signal target i) =
        memory.cells (.signal target i) :=
    Memory.store_other _ (Cell.signal_ne (Nat.ne_of_lt behind) target) _
  -- the turns before have written other elements only
  have unread : ((List.range i).foldl (gainElement k source target) memory).cells
      (.signal source i) = memory.cells (.signal source i) := by
    apply gainLoop_other
    intro j before same
    injection same with _ index
    exact absurd index (Nat.ne_of_gt before)
  rw [Memory.foldl_turn inside later, gainElement, Memory.store_cells, Function.update_self,
    Memory.load_value, unread]

end

end Simuless.Runtime
