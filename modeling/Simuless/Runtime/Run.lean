import Simuless.Foundation.Machine
import Simuless.Runtime.NodeApi

/-! Successive steps of a node.

The caller writes the input signal, steps the node and reads the output signal.
What one such turn does is stated for each operator in terms of what the
operator keeps from turn to turn; edges keep their descriptors.
-/

set_option autoImplicit false

namespace Simuless.Runtime

open Foundation

variable {Value : Type}

/-- The caller writes the array of the node's input signal. -/
def feed (node : Node Value) (memory : Memory Value) (values : Nat → Value) : Memory Value :=
  match (node.inputs 0).bind fun input => (memory.edges input).signal with
  | some source => memory.poke source values
  | none => memory

/-- The caller reads as many elements of the output signal as a step handles. -/
def outputs (node : Node Value) (memory : Memory Value) : List Value :=
  match node.inputs 0, (node.outputs 0).bind fun output => (memory.edges output).signal with
  | some input, some target =>
      (List.range (memory.count input)).map fun i => memory.cells (.signal target i)
  | _, _ => []

section
variable [Zero Value] [Add Value] [Sub Value] [Mul Value] [Div Value] [BEq Value]

/-- Only a step that returns success counts. -/
def turn (node : Node Value) : Machine (Memory Value) (Nat → Value) (List Value) :=
  fun memory values => do
    let (code, memory) ← nodeStep (some node) (feed node memory values)
    if code = 0 then return (outputs node memory, memory) else none

end

section
variable {node : Node Value} {memory other : Memory Value}

theorem feed_edges (values : Nat → Value) : (feed node memory values).edges = memory.edges := by
  rw [feed]
  split <;> rfl

theorem Memory.count_congr (same : other.edges = memory.edges) (edge : Nat) :
    other.count edge = memory.count edge := by
  rw [Memory.count, Memory.count, same]

namespace Wired

variable {input output source target : Nat}

theorem congr (wired : Wired node memory input output source target)
    (same : other.edges = memory.edges) : Wired node other input output source target := by
  obtain ⟨bound, inSignal, outSignal, inType, outType⟩ := wired
  rw [← same] at inSignal outSignal inType outType
  exact ⟨bound, inSignal, outSignal, inType, outType⟩

theorem feed_eq (wired : Wired node memory input output source target) (values : Nat → Value) :
    feed node memory values = memory.poke source values := by
  simp only [feed, wired.bound.1, Option.bind_some, wired.inSignal]

theorem outputs_eq (wired : Wired node memory input output source target) :
    outputs node memory =
      (List.range (memory.count input)).map fun i => memory.cells (.signal target i) := by
  simp only [outputs, wired.bound.1, wired.bound.2, Option.bind_some, wired.outSignal]

end Wired

theorem GainReady.congr {param : ParamBlock Value} {input output source target : Nat}
    (ready : GainReady node memory param input output source target)
    (same : other.edges = memory.edges) : GainReady node other param input output source target :=
  ⟨ready.toWired.congr same, ready.parameter⟩

theorem IntegratorReady.congr {param : ParamBlock Value} {state : StateBlock}
    {input output source target array : Nat}
    (ready : IntegratorReady node memory param state input output source target array)
    (same : other.edges = memory.edges) :
    IntegratorReady node other param state input output source target array :=
  ⟨ready.toWired.congr same, by rw [same]; exact ready.ranks, ready.parameter, ready.stateBlock,
    ready.accumulators⟩

theorem DiffEqReady.congr [Zero Value] [BEq Value] {wiring : DiffEqWiring Value}
    (ready : DiffEqReady node memory wiring) (same : other.edges = memory.edges) :
    DiffEqReady node other wiring :=
  ⟨ready.toWired.congr same, ready.parameter, ready.state, ready.orders, ready.leading, by
    rw [same]
    exact ready.scalar⟩

end

section
variable [Zero Value] [Add Value] [Sub Value] [Mul Value] [Div Value] [BEq Value]
  {node : Node Value} {memory after : Memory Value}

theorem turn_ok {input output source target : Nat}
    (wired : Wired node memory input output source target) {values : Nat → Value}
    (stepped : nodeStep (some node) (memory.poke source values) = some (0, after))
    (same : after.edges = memory.edges) : turn node memory values =
      some ((List.range (memory.count input)).map fun i => after.cells (.signal target i), after) := by
  have collected := (wired.congr same).outputs_eq
  rw [Memory.count_congr same] at collected
  simp only [turn, wired.feed_eq, stepped, Option.bind_eq_bind, Option.bind_some, if_pos, collected]
  rfl

/-- A turn that answers contains a successful step. -/
theorem turn_steps {values : Nat → Value} {answer : List Value}
    (turned : turn node memory values = some (answer, after)) :
    nodeStep (some node) (feed node memory values) = some (0, after) := by
  simp only [turn, Option.bind_eq_bind, Option.bind_eq_some_iff] at turned
  obtain ⟨⟨code, result⟩, stepped, turned⟩ := turned
  split at turned
  case isTrue success =>
    cases turned
    change code = 0 at success
    rw [stepped, success]
  case isFalse => cases turned

/-- A turn answers with what stands in the output signal after it. -/
theorem turn_outputs {values : Nat → Value} {answer : List Value}
    (turned : turn node memory values = some (answer, after)) : outputs node after = answer := by
  simp only [turn, Option.bind_eq_bind, Option.bind_eq_some_iff] at turned
  obtain ⟨⟨code, result⟩, -, turned⟩ := turned
  split at turned
  case isTrue =>
    cases turned
    rfl
  case isFalse => cases turned

theorem gain_turn (table : node.ops = some .gain) {param : ParamBlock Value}
    {input output source target : Nat}
    (ready : GainReady node memory param input output source target) (values : Nat → Value) :
    ∃ after, turn node memory values =
        some ((List.range (memory.count input)).map fun i => param.gain.k * values i, after) ∧
      after.edges = memory.edges := by
  let fed := memory.poke source values
  let after := (List.range (memory.count input)).foldl (gainElement param.gain.k source target) fed
  have stepped : nodeStep (some node) fed = some (0, after) := by
    rw [nodeStep_table table]
    exact called_ok.mpr (gainStep_ready (ready.congr rfl))
  have same : after.edges = memory.edges := gainLoop_edges _ _ _ _
  have read (i : Nat) : fed.cells (.signal source i) = values i := memory.poke_signal source i values
  refine ⟨after, ?_, same⟩
  rw [turn_ok ready.toWired stepped same]
  congr 2
  apply List.map_congr_left
  intro i member
  rw [gainLoop_target _ _ _ _ (List.mem_range.mp member), read]

theorem integrator_turn (table : node.ops = some .integrator) {param : ParamBlock Value}
    {state : StateBlock} {input output source target array : Nat}
    (ready : IntegratorReady node memory param state input output source target array)
    (values : Nat → Value) :
    ∃ after, turn node memory values = some ((List.range (memory.count input)).map fun i =>
        memory.cells (.accumulator array i) + values i * node.dt, after) ∧
      after.edges = memory.edges ∧ ∀ i < memory.count input,
        after.cells (.accumulator array i) = memory.cells (.accumulator array i) + values i * node.dt := by
  let fed := memory.poke source values
  let after := (List.range (memory.count input)).foldl
    (integratorElement node.dt array source target) fed
  have stepped : nodeStep (some node) fed = some (0, after) := by
    rw [nodeStep_table table]
    exact called_ok.mpr (integratorStep_ready (ready.congr rfl))
  have same : after.edges = memory.edges := integratorLoop_edges _ _ _ _ _
  have read (i : Nat) : fed.cells (.signal source i) = values i := memory.poke_signal source i values
  have element (i : Nat) (below : i < memory.count input) :
      after.cells (.accumulator array i) =
          memory.cells (.accumulator array i) + values i * node.dt ∧
        after.cells (.signal target i) =
          memory.cells (.accumulator array i) + values i * node.dt := by
    rw [← read i]
    exact integratorLoop_element node.dt array source target (memory.count input) below
  refine ⟨after, ?_, same, fun i below => (element i below).1⟩
  rw [turn_ok ready.toWired stepped same]
  congr 2
  apply List.map_congr_left
  intro i member
  exact (element i (List.mem_range.mp member)).2

/-- A run of an integrator has a result. The accumulators have taken up all inputs,
and the output signal shows them once there was a turn. -/
theorem integrator_run (table : node.ops = some .integrator) {param : ParamBlock Value}
    {state : StateBlock} {input output source target array : Nat}
    (ready : IntegratorReady node memory param state input output source target array)
    (us : List (Nat → Value)) :
    ∃ answers final, (turn node).run memory us = some (answers, final) ∧ final.edges = memory.edges ∧
      (∀ i < memory.count input, final.cells (.accumulator array i) =
        us.foldl (fun x values => x + values i * node.dt) (memory.cells (.accumulator array i))) ∧
      (us ≠ [] → outputs node final =
        (List.range (memory.count input)).map fun i => final.cells (.accumulator array i)) := by
  let holds (before : List (Nat → Value)) (_ : List (List Value)) (reached : Memory Value) : Prop :=
    reached.edges = memory.edges ∧
      (∀ i < memory.count input, reached.cells (.accumulator array i) =
        before.foldl (fun x values => x + values i * node.dt) (memory.cells (.accumulator array i))) ∧
      (before ≠ [] → outputs node reached =
        (List.range (memory.count input)).map fun i => reached.cells (.accumulator array i))
  have step (before : List (Nat → Value)) (answered : List (List Value)) (reached : Memory Value)
      (held : holds before answered reached) (values : Nat → Value) : ∃ answer next,
        turn node reached values = some (answer, next) ∧
          holds (before ++ [values]) (answered ++ [answer]) next := by
    obtain ⟨same, taken, -⟩ := held
    obtain ⟨next, turned, edges, added⟩ := integrator_turn table (ready.congr same) values
    have shown := turn_outputs turned
    rw [Memory.count_congr same] at added shown
    refine ⟨_, next, turned, edges.trans same, ?_, ?_⟩
    · intro i below
      rw [added i below, taken i below, List.foldl_append]
      rfl
    · intro _
      rw [shown]
      exact List.map_congr_left fun i member => (added i (List.mem_range.mp member)).symm
  have start : holds [] [] memory := ⟨rfl, fun _ _ => rfl, fun nonempty => absurd rfl nonempty⟩
  exact Machine.run_history step [] [] start us

theorem diffEq_turn (table : node.ops = some .diffEq) {wiring : DiffEqWiring Value}
    (ready : DiffEqReady node memory wiring) (values : Nat → Value) :
    ∃ after, turn node memory values =
        some ([wiring.value (memory.poke wiring.source values)], after) ∧
      after.edges = memory.edges ∧ wiring.Stepped (memory.poke wiring.source values) after := by
  have fed : DiffEqReady node (memory.poke wiring.source values) wiring := ready.congr rfl
  obtain ⟨after, stepped, kept, reaches⟩ := diffEqStep_ready fed
  have success : nodeStep (some node) (memory.poke wiring.source values) = some (0, after) := by
    rw [nodeStep_table table]
    exact called_ok.mpr stepped
  have single : memory.count wiring.input = 1 := by
    rw [Memory.count, ready.scalar.1]
    rfl
  -- a scalar input has one element to answer
  refine ⟨after, ?_, reaches.edges, kept⟩
  rw [turn_ok ready.toWired success reaches.edges, single]
  simp only [List.range_one, List.map_cons, List.map_nil, kept.target]

/-- A step leaves every edge's descriptor alone. -/
theorem nodeStep_edges (stepped : nodeStep (some node) memory = some (0, after)) :
    after.edges = memory.edges := by
  obtain ⟨ops, table⟩ := nodeStep_ops stepped
  rw [nodeStep_table table] at stepped
  cases ops with
  | gain =>
    have success := called_ok.mp stepped
    obtain ⟨param, input, output, source, target, ready⟩ := gainStep_ok success
    rw [gainStep_ready ready] at success
    cases success
    exact gainLoop_edges _ _ _ _
  | diffEq =>
    have success := called_ok.mp stepped
    obtain ⟨wiring, ready⟩ := diffEqStep_ok success
    obtain ⟨after', stepped', -, reaches⟩ := diffEqStep_ready ready
    rw [stepped'] at success
    cases success
    exact reaches.edges
  | integrator =>
    have success := called_ok.mp stepped
    obtain ⟨param, state, input, output, source, target, array, ready⟩ := integratorStep_ok success
    rw [integratorStep_ready ready] at success
    cases success
    exact integratorLoop_edges _ _ _ _ _

theorem turn_edges {values : Nat → Value} {answer : List Value}
    (turned : turn node memory values = some (answer, after)) : after.edges = memory.edges :=
  (nodeStep_edges (turn_steps turned)).trans (feed_edges values)

theorem run_edges {inputs : List (Nat → Value)} {answers : List (List Value)}
    (ran : (turn node).run memory inputs = some (answers, after)) : after.edges = memory.edges := by
  have step (reached : Memory Value) (held : reached.edges = memory.edges) (values : Nat → Value)
      (answer : List Value) (next : Memory Value)
      (turned : turn node reached values = some (answer, next)) : next.edges = memory.edges :=
    (turn_edges turned).trans held
  exact Machine.run_invariant step rfl ran

end

/-- Both histories of a difference equation hold zeros, over the lengths its orders give. -/
structure Zeroed [Zero Value] (param : DiffEqParam Value) (state : DiffEqState)
    (memory : Memory Value) : Prop where
  inputHist : ∀ array, state.inputHist = some array → ∀ i < param.numOrder.toNat,
    memory.cells (.inputHist array i) = 0
  outputHist : ∀ array, state.outputHist = some array → ∀ i < param.denOrder.toNat - 1,
    memory.cells (.outputHist array i) = 0

/-- Zeroed histories are zero where a ready node reads them. -/
theorem DiffEqReady.histories_zero [Zero Value] [BEq Value] {node : Node Value}
    {memory other : Memory Value} {wiring : DiffEqWiring Value}
    (ready : DiffEqReady node memory wiring)
    (zeroed : ∀ param state, node.param = some param → node.state = some state →
      Zeroed param.diffEq state.diffEq other) :
    (∀ i < wiring.numOrder.toNat, other.cells (.inputHist wiring.inputHist i) = 0) ∧
      ∀ i < wiring.denOrder.toNat - 1, other.cells (.outputHist wiring.outputHist i) = 0 := by
  obtain ⟨param, parameter, coefficients⟩ := ready.parameter
  obtain ⟨state, stateBlock, inputs, outputs⟩ := ready.state
  have zeroed := zeroed param state parameter stateBlock
  rw [coefficients] at zeroed
  constructor
  · exact zeroed.inputHist _ inputs
  · intro i below
    have feedback : 1 < wiring.denOrder := UInt8.lt_iff_toNat_lt.mpr (by
      change 1 < wiring.denOrder.toNat
      omega)
    exact zeroed.outputHist _ (outputs feedback) i below

/-- The same from the blocks that the node has. -/
theorem DiffEqReady.blocks_zero [Zero Value] [BEq Value] {node : Node Value} {memory other : Memory Value}
    {wiring : DiffEqWiring Value} (ready : DiffEqReady node memory wiring) {param : ParamBlock Value}
    {state : StateBlock} (parameter : node.param = some param) (stateBlock : node.state = some state)
    (zeroed : Zeroed param.diffEq state.diffEq other) :
    (∀ i < wiring.numOrder.toNat, other.cells (.inputHist wiring.inputHist i) = 0) ∧
      ∀ i < wiring.denOrder.toNat - 1, other.cells (.outputHist wiring.outputHist i) = 0 := by
  apply ready.histories_zero
  intro param' state' parameter' stateBlock'
  cases parameter.symm.trans parameter'
  cases stateBlock.symm.trans stateBlock'
  exact zeroed

/-- Every accumulator that the input's elements use holds the initial value. -/
def Preset (node : Node Value) (param : IntegratorParam Value) (state : IntegratorState)
    (memory : Memory Value) : Prop :=
  ∀ input array, node.inputs 0 = some input → state.state = some array →
    ∀ i < memory.count input, memory.cells (.accumulator array i) = param.x0

/-- The state a node starts from, by its operator. -/
def Initial [Zero Value] (node : Node Value) (memory : Memory Value) : Prop :=
  ∀ param state, node.param = some param → node.state = some state →
    match node.ops with
    | some .diffEq => Zeroed param.diffEq state.diffEq memory
    | some .integrator => Preset node param.integrator state.integrator memory
    | _ => True

end Simuless.Runtime
