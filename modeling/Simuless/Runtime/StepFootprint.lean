import Simuless.Foundation.Schedule
import Simuless.Runtime.Failure
import Simuless.Runtime.Run

/-! What a step touches.

A step reads its input signal and its node's own state, and writes its output
signal and that state. Whether it succeeds depends on the node and on the
descriptors of its edges, and what it writes on what it reads.
-/

set_option autoImplicit false

namespace Simuless.Runtime

open Foundation

variable {Value : Type}

namespace Node

variable (node : Node Value) (edges : Nat → Edge)

/-- The array of the input signal. -/
def source : Option Nat := (node.inputs 0).bind fun input => (edges input).signal

def target : Option Nat := (node.outputs 0).bind fun output => (edges output).signal

/-- The number of elements of the input signal. -/
def extent : Nat := (dtypeElementCount ((node.inputs 0).map edges)).toNat

/-- The cells of the operator's own state. -/
def Owns : Cell → Prop
  | .signal _ _ => False
  | .accumulator array i => node.ops = some .integrator ∧
      (∃ state, node.state = some state ∧ state.integrator.state = some array) ∧ i < node.extent edges
  | .inputHist array i => node.ops = some .diffEq ∧
      (∃ state, node.state = some state ∧ state.diffEq.inputHist = some array) ∧
        ∃ param, node.param = some param ∧ i < param.diffEq.numOrder.toNat
  | .outputHist array i => node.ops = some .diffEq ∧
      (∃ state, node.state = some state ∧ state.diffEq.outputHist = some array) ∧
        ∃ param, node.param = some param ∧ i < param.diffEq.denOrder.toNat - 1

def footprint : Footprint Cell where
  reads := { cell | node.Owns edges cell ∨
    ∃ array i, cell = .signal array i ∧ node.source edges = some array ∧ i < node.extent edges }
  writes := { cell | node.Owns edges cell ∨
    ∃ array i, cell = .signal array i ∧ node.target edges = some array ∧ i < node.extent edges }

end Node

/-- Nodes with separate output signals and separate states, neither of which
feeds the other, are not in conflict. -/
theorem Node.apart {edges : Nat → Edge} {first later : Node Value}
    (outputs : ∀ array, first.target edges = some array → later.target edges ≠ some array)
    (forward : ∀ array, first.target edges = some array → later.source edges ≠ some array)
    (backward : ∀ array, later.target edges = some array → first.source edges ≠ some array)
    (states : ∀ cell, first.Owns edges cell → ¬ later.Owns edges cell) :
    ¬ (first.footprint edges).Conflicts (later.footprint edges) := by
  rintro ⟨cell, ⟨own | ⟨array, i, rfl, target, -⟩, touched⟩ | ⟨own | ⟨array, i, rfl, target, -⟩, touched⟩⟩
  · rcases touched with (other | ⟨_, _, rfl, -⟩) | (other | ⟨_, _, rfl, -⟩)
    · exact states cell own other
    · exact own
    · exact states cell own other
    · exact own
  · rcases touched with (other | ⟨_, _, same, source, -⟩) | (other | ⟨_, _, same, target', -⟩)
    · exact other
    · cases same
      exact forward array target source
    · exact other
    · cases same
      exact outputs array target target'
  · rcases touched with other | ⟨_, _, rfl, -⟩
    · exact states cell other own
    · exact own
  · rcases touched with other | ⟨_, _, same, source, -⟩
    · exact other
    · cases same
      exact backward array target source

section
variable {node : Node Value} {memory : Memory Value} {input output source target : Nat}

theorem Wired.source_eq (wired : Wired node memory input output source target) :
    node.source memory.edges = some source := by
  rw [Node.source, wired.bound.1, Option.bind_some, wired.inSignal]

theorem Wired.target_eq (wired : Wired node memory input output source target) :
    node.target memory.edges = some target := by
  rw [Node.target, wired.bound.2, Option.bind_some, wired.outSignal]

theorem Wired.extent_eq (wired : Wired node memory input output source target) :
    node.extent memory.edges = memory.count input := by
  rw [Node.extent, wired.bound.1]
  rfl

/-- A step writes the elements of its output signal. -/
theorem Wired.written (wired : Wired node memory input output source target) {i : Nat}
    (inside : i < memory.count input) :
    .signal target i ∈ (node.footprint memory.edges).writes :=
  .inr ⟨target, i, rfl, wired.target_eq, wired.extent_eq ▸ inside⟩

theorem Wired.read (wired : Wired node memory input output source target) {i : Nat}
    (inside : i < memory.count input) :
    .signal source i ∈ (node.footprint memory.edges).reads :=
  .inr ⟨source, i, rfl, wired.source_eq, wired.extent_eq ▸ inside⟩

end

/-! Whether a step succeeds is decided by the node and the descriptors. -/

section
variable (node : Option (Node Value)) {memory other : Memory Value}

theorem integratorValidate_congr (same : other.edges = memory.edges) :
    integratorValidate node other = integratorValidate node memory := by
  simp only [integratorValidate, same]

theorem diffEqValidate_congr [Zero Value] [BEq Value] (same : other.edges = memory.edges) :
    diffEqValidate node other = diffEqValidate node memory := by
  simp only [diffEqValidate, same]

theorem gainStep_code [Mul Value] (same : other.edges = memory.edges) :
    (gainStep node other).map Prod.fst = (gainStep node memory).map Prod.fst := by
  have valid : gainValidate node other = gainValidate node memory := rfl
  simp only [gainStep, valid, same, Option.bind_eq_bind, Option.map_bind, Function.comp_def,
    apply_ite (Option.map Prod.fst), Option.pure_def, Option.map_some]

theorem integratorStep_code [Add Value] [Mul Value] (same : other.edges = memory.edges) :
    (integratorStep node other).map Prod.fst = (integratorStep node memory).map Prod.fst := by
  simp only [integratorStep, integratorValidate_congr node same, same, Option.bind_eq_bind,
    Option.map_bind, Function.comp_def, apply_ite (Option.map Prod.fst), Option.pure_def,
    Option.map_some]

end

/-! What a step makes of the cells. -/

/-- From two memories with the same edges a step returns the same code, and it
keeps within the footprint of its node. -/
structure Parallel (node : Node Value) (left right left' right' : Memory Value) : Prop where
  edges : left'.edges = left.edges ∧ right'.edges = right.edges
  frame : ∀ cell ∉ (node.footprint left.edges).writes, left'.cells cell = left.cells cell
  depends : (∀ cell ∈ (node.footprint left.edges).reads, left.cells cell = right.cells cell) →
    ∀ cell, left.cells cell = right.cells cell → left'.cells cell = right'.cells cell

variable {node : Node Value} {left right : Memory Value}

theorem Parallel.untouched : Parallel node left right left right :=
  ⟨⟨rfl, rfl⟩, fun _ _ => rfl, fun _ _ same => same⟩

theorem gainStep_parallel [Mul Value] (same : right.edges = left.edges) {param : ParamBlock Value}
    {input output source target : Nat} (ready : GainReady node left param input output source target) :
    ∃ left' right', gainStep (some node) left = some (.ok, left') ∧
      gainStep (some node) right = some (.ok, right') ∧ Parallel node left right left' right' := by
  refine ⟨_, _, gainStep_ready ready, gainStep_ready (ready.congr same), ?_⟩
  rw [Memory.count_congr same]
  refine ⟨⟨gainLoop_edges .., gainLoop_edges ..⟩, ?_, ?_⟩
  · intro cell unwritten
    apply gainLoop_other
    rintro i inside rfl
    exact unwritten (ready.written inside)
  · intro read cell agree
    by_cases written : ∃ i < left.count input, cell = .signal target i
    · obtain ⟨i, inside, rfl⟩ := written
      rw [gainLoop_target _ _ _ _ inside, gainLoop_target _ _ _ _ inside,
        read _ (ready.read inside)]
    · have other : ∀ i < left.count input, cell ≠ .signal target i :=
        fun i inside equal => written ⟨i, inside, equal⟩
      rw [gainLoop_other _ _ _ _ other, gainLoop_other _ _ _ _ other, agree]

theorem integratorStep_parallel [Add Value] [Mul Value] (same : right.edges = left.edges)
    (table : node.ops = some .integrator) {param : ParamBlock Value} {state : StateBlock}
    {input output source target array : Nat}
    (ready : IntegratorReady node left param state input output source target array) :
    ∃ left' right', integratorStep (some node) left = some (.ok, left') ∧
      integratorStep (some node) right = some (.ok, right') ∧ Parallel node left right left' right' := by
  refine ⟨_, _, integratorStep_ready ready, integratorStep_ready (ready.congr same), ?_⟩
  rw [Memory.count_congr same]
  have owned {i : Nat} (inside : i < left.count input) :
      node.Owns left.edges (.accumulator array i) :=
    ⟨table, ⟨state, ready.stateBlock, ready.accumulators⟩, ready.extent_eq ▸ inside⟩
  refine ⟨⟨integratorLoop_edges .., integratorLoop_edges ..⟩, ?_, ?_⟩
  · intro cell unwritten
    apply integratorLoop_other
    · rintro i inside rfl
      exact unwritten (.inl (owned inside))
    · rintro i inside rfl
      exact unwritten (ready.written inside)
  · intro read cell agree
    have element {i : Nat} (inside : i < left.count input) :
        left.cells (.accumulator array i) + left.cells (.signal source i) * node.dt =
          right.cells (.accumulator array i) + right.cells (.signal source i) * node.dt := by
      rw [read _ (.inl (owned inside)), read _ (ready.read inside)]
    by_cases state_written : ∃ i < left.count input, cell = .accumulator array i
    · obtain ⟨i, inside, rfl⟩ := state_written
      rw [(integratorLoop_element _ _ _ _ _ inside).1, (integratorLoop_element _ _ _ _ _ inside).1,
        element inside]
    · by_cases written : ∃ i < left.count input, cell = .signal target i
      · obtain ⟨i, inside, rfl⟩ := written
        rw [(integratorLoop_element _ _ _ _ _ inside).2, (integratorLoop_element _ _ _ _ _ inside).2,
          element inside]
      · have other : ∀ i < left.count input, cell ≠ .accumulator array i :=
          fun i inside equal => state_written ⟨i, inside, equal⟩
        have other' : ∀ i < left.count input, cell ≠ .signal target i :=
          fun i inside equal => written ⟨i, inside, equal⟩
        rw [integratorLoop_other _ _ _ _ _ other other', integratorLoop_other _ _ _ _ _ other other',
          agree]

/-- A step whose code depends on the edges runs alike on two memories when it does
so behind success. -/
theorem parallel_of_success (step : Memory Value → Option (NodeErr × Memory Value))
    (untouched : ∀ memory, Returns (step memory) (Untouched memory))
    (code : (step right).map Prod.fst = (step left).map Prod.fst)
    (success : ∀ after, step left = some (.ok, after) → ∃ left' right',
      step left = some (.ok, left') ∧ step right = some (.ok, right') ∧
        Parallel node left right left' right') :
    ∃ err left' right', step left = some (err, left') ∧ step right = some (err, right') ∧
      Parallel node left right left' right' := by
  obtain ⟨⟨err, left'⟩, stepped, kept⟩ := untouched left
  obtain ⟨⟨err', right'⟩, stepped', kept'⟩ := untouched right
  rw [stepped, stepped'] at code
  cases code
  by_cases ok : err = .ok
  · subst ok
    exact ⟨.ok, success left' stepped⟩
  · have unchanged : left' = left := kept ok
    have unchanged' : right' = right := kept' ok
    subst unchanged unchanged'
    exact ⟨err, left', right', stepped, stepped', .untouched⟩

theorem called_parallel {result result' : Option (NodeErr × Memory Value)}
    (steps : ∃ err left' right', result = some (err, left') ∧ result' = some (err, right') ∧
      Parallel node left right left' right') :
    ∃ code left' right', called result = some (code, left') ∧ called result' = some (code, right') ∧
      Parallel node left right left' right' := by
  obtain ⟨err, left', right', rfl, rfl, parallel⟩ := steps
  exact ⟨err.code, left', right', rfl, rfl, parallel⟩

section
variable [Zero Value] [BEq Value] {wiring : DiffEqWiring Value}

theorem DiffEqReady.single (ready : DiffEqReady node left wiring) : left.count wiring.input = 1 := by
  rw [Memory.count, ready.scalar.1]
  rfl

theorem DiffEqReady.owns_input (ready : DiffEqReady node left wiring)
    (table : node.ops = some .diffEq) {i : Nat} (inside : i < wiring.numOrder.toNat) :
    node.Owns left.edges (.inputHist wiring.inputHist i) := by
  obtain ⟨param, parameter, coefficients⟩ := ready.parameter
  obtain ⟨state, stateBlock, inputs, -⟩ := ready.state
  refine ⟨table, ⟨state, stateBlock, inputs⟩, param, parameter, ?_⟩
  rw [coefficients]
  exact inside

theorem DiffEqReady.owns_output (ready : DiffEqReady node left wiring)
    (table : node.ops = some .diffEq) {i : Nat} (inside : i < wiring.denOrder.toNat - 1) :
    node.Owns left.edges (.outputHist wiring.outputHist i) := by
  obtain ⟨param, parameter, coefficients⟩ := ready.parameter
  obtain ⟨state, stateBlock, -, outputs⟩ := ready.state
  have feedback : 1 < wiring.denOrder := UInt8.lt_iff_toNat_lt.mpr (by
    change 1 < wiring.denOrder.toNat
    omega)
  refine ⟨table, ⟨state, stateBlock, outputs feedback⟩, param, parameter, ?_⟩
  rw [coefficients]
  exact inside

end

section
variable [Zero Value] [Add Value] [Sub Value] [Mul Value] [Div Value] {wiring : DiffEqWiring Value}

/-- The output depends on the new sample and on the two histories. -/
theorem DiffEqWiring.value_congr
    (samples : ∀ i < wiring.numOrder.toNat, wiring.sample left i = wiring.sample right i)
    (outputs : ∀ i < wiring.denOrder.toNat - 1, left.cells (.outputHist wiring.outputHist i) =
      right.cells (.outputHist wiring.outputHist i)) : wiring.value left = wiring.value right := by
  have forward : wiring.forward left = wiring.forward right := by
    apply List.foldl_ext
    intro y i member
    rw [samples i (List.mem_range.mp member)]
  rw [value, value, forward]
  congr 1
  apply List.foldl_ext
  intro y i member
  have inside := List.mem_range'_1.mp member
  rw [outputs (i - 1) (by omega)]

variable [BEq Value]

theorem diffEqStep_parallel (same : right.edges = left.edges) (table : node.ops = some .diffEq)
    (ready : DiffEqReady node left wiring) :
    ∃ left' right', diffEqStep (some node) left = some (.ok, left') ∧
      diffEqStep (some node) right = some (.ok, right') ∧ Parallel node left right left' right' := by
  obtain ⟨left', stepped, kept, reaches, others⟩ := diffEqStep_frame ready
  obtain ⟨right', stepped', kept', reaches', others'⟩ := diffEqStep_frame (ready.congr same)
  have first : 0 < left.count wiring.input := by
    rw [ready.single]
    exact Nat.one_pos
  refine ⟨left', right', stepped, stepped', ⟨reaches.edges, reaches'.edges⟩, ?_, ?_⟩
  · intro cell unwritten
    apply others
    · rintro i inside rfl
      exact unwritten (.inl (ready.owns_input table inside))
    · rintro i inside rfl
      exact unwritten (.inl (ready.owns_output table inside))
    · rintro rfl
      exact unwritten (ready.written first)
  · intro read cell agree
    have past : ∀ i < wiring.denOrder.toNat - 1, left.cells (.outputHist wiring.outputHist i) =
        right.cells (.outputHist wiring.outputHist i) :=
      fun i inside => read _ (.inl (ready.owns_output table inside))
    have sample : ∀ i < wiring.numOrder.toNat, wiring.sample left i = wiring.sample right i := by
      intro i inside
      rw [DiffEqWiring.sample, DiffEqWiring.sample, read _ (ready.read first),
        read _ (.inl (ready.owns_input table (Nat.lt_of_le_of_lt (Nat.sub_le i 1) inside)))]
    have value := DiffEqWiring.value_congr sample past
    by_cases input_written : ∃ i < wiring.numOrder.toNat, cell = .inputHist wiring.inputHist i
    · obtain ⟨i, inside, rfl⟩ := input_written
      rw [kept.inputHist i inside, kept'.inputHist i inside, sample i inside]
    by_cases output_written : ∃ i < wiring.denOrder.toNat - 1, cell = .outputHist wiring.outputHist i
    · obtain ⟨i, inside, rfl⟩ := output_written
      rw [kept.outputHist i inside, kept'.outputHist i inside, value, past (i - 1) (by omega)]
    by_cases written : cell = .signal wiring.target 0
    · rw [written, kept.target, kept'.target, value]
    · have input : ∀ i < wiring.numOrder.toNat, cell ≠ .inputHist wiring.inputHist i :=
        fun i inside equal => input_written ⟨i, inside, equal⟩
      have output : ∀ i < wiring.denOrder.toNat - 1, cell ≠ .outputHist wiring.outputHist i :=
        fun i inside equal => output_written ⟨i, inside, equal⟩
      rw [others cell input output written, others' cell input output written, agree]

theorem diffEqStep_code (node : Option (Node Value)) (same : right.edges = left.edges) :
    (diffEqStep node right).map Prod.fst = (diffEqStep node left).map Prod.fst := by
  obtain ⟨ret, checked, -⟩ := diffEqValidate_decides node left
  have checked' := (diffEqValidate_congr node same).trans checked
  by_cases success : ret = .ok
  · subst success
    cases node with
    | none => rfl
    | some node =>
      obtain ⟨wiring, ready⟩ := diffEqValidate_ok.mp checked
      obtain ⟨left', stepped, -⟩ := diffEqStep_ready ready
      obtain ⟨right', stepped', -⟩ := diffEqStep_ready (ready.congr same)
      rw [stepped, stepped']
      rfl
  · have failed : ret.code < 0 := NodeErr.code_neg.mpr success
    have stopped : diffEqStep node left = some (ret, left) := by
      rw [diffEqStep, checked]
      exact if_pos failed
    have stopped' : diffEqStep node right = some (ret, right) := by
      rw [diffEqStep, checked']
      exact if_pos failed
    rw [stopped, stopped']
    rfl

end

variable [Zero Value] [Add Value] [Sub Value] [Mul Value] [Div Value] [BEq Value]

theorem nodeStep_parallel (node : Node Value) (left right : Memory Value)
    (same : right.edges = left.edges) :
    ∃ code left' right', nodeStep (some node) left = some (code, left') ∧
      nodeStep (some node) right = some (code, right') ∧ Parallel node left right left' right' := by
  cases table : node.ops with
  | none =>
    simp only [nodeStep, opsOf, table, Option.bind_eq_bind, Option.bind_some, Option.bind_none]
    exact ⟨-1, left, right, rfl, rfl, .untouched⟩
  | some ops =>
    rw [nodeStep_table table, nodeStep_table table]
    cases ops with
    | gain =>
      apply called_parallel
      apply parallel_of_success (gainStep (some node)) (fun _ => gainStep_untouched) (gainStep_code _ same)
      intro after stepped
      obtain ⟨param, input, output, source, target, ready⟩ := gainStep_ok stepped
      exact gainStep_parallel same ready
    | diffEq =>
      apply called_parallel
      apply parallel_of_success (diffEqStep (some node)) (fun _ => diffEqStep_untouched)
        (diffEqStep_code _ same)
      intro after stepped
      obtain ⟨wiring, ready⟩ := diffEqStep_ok stepped
      exact diffEqStep_parallel same table ready
    | integrator =>
      apply called_parallel
      apply parallel_of_success (integratorStep (some node)) (fun _ => integratorStep_untouched)
        (integratorStep_code _ same)
      intro after stepped
      obtain ⟨param, state, input, output, source, target, array, ready⟩ := integratorStep_ok stepped
      exact integratorStep_parallel same table ready

end Simuless.Runtime
