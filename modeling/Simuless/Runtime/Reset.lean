import Mathlib.Algebra.Ring.Basic
import Simuless.Runtime.Run

/-! What a reset restores.

After a reset a node should answer every input sequence as it does from its
initial state. The difference equation clears both histories, and gain keeps
nothing. The integrator's table has no reset callback: its accumulators go on
from where the steps have left them. Arithmetic is arbitrary here, so that
nothing depends on sums of floats being exact.
-/

set_option autoImplicit false

namespace Simuless.Runtime

open Foundation

variable {Value : Type}

/-! Clearing the histories. -/

section
variable [Zero Value] {memory : Memory Value} (hist : Nat → Nat → Cell) (pointer : Option Nat)
  (count : Nat)

theorem clearHistory_edges : (clearHistory hist pointer count memory).edges = memory.edges := by
  cases pointer with
  | none => rfl
  | some array =>
    apply Memory.foldl_edges
    intro memory i
    rfl

theorem clearHistory_other {cell : Cell} (other : ∀ array i, cell ≠ hist array i) :
    (clearHistory hist pointer count memory).cells cell = memory.cells cell := by
  cases pointer with
  | none => rfl
  | some array =>
    apply Memory.foldl_other
    intro memory i _
    exact Memory.store_other memory (other array i) 0

theorem clearHistory_zero {array i : Nat} (present : pointer = some array) (below : i < count) :
    (clearHistory hist pointer count memory).cells (hist array i) = 0 := by
  subst present
  induction count with
  | zero => exact absurd below (Nat.not_lt_zero i)
  | succ count ih =>
    rw [clearHistory, List.range_succ, List.foldl_append]
    by_cases last : hist array i = hist array count
    · rw [last]
      exact Function.update_self _ _ _
    · have before : i < count := by
        have different : i ≠ count := fun same => last (same ▸ rfl)
        omega
      exact (Memory.store_other _ last 0).trans (ih before)

/-- Each history whose pointer is there is cleared over its length. -/
theorem diffEqReset_zeroed (node : Node Value) (memory : Memory Value) :
    ∃ cleared, diffEqReset (some node) memory = some cleared ∧ cleared.edges = memory.edges ∧
      ∀ param state, node.param = some param → node.state = some state →
        Zeroed param.diffEq state.diffEq cleared := by
  cases parameter : node.param with
  | none =>
    refine ⟨memory, by simp [diffEqReset, parameter], rfl, ?_⟩
    intro param state present
    cases present
  | some param =>
    cases stateBlock : node.state with
    | none =>
      refine ⟨memory, by simp [diffEqReset, parameter, stateBlock], rfl, ?_⟩
      intro param state _ present
      cases present
    | some state =>
      let first := clearHistory .inputHist state.diffEq.inputHist param.diffEq.numOrder.toNat memory
      have recent : ∀ array, state.diffEq.inputHist = some array →
          ∀ i < param.diffEq.numOrder.toNat, first.cells (.inputHist array i) = 0 := by
        intro array present i below
        exact clearHistory_zero _ _ _ present below
      have same : first.edges = memory.edges := clearHistory_edges _ _ _
      by_cases feedback : 1 < param.diffEq.denOrder
      · let cleared := clearHistory .outputHist state.diffEq.outputHist
          (param.diffEq.denOrder.toNat - 1) first
        refine ⟨cleared, by simp [diffEqReset, parameter, stateBlock, feedback, cleared, first],
          (clearHistory_edges _ _ _).trans same, ?_⟩
        rintro _ _ ⟨⟩ ⟨⟩
        constructor
        · intro array present i below
          have kept : cleared.cells (.inputHist array i) = first.cells (.inputHist array i) := by
            apply clearHistory_other
            intro other j same
            cases same
          exact kept.trans (recent array present i below)
        · intro array present i below
          exact clearHistory_zero _ _ _ present below
      · refine ⟨first, by simp [diffEqReset, parameter, stateBlock, feedback, first], same, ?_⟩
        rintro _ _ ⟨⟩ ⟨⟩
        -- without feedback there is no output history
        have short : ¬ 1 < param.diffEq.denOrder.toNat := fun long =>
          feedback (UInt8.lt_iff_toNat_lt.mpr long)
        exact ⟨recent, fun array _ i below => absurd below (by omega)⟩

end

/-! Memories from which a node answers alike. -/

section
variable [Zero Value] [Add Value] [Sub Value] [Mul Value] [Div Value] [BEq Value]
  {node : Node Value} {memory left right : Memory Value}

/-- Where no step succeeds, every turn is refused. -/
theorem turn_refused (stuck : ∀ before after, before.edges = memory.edges →
    nodeStep (some node) before ≠ some (0, after)) (values : Nat → Value) :
    turn node memory values = none := by
  cases turned : turn node memory values with
  | none => rfl
  | some result => exact absurd (turn_steps turned) (stuck _ _ (feed_edges values))

/-- Memories that are related as soon as a step can succeed, by a relation that
turns keep, are answered from alike. -/
theorem answers_related {related : Memory Value → Memory Value → Prop}
    (same : right.edges = left.edges)
    (start : ∀ before after, before.edges = left.edges →
      nodeStep (some node) before = some (0, after) → related left right)
    (step : ∀ left right, related left right → ∀ values, ∃ answer left' right',
      turn node left values = some (answer, left') ∧
        turn node right values = some (answer, right') ∧ related left' right')
    (inputs : List (Nat → Value)) :
    (turn node).answers left inputs = (turn node).answers right inputs := by
  by_cases moves : ∃ before after, before.edges = left.edges ∧
      nodeStep (some node) before = some (0, after)
  · obtain ⟨before, after, edges, stepped⟩ := moves
    exact Machine.answers_together step (start before after edges stepped) inputs
  · apply Machine.answers_refused
    all_goals
      apply turn_refused
      intro before after edges stepped
    · exact moves ⟨before, after, edges, stepped⟩
    · exact moves ⟨before, after, edges.trans same, stepped⟩

/-- A node without a table never answers. -/
theorem blank_answers (table : node.ops = none) (same : right.edges = left.edges)
    (inputs : List (Nat → Value)) :
    (turn node).answers left inputs = (turn node).answers right inputs := by
  let related (_ _ : Memory Value) : Prop := False
  have start (before after : Memory Value) (_ : before.edges = left.edges)
      (stepped : nodeStep (some node) before = some (0, after)) : related left right := by
    obtain ⟨ops, present⟩ := nodeStep_ops stepped
    rw [table] at present
    cases present
  exact answers_related same start (fun _ _ impossible => False.elim impossible) inputs

/-- Gain keeps nothing from step to step. -/
theorem gain_answers (table : node.ops = some .gain) (same : right.edges = left.edges)
    (inputs : List (Nat → Value)) :
    (turn node).answers left inputs = (turn node).answers right inputs := by
  let related (left right : Memory Value) : Prop := right.edges = left.edges ∧
    ∃ param input output source target, GainReady node left param input output source target
  have start (before after : Memory Value) (edges : before.edges = left.edges)
      (stepped : nodeStep (some node) before = some (0, after)) : related left right := by
    rw [nodeStep_table table] at stepped
    obtain ⟨param, input, output, source, target, ready⟩ := gainStep_ok (called_ok.mp stepped)
    exact ⟨same, param, input, output, source, target, ready.congr edges.symm⟩
  apply answers_related same start
  rintro left right ⟨same, param, input, output, source, target, ready⟩ values
  obtain ⟨left', turned, edges⟩ := gain_turn table ready values
  obtain ⟨right', turned', edges'⟩ := gain_turn table (ready.congr same) values
  rw [Memory.count_congr same] at turned'
  exact ⟨_, left', right', turned, turned', by rw [edges', same, edges], param, input, output, source,
    target, ready.congr edges⟩

/-- The histories agree as far as a difference equation reads them. -/
structure SameHistory (wiring : DiffEqWiring Value) (left right : Memory Value) : Prop where
  inputHist : ∀ i < wiring.numOrder.toNat,
    left.cells (.inputHist wiring.inputHist i) = right.cells (.inputHist wiring.inputHist i)
  outputHist : ∀ i < wiring.denOrder.toNat - 1,
    left.cells (.outputHist wiring.outputHist i) = right.cells (.outputHist wiring.outputHist i)

section
variable {wiring : DiffEqWiring Value}

omit [Zero Value] [Add Value] [Sub Value] [Mul Value] [Div Value] [BEq Value] in
theorem SameHistory.sample (alike : SameHistory wiring left right)
    (input : left.cells (.signal wiring.source 0) = right.cells (.signal wiring.source 0)) {i : Nat}
    (below : i < wiring.numOrder.toNat) : wiring.sample left i = wiring.sample right i := by
  rw [DiffEqWiring.sample, DiffEqWiring.sample, input, alike.inputHist (i - 1) (by omega)]

omit [BEq Value] in
theorem SameHistory.value (alike : SameHistory wiring left right)
    (input : left.cells (.signal wiring.source 0) = right.cells (.signal wiring.source 0)) :
    wiring.value left = wiring.value right := by
  have forward : wiring.forward left = wiring.forward right := by
    apply List.foldl_ext
    intro y i member
    rw [alike.sample input (List.mem_range.mp member)]
  rw [DiffEqWiring.value, DiffEqWiring.value, forward]
  congr 1
  apply List.foldl_ext
  intro y i member
  have bounds := List.mem_range'_1.mp member
  rw [alike.outputHist (i - 1) (by omega)]

omit [BEq Value] in
/-- A step on the same sample keeps the histories alike. -/
theorem SameHistory.advance (alike : SameHistory wiring left right)
    (input : left.cells (.signal wiring.source 0) = right.cells (.signal wiring.source 0))
    {left' right' : Memory Value} (stepped : wiring.Stepped left left')
    (stepped' : wiring.Stepped right right') : SameHistory wiring left' right' := by
  constructor
  · intro i below
    rw [stepped.inputHist i below, stepped'.inputHist i below, alike.sample input below]
  · intro i below
    rw [stepped.outputHist i below, stepped'.outputHist i below, alike.value input,
      alike.outputHist (i - 1) (by omega)]

end

theorem diffEq_answers (table : node.ops = some .diffEq) (same : right.edges = left.edges)
    (alike : ∀ wiring, DiffEqReady node left wiring → SameHistory wiring left right)
    (inputs : List (Nat → Value)) :
    (turn node).answers left inputs = (turn node).answers right inputs := by
  let related (left right : Memory Value) : Prop := right.edges = left.edges ∧
    ∃ wiring, DiffEqReady node left wiring ∧ SameHistory wiring left right
  have start (before after : Memory Value) (edges : before.edges = left.edges)
      (stepped : nodeStep (some node) before = some (0, after)) : related left right := by
    rw [nodeStep_table table] at stepped
    obtain ⟨wiring, ready⟩ := diffEqStep_ok (called_ok.mp stepped)
    have ready := ready.congr edges.symm
    exact ⟨same, wiring, ready, alike wiring ready⟩
  apply answers_related same start
  rintro left right ⟨same, wiring, ready, alike⟩ values
  obtain ⟨left', turned, edges, stepped⟩ := diffEq_turn table ready values
  obtain ⟨right', turned', edges', stepped'⟩ := diffEq_turn table (ready.congr same) values
  -- both histories are as they were when the input is there
  have fed : SameHistory wiring (left.poke wiring.source values) (right.poke wiring.source values) :=
    ⟨alike.inputHist, alike.outputHist⟩
  have input : (left.poke wiring.source values).cells (.signal wiring.source 0) =
      (right.poke wiring.source values).cells (.signal wiring.source 0) :=
    (left.poke_signal _ 0 values).trans (right.poke_signal _ 0 values).symm
  rw [← fed.value input] at turned'
  exact ⟨_, left', right', turned, turned', by rw [edges', same, edges], wiring, ready.congr edges,
    fed.advance input stepped stepped'⟩

/-- Whatever is added next, the sums agree. -/
def Level (dt : Value) (array count : Nat) (left right : Memory Value) : Prop :=
  ∀ i < count, ∀ u,
    left.cells (.accumulator array i) + u * dt = right.cells (.accumulator array i) + u * dt

section
variable {param : ParamBlock Value} {state : StateBlock} {input output source target array : Nat}

theorem integrator_answers (table : node.ops = some .integrator) (same : right.edges = left.edges)
    (level : ∀ param state input output source target array,
      IntegratorReady node left param state input output source target array →
        Level node.dt array (left.count input) left right)
    (inputs : List (Nat → Value)) :
    (turn node).answers left inputs = (turn node).answers right inputs := by
  let related (left right : Memory Value) : Prop := right.edges = left.edges ∧
    ∃ param state input output source target array,
      IntegratorReady node left param state input output source target array ∧
        Level node.dt array (left.count input) left right
  have start (before after : Memory Value) (edges : before.edges = left.edges)
      (stepped : nodeStep (some node) before = some (0, after)) : related left right := by
    rw [nodeStep_table table] at stepped
    obtain ⟨param, state, input, output, source, target, array, ready⟩ :=
      integratorStep_ok (called_ok.mp stepped)
    have ready := ready.congr edges.symm
    exact ⟨same, param, state, input, output, source, target, array, ready,
      level param state input output source target array ready⟩
  apply answers_related same start
  rintro left right ⟨same, param, state, input, output, source, target, array, ready, level⟩ values
  obtain ⟨left', turned, edges, added⟩ := integrator_turn table ready values
  obtain ⟨right', turned', edges', added'⟩ := integrator_turn table (ready.congr same) values
  -- both answer with the same sums, and keep them
  rw [Memory.count_congr same] at turned' added'
  have sums : ∀ i ∈ List.range (left.count input),
      right.cells (.accumulator array i) + values i * node.dt =
        left.cells (.accumulator array i) + values i * node.dt := fun i member =>
    (level i (List.mem_range.mp member) (values i)).symm
  rw [List.map_congr_left sums] at turned'
  refine ⟨_, left', right', turned, turned', by rw [edges', same, edges], param, state, input, output,
    source, target, array, ready.congr edges, ?_⟩
  rw [Memory.count_congr edges]
  intro i below u
  rw [added i below, added' i below, level i below]

/-- One input tells two integrators apart unless they are level. -/
theorem integrator_level (table : node.ops = some .integrator)
    (ready : IntegratorReady node left param state input output source target array)
    (same : right.edges = left.edges)
    (answers : ∀ inputs, (turn node).answers left inputs = (turn node).answers right inputs) :
    Level node.dt array (left.count input) left right := by
  intro i below u
  obtain ⟨left', turned, -⟩ := integrator_turn table ready fun _ => u
  obtain ⟨right', turned', -⟩ := integrator_turn table (ready.congr same) fun _ => u
  rw [Memory.count_congr same] at turned'
  have answered := answers [fun _ => u]
  simp only [Machine.answers_single turned, Machine.answers_single turned', Option.some.injEq,
    List.cons.injEq, and_true] at answered
  exact List.map_inj_left.mp answered i (List.mem_range.mpr below)

/-- What a run leaves in the accumulators. -/
theorem integrator_drift (table : node.ops = some .integrator)
    (ready : IntegratorReady node memory param state input output source target array)
    {us : List (Nat → Value)} {answers : List (List Value)} {used : Memory Value}
    (ran : (turn node).run memory us = some (answers, used)) :
    ∀ i < memory.count input, used.cells (.accumulator array i) =
      us.foldl (fun x values => x + values i * node.dt) (memory.cells (.accumulator array i)) := by
  obtain ⟨answers', used', ran', -, drifted, -⟩ := integrator_run table ready us
  rw [ran] at ran'
  cases ran'
  exact drifted

end

/-! Against the initial state. -/

/-- From here the node answers every input sequence as from its initial state. -/
def AsInitial (node : Node Value) (memory : Memory Value) : Prop :=
  ∀ start : Memory Value, start.edges = memory.edges → Initial node start →
    ∀ inputs, (turn node).answers memory inputs = (turn node).answers start inputs

/-- For every element of an integrator, going on from what the inputs have added
up to gives the same sums as starting from the initial value. -/
def Returned (node : Node Value) (memory : Memory Value) (us : List (Nat → Value)) : Prop :=
  node.ops = some .integrator → ∀ param state input output source target array,
    IntegratorReady node memory param state input output source target array →
      ∀ i < memory.count input, ∀ u,
        us.foldl (fun x values => x + values i * node.dt) (memory.cells (.accumulator array i)) +
          u * node.dt = param.integrator.x0 + u * node.dt

theorem integrator_restored_iff (table : node.ops = some .integrator) {us : List (Nat → Value)}
    {answers : List (List Value)} {used : Memory Value}
    (ran : (turn node).run memory us = some (answers, used)) :
    AsInitial node used ↔ Returned node memory us := by
  have edges := run_edges ran
  constructor
  · intro restored _ param state input output source target array ready i below u
    -- the initial state on the same edges
    let start : Memory Value := ⟨used.edges, fun _ => param.integrator.x0, []⟩
    have initial : Initial node start := by
      intro param' state' parameter stateBlock
      rw [ready.parameter, Option.some.injEq] at parameter
      subst parameter
      rw [table]
      intro input array _ _ i _
      rfl
    have same : start.edges = used.edges := rfl
    have level := integrator_level table (ready.congr edges) same (restored start rfl initial)
    rw [Memory.count_congr edges] at level
    rw [← integrator_drift table ready ran i below]
    exact level i below u
  · intro returned start same initial inputs
    apply integrator_answers table same
    intro param state input output source target array ready i below u
    have before := ready.congr edges.symm
    rw [Memory.count_congr edges] at below
    have preset := initial param state ready.parameter ready.stateBlock
    rw [table] at preset
    have first : start.cells (.accumulator array i) = param.integrator.x0 := by
      apply preset input array ready.bound.1 ready.accumulators i
      rw [Memory.count_congr (same.trans edges)]
      exact below
    rw [integrator_drift table before ran i below, first]
    exact returned table param state input output source target array before i below u

/-- Two difference equations with zeroed histories answer alike. -/
theorem diffEq_restored (table : node.ops = some .diffEq)
    (zeroed : ∀ param state, node.param = some param → node.state = some state →
      Zeroed param.diffEq state.diffEq memory) : AsInitial node memory := by
  intro start same initial
  apply diffEq_answers table same
  intro wiring ready
  have preset (param : ParamBlock Value) (state : StateBlock) (parameter : node.param = some param)
      (stateBlock : node.state = some state) : Zeroed param.diffEq state.diffEq start := by
    have held := initial param state parameter stateBlock
    rw [table] at held
    exact held
  obtain ⟨inputs, outputs⟩ := ready.histories_zero zeroed
  obtain ⟨inputs', outputs'⟩ := ready.histories_zero preset
  constructor
  · intro i below
    rw [inputs i below, inputs' i below]
  · intro i below
    rw [outputs i below, outputs' i below]

/-- A reset after any successful steps makes the node answer as from its initial
state if and only if no integrator has drifted. -/
theorem reset_restores_iff {us : List (Nat → Value)} {answers : List (List Value)}
    {used : Memory Value} (ran : (turn node).run memory us = some (answers, used)) :
    ∃ cleared, nodeReset (some node) used = some cleared ∧
      (AsInitial node cleared ↔ Returned node memory us) := by
  have kept (other : node.ops ≠ some .integrator) : Returned node memory us :=
    fun integrator => absurd integrator other
  cases table : node.ops with
  | none =>
    refine ⟨used, by simp [nodeReset, opsOf, table], ?_⟩
    exact iff_of_true (fun start same _ => blank_answers table same) (kept (by simp [table]))
  | some ops =>
    rw [nodeReset_table table]
    cases ops with
    | gain =>
      refine ⟨used, rfl, ?_⟩
      exact iff_of_true (fun start same _ => gain_answers table same) (kept (by simp [table]))
    | integrator => exact ⟨used, rfl, integrator_restored_iff table ran⟩
    | diffEq =>
      obtain ⟨cleared, reset, -, zeroed⟩ := diffEqReset_zeroed node used
      exact ⟨cleared, reset, iff_of_true (diffEq_restored table zeroed) (kept (by simp [table]))⟩

end

/-- In exact arithmetic the accumulators must be back at the initial value. -/
theorem returned_exact [Ring Value] {node : Node Value} {memory : Memory Value}
    {us : List (Nat → Value)} :
    Returned node memory us ↔
    (node.ops = some .integrator → ∀ param state input output source target array,
      IntegratorReady node memory param state input output source target array →
        ∀ i < memory.count input, us.foldl (fun x values => x + values i * node.dt)
          (memory.cells (.accumulator array i)) = param.integrator.x0) := by
  simp only [Returned, add_left_inj, forall_const]

/-- A difference equation that has taken a step answers as before after a reset. -/
def delayNode : Option (Node Int) :=
  builtNode .diffEq (some ⟨⟨0⟩, ⟨0⟩, ⟨some fun _ => 1, some fun _ => 1, 2, 2⟩⟩)
    (some ⟨⟨none, 0⟩, ⟨some 0, some 0⟩⟩) 0

theorem delay_restored : ∃ node answers used cleared, delayNode = some node ∧
    (turn node).run ⟨fun i => scalarEdge (some i), fun _ => 0, []⟩ [fun _ => 3] =
      some (answers, used) ∧
    nodeReset (some node) used = some cleared ∧ AsInitial node cleared := by
  obtain ⟨node, built⟩ : ∃ node, delayNode = some node := ⟨_, rfl⟩
  obtain ⟨answers, used, ran⟩ : ∃ answers used, (turn node).run
      ⟨fun i => scalarEdge (some i), fun _ => 0, []⟩ [fun _ => 3] = some (answers, used) := by
    cases built
    exact ⟨_, _, rfl⟩
  obtain ⟨cleared, reset, restored⟩ := reset_restores_iff ran
  refine ⟨node, answers, used, cleared, built, ran, reset, restored.mpr ?_⟩
  intro integrator
  cases built
  cases integrator

/-- An integrator keeps its sum through a reset. -/
theorem integrator_not_restored : ∃ node answers used,
    let memory : Memory Int := ⟨fun i => scalarEdge (some i), fun _ => 0, []⟩
    integratorNode = some node ∧ Initial node memory ∧
      (turn node).run memory [fun _ => 3] = some (answers, used) ∧
      nodeReset (some node) used = some used ∧ ¬ AsInitial node used := by
  refine ⟨_, _, _, rfl, ?_, rfl, rfl, ?_⟩
  · intro param state parameter _
    cases parameter
    intro input array _ _ i _
    rfl
  · intro restored
    let start : Memory Int := ⟨fun i => scalarEdge (some i), fun _ => 0, []⟩
    have answered := restored start rfl (by
      intro param state parameter _
      cases parameter
      intro input array _ _ i _
      rfl) [fun _ => 0]
    exact absurd answered (by decide)

end Simuless.Runtime
