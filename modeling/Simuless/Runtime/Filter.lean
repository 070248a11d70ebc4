import Simuless.Foundation.Response
import Simuless.Runtime.DiffEqLaw
import Simuless.Runtime.StepOrder

/-! Nodes as linear filters.

Over a field, in place of floats, every operator solves a difference equation,
element by element. What a node has taken in since it was at rest is recorded in
the cells it owns and nowhere else.
-/

set_option autoImplicit false

namespace Simuless.Runtime

open Foundation PowerSeries

variable {K : Type} [Field K]

/-- The difference equation that a node computes. -/
def Node.equation (node : Node K) : DifferenceEquation K :=
  match node.ops, node.param with
  | some .gain, some param => ⟨fun _ => param.gain.k, fun _ => 1, 1, 1⟩
  | some .integrator, _ => ⟨fun _ => node.dt, fun j => if j = 0 then 1 else -1, 1, 2⟩
  | some .diffEq, some ⟨_, _, ⟨some num, some den, numOrder, denOrder⟩⟩ =>
      ⟨num, den, numOrder.toNat, denOrder.toNat⟩
  | _, _ => ⟨fun _ => 0, fun _ => 0, 0, 0⟩

section
variable {node : Node K} {param : ParamBlock K}

theorem equation_gain (table : node.ops = some .gain) (parameter : node.param = some param) :
    node.equation = ⟨fun _ => param.gain.k, fun _ => 1, 1, 1⟩ := by
  rw [Node.equation, table, parameter]

theorem equation_integrator (table : node.ops = some .integrator) :
    node.equation = ⟨fun _ => node.dt, fun j => if j = 0 then 1 else -1, 1, 2⟩ := by
  rw [Node.equation, table]

theorem equation_diffEq [DecidableEq K] {memory : Memory K} {wiring : DiffEqWiring K}
    (table : node.ops = some .diffEq) (ready : DiffEqReady node memory wiring) :
    node.equation = wiring.equation := by
  obtain ⟨⟨gain, integrator, diffEq⟩, parameter, coefficients⟩ := ready.parameter
  change diffEq = _ at coefficients
  subst coefficients
  rw [Node.equation, table, parameter]
  rfl

/-- A gain multiplies the newest sample. -/
theorem next_gain (k : K) (recent past : Nat → K) :
    (⟨fun _ => k, fun _ => 1, 1, 1⟩ : DifferenceEquation K).next recent past = k * recent 0 := by
  simp [DifferenceEquation.next]

/-- An integrator adds the newest sample to the last output. -/
theorem next_integrator (dt : K) (recent past : Nat → K) :
    (⟨fun _ => dt, fun j => if j = 0 then 1 else -1, 1, 2⟩ : DifferenceEquation K).next recent past =
      past 0 + recent 0 * dt := by
  simp [DifferenceEquation.next]
  ring

end

/-- Element `i` of a sequence of inputs. -/
def lane {Value : Type} (received : List (Nat → Value)) (i : Nat) : List Value :=
  received.map fun values => values i

theorem lane_concat {Value : Type} (received : List (Nat → Value)) (values : Nat → Value) (i : Nat) :
    lane (received ++ [values]) i = lane received i ++ [values i] := List.map_append

@[simp] theorem length_lane {Value : Type} (received : List (Nat → Value)) (i : Nat) :
    (lane received i).length = received.length := List.length_map _

/-- The output of an equation whose histories are aligned with what was received. -/
theorem aligned_answer {equation : DifferenceEquation K} (solvable : equation.Solvable)
    {received : List (Nat → K)} {i : Nat} {ys : List K} {recent past : Nat → K} {values : Nat → K} {y : K}
    (aligned : equation.Aligned (lane received i) ys recent past)
    (computed : y = equation.next (shifted (values i) recent) past) :
    y = coeff received.length (equation.transfer * signal (lane (received ++ [values]) i)) := by
  rw [lane_concat, ← length_lane received i]
  exact aligned.answer solvable computed

variable [DecidableEq K]

/-- The node can step, and its state is what these inputs have left, starting from rest. -/
inductive Settled (node : Node K) (memory : Memory K) (received : List (Nat → K)) : Prop where
  | gain {param : ParamBlock K} {input output source target : Nat} (table : node.ops = some .gain)
      (ready : GainReady node memory param input output source target)
      (aligned : ∀ i, ∃ ys recent past, node.equation.Aligned (lane received i) ys recent past)
  | integrator {param : ParamBlock K} {state : StateBlock} {input output source target array : Nat}
      (table : node.ops = some .integrator)
      (ready : IntegratorReady node memory param state input output source target array)
      (aligned : ∀ i < memory.count input, ∃ ys recent past,
        node.equation.Aligned (lane received i) ys recent past ∧
          past 0 = memory.cells (.accumulator array i))
  | diffEq {wiring : DiffEqWiring K} (table : node.ops = some .diffEq)
      (ready : DiffEqReady node memory wiring)
      (aligned : ∃ ys, wiring.equation.Aligned (lane received 0) ys (wiring.recent memory)
        (wiring.past memory))

/-- The node can step and all its state is zero. -/
structure AtRest (node : Node K) (memory : Memory K) : Prop where
  steps : stepCode node memory.edges = 0
  zeroed : ∀ cell, node.Owns memory.edges cell → memory.cells cell = 0

variable {node : Node K} {memory other : Memory K} {received : List (Nat → K)}

theorem AtRest.stepped (rest : AtRest node memory) :
    ∃ after, nodeStep (some node) memory = some (0, after) := by
  obtain ⟨after, stepped, -⟩ := nodeStep_view node memory
  rw [rest.steps] at stepped
  exact ⟨after, stepped⟩

theorem AtRest.settled (rest : AtRest node memory) : Settled node memory [] := by
  obtain ⟨after, stepped⟩ := rest.stepped
  obtain ⟨ops, table⟩ := nodeStep_ops stepped
  rw [nodeStep_table table] at stepped
  cases ops with
  | gain =>
    obtain ⟨param, input, output, source, target, ready⟩ := gainStep_ok (called_ok.mp stepped)
    refine .gain table ready fun i => ⟨[], fun _ => 0, fun _ => 0, ?_⟩
    exact DifferenceEquation.aligned_nil (fun _ _ => rfl) (fun _ _ => rfl)
  | integrator =>
    obtain ⟨param, state, input, output, source, target, array, ready⟩ :=
      integratorStep_ok (called_ok.mp stepped)
    refine .integrator table ready fun i inside => ⟨[], fun _ => 0, fun _ => 0, ?_, ?_⟩
    · exact DifferenceEquation.aligned_nil (fun _ _ => rfl) (fun _ _ => rfl)
    · symm
      apply rest.zeroed
      exact ⟨table, ⟨state, ready.stateBlock, ready.accumulators⟩, ready.extent_eq ▸ inside⟩
  | diffEq =>
    obtain ⟨wiring, ready⟩ := diffEqStep_ok (called_ok.mp stepped)
    refine .diffEq table ready ⟨[], DifferenceEquation.aligned_nil ?_ ?_⟩
    · intro i below
      exact rest.zeroed _ (ready.owns_input table below)
    · intro i below
      exact rest.zeroed _ (ready.owns_output table below)

/-- Only the cells that the node owns matter. -/
theorem Settled.congr (settled : Settled node memory received) (same : other.edges = memory.edges)
    (owned : ∀ cell, node.Owns memory.edges cell → other.cells cell = memory.cells cell) :
    Settled node other received := by
  cases settled with
  | gain table ready aligned => exact .gain table (ready.congr same) aligned
  | integrator table ready aligned =>
    refine .integrator table (ready.congr same) fun i inside => ?_
    rw [Memory.count_congr same] at inside
    obtain ⟨ys, recent, past, solution, last⟩ := aligned i inside
    refine ⟨ys, recent, past, solution, last.trans (owned _ ?_).symm⟩
    exact ⟨table, ⟨_, ready.stateBlock, ready.accumulators⟩, ready.extent_eq ▸ inside⟩
  | diffEq table ready aligned =>
    obtain ⟨ys, solution⟩ := aligned
    refine .diffEq table (ready.congr same) ⟨ys, solution.satisfies, ?_, ?_⟩
    · intro i below
      exact (owned _ (ready.owns_input table below)).trans (solution.recent i below)
    · intro i below
      exact (owned _ (ready.owns_output table below)).trans (solution.past i below)

/-- A settled node has an equation to solve. -/
theorem Settled.solvable (settled : Settled node memory received) : node.equation.Solvable := by
  cases settled with
  | gain table ready _ =>
    rw [equation_gain table ready.parameter]
    exact ⟨Nat.one_pos, one_ne_zero⟩
  | integrator table _ _ =>
    rw [equation_integrator table]
    exact ⟨Nat.two_pos, one_ne_zero⟩
  | diffEq table ready _ =>
    rw [equation_diffEq table ready]
    refine ⟨Nat.pos_of_ne_zero fun zero => ?_, beq_eq_false_iff_ne.mp ready.leading⟩
    exact ready.orders.2 (UInt8.toNat_inj.mp zero)

/-- What one step of a settled node does. -/
structure Advanced (node : Node K) (memory : Memory K) (received : List (Nat → K))
    (source target : Nat) (after : Memory K) : Prop where
  source_eq : node.source memory.edges = some source
  target_eq : node.target memory.edges = some target
  stepped : nodeStep (some node) memory = some (0, after)
  edges : after.edges = memory.edges
  settled : Settled node after (received ++ [fun i => memory.cells (.signal source i)])
  output : ∀ i < node.extent memory.edges, after.cells (.signal target i) = coeff received.length
    (node.equation.transfer * signal (lane (received ++ [fun i => memory.cells (.signal source i)]) i))

section
variable {param : ParamBlock K} {state : StateBlock} {input output source target array : Nat}

theorem gain_advance (solvable : node.equation.Solvable) (table : node.ops = some .gain)
    (ready : GainReady node memory param input output source target)
    (aligned : ∀ i, ∃ ys recent past, node.equation.Aligned (lane received i) ys recent past) :
    ∃ after, Advanced node memory received source target after := by
  have equation := equation_gain table ready.parameter
  obtain ⟨after, looped⟩ : ∃ after, (List.range (memory.count input)).foldl
      (gainElement param.gain.k source target) memory = after := ⟨_, rfl⟩
  have stepped := gainStep_ready ready
  rw [looped] at stepped
  have edges : after.edges = memory.edges := by
    rw [← looped]
    exact gainLoop_edges _ _ _ _
  refine ⟨after, ready.source_eq, ready.target_eq, ?_, edges, ?_, ?_⟩
  · rw [nodeStep_table table]
    exact called_ok.mpr stepped
  · refine .gain table (ready.congr edges) fun i => ?_
    obtain ⟨ys, recent, past, solution⟩ := aligned i
    rw [lane_concat]
    exact ⟨_, _, _, solution.advance solvable.2 rfl (fun _ _ => rfl) (fun _ _ => rfl)⟩
  · intro i inside
    rw [ready.extent_eq] at inside
    obtain ⟨ys, recent, past, solution⟩ := aligned i
    apply aligned_answer solvable solution
    rw [← looped, gainLoop_target _ _ _ _ inside, equation, next_gain]
    rfl

theorem integrator_advance (solvable : node.equation.Solvable) (table : node.ops = some .integrator)
    (ready : IntegratorReady node memory param state input output source target array)
    (aligned : ∀ i < memory.count input, ∃ ys recent past,
      node.equation.Aligned (lane received i) ys recent past ∧
        past 0 = memory.cells (.accumulator array i)) :
    ∃ after, Advanced node memory received source target after := by
  obtain ⟨after, looped⟩ : ∃ after, (List.range (memory.count input)).foldl
      (integratorElement node.dt array source target) memory = after := ⟨_, rfl⟩
  have stepped := integratorStep_ready ready
  rw [looped] at stepped
  have edges : after.edges = memory.edges := by
    rw [← looped]
    exact integratorLoop_edges _ _ _ _ _
  -- what both cells hold is the next output of the equation
  have next {i : Nat} {recent past : Nat → K} (last : past 0 = memory.cells (.accumulator array i)) :
      memory.cells (.accumulator array i) + memory.cells (.signal source i) * node.dt =
        node.equation.next (shifted (memory.cells (.signal source i)) recent) past := by
    rw [equation_integrator table, next_integrator, last]
    rfl
  refine ⟨after, ready.source_eq, ready.target_eq, ?_, edges, ?_, ?_⟩
  · rw [nodeStep_table table]
    exact called_ok.mpr stepped
  · refine .integrator table (ready.congr edges) fun i inside => ?_
    rw [Memory.count_congr edges] at inside
    obtain ⟨ys, recent, past, solution, last⟩ := aligned i inside
    rw [lane_concat]
    refine ⟨_, _, _, solution.advance solvable.2 (next last) (fun _ _ => rfl) (fun _ _ => rfl), ?_⟩
    rw [← looped]
    exact (integratorLoop_element _ _ _ _ _ inside).1.symm
  · intro i inside
    rw [ready.extent_eq] at inside
    obtain ⟨ys, recent, past, solution, last⟩ := aligned i inside
    apply aligned_answer solvable solution
    rw [← looped]
    exact (integratorLoop_element _ _ _ _ _ inside).2.trans (next last)

theorem diffEq_advance {wiring : DiffEqWiring K} (solvable : wiring.equation.Solvable)
    (table : node.ops = some .diffEq) (ready : DiffEqReady node memory wiring) {ys : List K}
    (aligned : wiring.equation.Aligned (lane received 0) ys (wiring.recent memory)
      (wiring.past memory)) :
    ∃ after, Advanced node memory received wiring.source wiring.target after := by
  obtain ⟨after, stepped, kept, reaches⟩ := diffEqStep_ready ready
  refine ⟨after, ready.source_eq, ready.target_eq, ?_, reaches.edges, ?_, ?_⟩
  · rw [nodeStep_table table]
    exact called_ok.mpr stepped
  · refine .diffEq table (ready.congr reaches.edges) ⟨ys ++ [wiring.value memory], ?_⟩
    rw [lane_concat]
    exact aligned.advance solvable.2 (wiring.value_next memory) kept.inputHist kept.outputHist
  · intro i inside
    rw [ready.extent_eq, ready.single, Nat.lt_one_iff] at inside
    subst inside
    rw [equation_diffEq table ready]
    apply aligned_answer solvable aligned
    rw [kept.target]
    exact wiring.value_next memory

end

/-- One step takes in the input signal and puts out the next sample of the response. -/
theorem Settled.advance (settled : Settled node memory received) :
    ∃ source target after, Advanced node memory received source target after := by
  have solvable := settled.solvable
  cases settled with
  | gain table ready aligned => exact ⟨_, _, gain_advance solvable table ready aligned⟩
  | integrator table ready aligned => exact ⟨_, _, integrator_advance solvable table ready aligned⟩
  | diffEq table ready aligned =>
    obtain ⟨ys, solution⟩ := aligned
    rw [equation_diffEq table ready] at solvable
    exact ⟨_, _, diffEq_advance solvable table ready solution⟩

end Simuless.Runtime
