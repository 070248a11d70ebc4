import Mathlib.Algebra.Field.Rat
import Simuless.Foundation.DifferenceEquation
import Simuless.Runtime.Run

/-! The difference equation node solves its equation.

Over a field, in place of floats, the outputs of successive steps from zeroed
histories satisfy the law the coefficients give, over runs of any length.
-/

set_option autoImplicit false

namespace Simuless.Runtime

open Foundation

variable {K : Type} [Field K]

namespace DiffEqWiring

variable (wiring : DiffEqWiring K) (memory : Memory K)

def equation : DifferenceEquation K where
  num := wiring.num
  den := wiring.den
  numOrder := wiring.numOrder.toNat
  denOrder := wiring.denOrder.toNat

def recent (i : Nat) : K := memory.cells (.inputHist wiring.inputHist i)

def past (i : Nat) : K := memory.cells (.outputHist wiring.outputHist i)

/-- A step computes the next output of the equation. -/
theorem value_next : wiring.value memory = wiring.equation.next
    (shifted (memory.cells (.signal wiring.source 0)) (wiring.recent memory)) (wiring.past memory) :=
  rfl

end DiffEqWiring

variable [DecidableEq K] {node : Node K} {memory : Memory K} {wiring : DiffEqWiring K}

/-- After these inputs and answers the node still solves the equation. -/
structure Solving (node : Node K) (wiring : DiffEqWiring K) (inputs : List (Nat → K))
    (answers : List (List K)) (memory : Memory K) : Prop where
  ready : DiffEqReady node memory wiring
  aligned : ∃ ys, answers = ys.map (fun y => [y]) ∧ wiring.equation.Aligned
    (inputs.map fun values => values 0) ys (wiring.recent memory) (wiring.past memory)

theorem solving_start (ready : DiffEqReady node memory wiring)
    (recent_zero : ∀ i < wiring.numOrder.toNat, wiring.recent memory i = 0)
    (past_zero : ∀ i < wiring.denOrder.toNat - 1, wiring.past memory i = 0) :
    Solving node wiring [] [] memory :=
  ⟨ready, [], rfl, DifferenceEquation.aligned_nil recent_zero past_zero⟩

/-- One turn takes in a sample and answers with the next output. -/
theorem Solving.advance (table : node.ops = some .diffEq) {before : List (Nat → K)}
    {answered : List (List K)} (solving : Solving node wiring before answered memory)
    (values : Nat → K) : ∃ answer after, turn node memory values = some (answer, after) ∧
      Solving node wiring (before ++ [values]) (answered ++ [answer]) after := by
  obtain ⟨ready, ys, singles, aligned⟩ := solving
  obtain ⟨after, turned, same, stepped⟩ := diffEq_turn table ready values
  have leading : wiring.equation.den 0 ≠ 0 := beq_eq_false_iff_ne.mp ready.leading
  let fed := memory.poke wiring.source values
  have sample : fed.cells (.signal wiring.source 0) = values 0 := memory.poke_signal _ 0 values
  -- feeding the input touches no history
  have computed : wiring.value fed = wiring.equation.next
      (shifted (values 0) (wiring.recent memory)) (wiring.past memory) := by
    rw [wiring.value_next, sample]
    rfl
  have recent_moved : ∀ i < wiring.equation.numOrder,
      wiring.recent after i = shifted (values 0) (wiring.recent memory) i := by
    intro i below
    rw [← sample]
    exact stepped.inputHist i below
  have past_moved : ∀ i < wiring.equation.denOrder - 1,
      wiring.past after i = shifted (wiring.value fed) (wiring.past memory) i :=
    stepped.outputHist
  refine ⟨[wiring.value fed], after, turned, ready.congr same, ys ++ [wiring.value fed], ?_, ?_⟩
  · rw [List.map_append, singles]
    rfl
  · rw [List.map_append]
    exact aligned.advance leading computed recent_moved past_moved

/-- From zeroed histories, `den[0] * y[k]` is the feedforward sum over the
inputs up to now less the feedback sum over the outputs before. -/
theorem diffEq_law {param : ParamBlock K} {state : StateBlock} {num den : Nat → K}
    (table : node.ops = some .diffEq) (valid : diffEqValidate (some node) memory = some .ok)
    (parameter : node.param = some param) (stateBlock : node.state = some state)
    (numerator : param.diffEq.num = some num) (denominator : param.diffEq.den = some den)
    (zeroed : Zeroed param.diffEq state.diffEq memory) (xs : List K) :
    ∃ ys after, (turn node).run memory (xs.map fun x _ => x) =
        some (ys.map fun y => [y], after) ∧ ys.length = xs.length ∧ ∀ k < xs.length,
          den 0 * sampleAt ys k =
            ∑ i ∈ Finset.range param.diffEq.numOrder.toNat, num i * sampleAt xs (k - i) -
              ∑ j ∈ Finset.Ico 1 param.diffEq.denOrder.toNat, den j * sampleAt ys (k - j) := by
  obtain ⟨wiring, ready⟩ := diffEqValidate_ok.mp valid
  obtain ⟨recent_zero, past_zero⟩ := ready.blocks_zero parameter stateBlock zeroed
  have start := solving_start ready recent_zero past_zero
  obtain ⟨param', parameter', coefficients⟩ := ready.parameter
  cases parameter.symm.trans parameter'
  rw [coefficients] at numerator denominator ⊢
  cases numerator
  cases denominator
  obtain ⟨answers, after, ran, -, ys, singles, aligned⟩ :=
    Machine.run_history (fun _ _ _ solving => solving.advance table) [] [] start
      (xs.map fun x _ => x)
  have samples : ([] ++ xs.map fun x (_ : Nat) => x).map (fun values : Nat → K => values 0) = xs := by
    rw [List.nil_append, List.map_map]
    exact List.map_id xs
  rw [samples] at aligned
  refine ⟨ys, after, ?_, aligned.satisfies.length, aligned.satisfies.law⟩
  rw [ran, ← singles]
  rfl

/-- `y[k] = x[k] - y[k-1]`. -/
def alternatingParam : ParamBlock ℚ := ⟨⟨0⟩, ⟨0⟩, ⟨some fun _ => 1, some fun _ => 1, 1, 2⟩⟩

def alternatingState : StateBlock := ⟨⟨none, 0⟩, ⟨some 0, some 0⟩⟩

def alternatingNode : Option (Node ℚ) :=
  builtNode .diffEq (some alternatingParam) (some alternatingState) 0

/-- At rest both signals and both histories are zero. -/
def atRest : Memory ℚ := ⟨fun i => scalarEdge (some i), fun _ => 0, []⟩

theorem diffEq_law_alternating : ∃ node, alternatingNode = some node ∧ ∃ ys after,
    (turn node).run atRest [fun _ => 1, fun _ => 2] = some (ys.map fun y => [y], after) ∧
      ys.length = 2 ∧ ∀ k < (2 : Nat), (1 : ℚ) * sampleAt ys k =
        ∑ i ∈ Finset.range 1, 1 * sampleAt [1, 2] (k - i) -
          ∑ j ∈ Finset.Ico (1 : Nat) 2, 1 * sampleAt ys (k - j) := by
  obtain ⟨node, built⟩ : ∃ node, alternatingNode = some node := ⟨_, rfl⟩
  have zeroed : Zeroed alternatingParam.diffEq alternatingState.diffEq atRest :=
    ⟨fun _ _ _ _ => rfl, fun _ _ _ _ => rfl⟩
  have table : node.ops = some .diffEq := by cases built; rfl
  have valid : diffEqValidate (some node) atRest = some .ok := by cases built; rfl
  have parameter : node.param = some alternatingParam := by cases built; rfl
  have stateBlock : node.state = some alternatingState := by cases built; rfl
  exact ⟨node, built, diffEq_law table valid parameter stateBlock rfl rfl zeroed [1, 2]⟩

end Simuless.Runtime
