import Mathlib.Tactic.Ring
import Simuless.Runtime.DiffEqLaw

/-! The dedicated operators and the general one.

An integrator adds up what a difference equation with one feedback term adds
up: what the one keeps as its accumulator is the last output of the other. A
gain is a difference equation without feedback.
-/

set_option autoImplicit false

namespace Simuless.Runtime

open Foundation

variable {K : Type} [Field K]

section
variable [DecidableEq K]

/-- A difference equation node that has these coefficients and zeroed histories. -/
structure EquationAtRest (node : Node K) (memory : Memory K) (num den : List K) : Prop where
  table : node.ops = some .diffEq
  valid : diffEqValidate (some node) memory = some .ok
  blocks : ∃ param state numerator denominator, node.param = some param ∧ node.state = some state ∧
    param.diffEq = ⟨some numerator, some denominator, num.length.toUInt8, den.length.toUInt8⟩ ∧
    (∀ i < num.length, num[i]? = some (numerator i)) ∧
    (∀ i < den.length, den[i]? = some (denominator i)) ∧ Zeroed param.diffEq state.diffEq memory

/-- An integrator node for one element whose accumulator is zero. -/
structure IntegratorAtRest (node : Node K) (memory : Memory K) : Prop where
  table : node.ops = some .integrator
  blocks : ∃ param state input output source target array,
    IntegratorReady node memory param state input output source target array ∧
      memory.count input = 1 ∧ memory.cells (.accumulator array 0) = 0

/-- A gain node for one element with this factor. -/
structure ScalarGain (node : Node K) (memory : Memory K) (k : K) : Prop where
  table : node.ops = some .gain
  blocks : ∃ param input output source target,
    GainReady node memory param input output source target ∧
      memory.count input = 1 ∧ param.gain.k = k

/-- On every input sequence both nodes step successfully, with the same outputs. -/
def AgreeOnRuns (left : Node K) (before : Memory K) (right : Node K) (before' : Memory K) : Prop :=
  ∀ us : List (Nat → K), ∃ answers after after',
    (turn left).run before us = some (answers, after) ∧
      (turn right).run before' us = some (answers, after')

/-- The wiring of an equation at rest has its coefficients, and its histories are zero. -/
theorem EquationAtRest.wired {node : Node K} {memory : Memory K} {num den : List K}
    (rest : EquationAtRest node memory num den) : ∃ wiring, DiffEqReady node memory wiring ∧
      wiring.numOrder = num.length.toUInt8 ∧ wiring.denOrder = den.length.toUInt8 ∧
      (∀ i < num.length, num[i]? = some (wiring.num i)) ∧
      (∀ i < den.length, den[i]? = some (wiring.den i)) ∧
      ∀ i < wiring.denOrder.toNat - 1, wiring.past memory i = 0 := by
  obtain ⟨table, valid, param, state, numerator, denominator, parameter, stateBlock, coefficients,
    nums, dens, zeroed⟩ := rest
  obtain ⟨wiring, ready⟩ := diffEqValidate_ok.mp valid
  have zero := (ready.blocks_zero parameter stateBlock zeroed).2
  obtain ⟨param', parameter', coefficients'⟩ := ready.parameter
  cases parameter.symm.trans parameter'
  rw [coefficients] at coefficients'
  injection coefficients' with sameNum sameDen numOrder denOrder
  cases sameNum
  cases sameDen
  exact ⟨wiring, ready, numOrder.symm, denOrder.symm, nums, dens, zero⟩

end

namespace DiffEqWiring

variable {wiring : DiffEqWiring K} {memory : Memory K}

/-- With one feedforward term and no feedback the output is a multiple of the input. -/
theorem value_gain (numOrder : wiring.numOrder = 1) (denOrder : wiring.denOrder = 1)
    (leading : wiring.den 0 = 1) :
    wiring.value memory = wiring.num 0 * memory.cells (.signal wiring.source 0) := by
  simp [value, forward, sample, numOrder, denOrder, leading]

/-- With the last output fed back in full the output accumulates. -/
theorem value_integrator (numOrder : wiring.numOrder = 1) (denOrder : wiring.denOrder = 2)
    (leading : wiring.den 0 = 1) (feedback : wiring.den 1 = -1) : wiring.value memory =
      wiring.past memory 0 + memory.cells (.signal wiring.source 0) * wiring.num 0 := by
  simp [value, forward, sample, past, numOrder, denOrder, leading, feedback]
  ring

end DiffEqWiring

section
variable [DecidableEq K] {node equation : Node K} {memory other : Memory K}

theorem integrator_agrees (integrator : IntegratorAtRest node memory)
    (rest : EquationAtRest equation other [node.dt] [1, -1]) :
    AgreeOnRuns node memory equation other := by
  obtain ⟨table, param, state, input, output, source, target, array, ready, single, accumulator⟩ :=
    integrator
  obtain ⟨wiring, ready', numOrder, denOrder, nums, dens, zero⟩ := rest.wired
  change wiring.denOrder = 2 at denOrder
  have factor : wiring.num 0 = node.dt := by simpa using (nums 0 Nat.one_pos).symm
  have leading : wiring.den 0 = 1 := by simpa using (dens 0 Nat.two_pos).symm
  have feedback : wiring.den 1 = -1 := by simpa using (dens 1 Nat.one_lt_two).symm
  -- the accumulator is the last output of the equation
  let related (left right : Memory K) : Prop := left.edges = memory.edges ∧ right.edges = other.edges ∧
    left.cells (.accumulator array 0) = wiring.past right 0
  have start : related memory other := by
    refine ⟨rfl, rfl, accumulator.trans (zero 0 ?_).symm⟩
    rw [denOrder]
    decide
  have step (left right : Memory K) (alike : related left right) (values : Nat → K) :
      ∃ answer left' right', turn node left values = some (answer, left') ∧
        turn equation right values = some (answer, right') ∧ related left' right' := by
    obtain ⟨edges, edges', last⟩ := alike
    obtain ⟨left', turned, kept, added⟩ := integrator_turn table (ready.congr edges) values
    obtain ⟨right', turned', kept', stepped⟩ := diffEq_turn rest.table (ready'.congr edges') values
    have count : left.count input = 1 := (Memory.count_congr edges input).trans single
    rw [count] at turned added
    have answer : wiring.value (right.poke wiring.source values) =
        left.cells (.accumulator array 0) + values 0 * node.dt := by
      rw [wiring.value_integrator numOrder denOrder leading feedback, factor, last, right.poke_signal]
      rfl
    rw [answer] at turned'
    refine ⟨_, left', right', turned, turned', kept.trans edges, kept'.trans edges', ?_⟩
    have shown := stepped.outputHist 0 (by rw [denOrder]; decide)
    rw [if_pos rfl, answer] at shown
    rw [added 0 Nat.one_pos]
    exact shown.symm
  intro us
  obtain ⟨answers, after, after', ran, ran', -⟩ := Machine.run_together step start us
  exact ⟨answers, after, after', ran, ran'⟩

theorem gain_agrees {k : K} (gain : ScalarGain node memory k)
    (rest : EquationAtRest equation other [k] [1]) : AgreeOnRuns node memory equation other := by
  obtain ⟨table, param, input, output, source, target, ready, single, same⟩ := gain
  obtain ⟨wiring, ready', numOrder, denOrder, nums, dens, -⟩ := rest.wired
  have factor : wiring.num 0 = k := by simpa using (nums 0 Nat.one_pos).symm
  have leading : wiring.den 0 = 1 := by simpa using (dens 0 Nat.one_pos).symm
  let related (left right : Memory K) : Prop := left.edges = memory.edges ∧ right.edges = other.edges
  have step (left right : Memory K) (alike : related left right) (values : Nat → K) :
      ∃ answer left' right', turn node left values = some (answer, left') ∧
        turn equation right values = some (answer, right') ∧ related left' right' := by
    obtain ⟨edges, edges'⟩ := alike
    obtain ⟨left', turned, kept⟩ := gain_turn table (ready.congr edges) values
    obtain ⟨right', turned', kept', -⟩ := diffEq_turn rest.table (ready'.congr edges') values
    have count : left.count input = 1 := (Memory.count_congr edges input).trans single
    rw [count] at turned
    have answer : wiring.value (right.poke wiring.source values) = param.gain.k * values 0 := by
      rw [wiring.value_gain numOrder denOrder leading, factor, same, right.poke_signal]
    rw [answer] at turned'
    exact ⟨_, left', right', turned, turned', kept.trans edges, kept'.trans edges'⟩
  intro us
  obtain ⟨answers, after, after', ran, ran', -⟩ := Machine.run_together step ⟨rfl, rfl⟩ us
  exact ⟨answers, after, after', ran, ran'⟩

end

/-- An integrator answers as the equation with coefficients `{dt}` and `{1, -1}`, a
gain as the equation with coefficients `{k}` and `{1}`. -/
theorem dedicated_agree [DecidableEq K] :
    (∀ (node equation : Node K) (memory other : Memory K), IntegratorAtRest node memory →
      EquationAtRest equation other [node.dt] [1, -1] → AgreeOnRuns node memory equation other) ∧
    ∀ (node equation : Node K) (memory other : Memory K) (k : K), ScalarGain node memory k →
      EquationAtRest equation other [k] [1] → AgreeOnRuns node memory equation other :=
  ⟨fun _ _ _ _ => integrator_agrees, fun _ _ _ _ _ => gain_agrees⟩

/-- An integrator of one accumulator that steps by a half, and a gain of a half. -/
def halfIntegrator : Option (Node ℚ) :=
  builtNode .integrator (some ⟨⟨0⟩, ⟨0⟩, ⟨none, none, 0, 0⟩⟩) (some ⟨⟨some 0, 1⟩, ⟨none, none⟩⟩) (1 / 2)

def halfGain : Option (Node ℚ) :=
  builtNode .gain (some ⟨⟨1 / 2⟩, ⟨0⟩, ⟨none, none, 0, 0⟩⟩) none 0

/-- The equation with one half before the input and this many coefficients behind. -/
def halfEquation (denOrder : UInt8) : Option (Node ℚ) :=
  builtNode .diffEq (some ⟨⟨0⟩, ⟨0⟩,
    ⟨some fun _ => 1 / 2, some fun i => if i = 0 then 1 else -1, 1, denOrder⟩⟩) (some alternatingState) 0

theorem halves_agree : ∃ integrator gain recursive direct, halfIntegrator = some integrator ∧
    halfGain = some gain ∧ halfEquation 2 = some recursive ∧ halfEquation 1 = some direct ∧
      AgreeOnRuns integrator atRest recursive atRest ∧ AgreeOnRuns gain atRest direct atRest := by
  have recursive : EquationAtRest ((halfEquation 2).get rfl) atRest [1 / 2] [1, -1] := by
    refine ⟨rfl, rfl, _, _, _, _, rfl, rfl, rfl, ?_, ?_, fun _ _ _ _ => rfl, fun _ _ _ _ => rfl⟩
    · intro i below
      obtain rfl : i = 0 := Nat.lt_one_iff.mp below
      rfl
    · intro i below
      obtain rfl | rfl : i = 0 ∨ i = 1 := by
        change i < 2 at below
        omega
      · rfl
      · rfl
  have direct : EquationAtRest ((halfEquation 1).get rfl) atRest [1 / 2] [1] := by
    refine ⟨rfl, rfl, _, _, _, _, rfl, rfl, rfl, ?_, ?_, fun _ _ _ _ => rfl, fun _ _ _ _ => rfl⟩
    · intro i below
      obtain rfl : i = 0 := Nat.lt_one_iff.mp below
      rfl
    · intro i below
      obtain rfl : i = 0 := Nat.lt_one_iff.mp below
      rfl
  have integrator : IntegratorAtRest (halfIntegrator.get rfl) atRest := by
    refine ⟨rfl, _, _, 0, 1, 0, 1, 0, ⟨⟨⟨rfl, rfl⟩, rfl, rfl, rfl, rfl⟩, by decide, rfl, rfl, rfl⟩, ?_, rfl⟩
    decide
  have gain : ScalarGain (halfGain.get rfl) atRest (1 / 2) :=
    ⟨rfl, _, 0, 1, 0, 1, ⟨⟨⟨rfl, rfl⟩, rfl, rfl, rfl, rfl⟩, rfl⟩, by decide, rfl⟩
  exact ⟨_, _, _, _, rfl, rfl, rfl, rfl, dedicated_agree.1 _ _ _ _ integrator recursive,
    dedicated_agree.2 _ _ _ _ _ gain direct⟩

end Simuless.Runtime
