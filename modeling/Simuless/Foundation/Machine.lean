/-! Runs of machines that answer every input with an output.

A machine may refuse an input; a run has a result if none of its steps refuses.
A run is described by a relation between all inputs so far, all outputs so far
and the state reached. Two runs are compared by a relation between their states.
-/

set_option autoImplicit false

namespace Simuless.Foundation

abbrev Machine (State Input Output : Type) := State → Input → Option (Output × State)

namespace Machine

variable {State Input Output : Type} (machine : Machine State Input Output)

def run : State → List Input → Option (List Output × State)
  | state, [] => some ([], state)
  | state, input :: rest => do
      let (output, state) ← machine state input
      let (outputs, state) ← run state rest
      return (output :: outputs, state)

/-- What the run answers. -/
def answers (state : State) (inputs : List Input) : Option (List Output) :=
  (machine.run state inputs).map Prod.fst

variable {machine}

theorem run_cons {state next : State} {input : Input} {output : Output}
    (stepped : machine state input = some (output, next)) (rest : List Input) :
    machine.run state (input :: rest) =
      (machine.run next rest).map fun (outputs, final) => (output :: outputs, final) := by
  simp only [run, stepped, Option.bind_eq_bind, Option.bind_some]
  cases machine.run next rest <;> rfl

theorem run_cons_refused {state : State} {input : Input} (refused : machine state input = none)
    (rest : List Input) : machine.run state (input :: rest) = none := by
  rw [run, refused]
  rfl

theorem answers_single {state next : State} {input : Input} {output : Output}
    (stepped : machine state input = some (output, next)) :
    machine.answers state [input] = some [output] := by
  rw [answers, run_cons stepped]
  rfl

/-- A relation that every step extends by its input and its output is extended
by a run, which then has a result. -/
theorem run_history {holds : List Input → List Output → State → Prop}
    (step : ∀ before answered state, holds before answered state → ∀ input, ∃ output next,
      machine state input = some (output, next) ∧
        holds (before ++ [input]) (answered ++ [output]) next)
    (before : List Input) (answered : List Output) {state : State}
    (start : holds before answered state) (inputs : List Input) : ∃ outputs final,
      machine.run state inputs = some (outputs, final) ∧
        holds (before ++ inputs) (answered ++ outputs) final := by
  induction inputs generalizing before answered state with
  | nil =>
    refine ⟨[], state, rfl, ?_⟩
    rw [List.append_nil, List.append_nil]
    exact start
  | cons input rest ih =>
    obtain ⟨output, next, stepped, further⟩ := step before answered state start input
    obtain ⟨outputs, final, ran, held⟩ := ih _ _ further
    refine ⟨output :: outputs, final, ?_, ?_⟩
    · rw [run_cons stepped, ran]
      rfl
    · rw [List.append_assoc, List.append_assoc] at held
      exact held

/-- An invariant of every step that answers holds after every run. -/
theorem run_invariant {holds : State → Prop}
    (step : ∀ state, holds state → ∀ input output next,
      machine state input = some (output, next) → holds next)
    {state final : State} (start : holds state) {inputs : List Input} {outputs : List Output}
    (ran : machine.run state inputs = some (outputs, final)) : holds final := by
  induction inputs generalizing state outputs with
  | nil =>
    cases ran
    exact start
  | cons input rest ih =>
    simp only [run, Option.bind_eq_bind, Option.bind_eq_some_iff] at ran
    obtain ⟨⟨output, next⟩, stepped, ⟨later, final'⟩, ran, same⟩ := ran
    cases same
    exact ih (step state start input output next stepped) ran

/-- Two machines whose states stay related answer alike, and both runs have a result. -/
theorem run_together {State' : Type} {machine' : Machine State' Input Output}
    {related : State → State' → Prop}
    (step : ∀ left right, related left right → ∀ input, ∃ output left' right',
      machine left input = some (output, left') ∧ machine' right input = some (output, right') ∧
        related left' right')
    {left : State} {right : State'} (start : related left right) (inputs : List Input) :
    ∃ outputs left' right', machine.run left inputs = some (outputs, left') ∧
      machine'.run right inputs = some (outputs, right') ∧ related left' right' := by
  induction inputs generalizing left right with
  | nil => exact ⟨[], left, right, rfl, rfl, start⟩
  | cons input rest ih =>
    obtain ⟨output, left', right', stepped, stepped', further⟩ := step left right start input
    obtain ⟨outputs, left'', right'', ran, ran', reached⟩ := ih further
    refine ⟨output :: outputs, left'', right'', ?_, ?_, reached⟩
    · rw [run_cons stepped, ran]
      rfl
    · rw [run_cons stepped', ran']
      rfl

/-- States that every step takes together, with the same answer, answer alike. -/
theorem answers_together {related : State → State → Prop}
    (step : ∀ left right, related left right → ∀ input, ∃ output left' right',
      machine left input = some (output, left') ∧ machine right input = some (output, right') ∧
        related left' right')
    {left right : State} (start : related left right) (inputs : List Input) :
    machine.answers left inputs = machine.answers right inputs := by
  obtain ⟨outputs, left', right', ran, ran', -⟩ := run_together step start inputs
  rw [answers, answers, ran, ran']
  rfl

theorem answers_refused {left right : State} (refused : ∀ input, machine left input = none)
    (refused' : ∀ input, machine right input = none) (inputs : List Input) :
    machine.answers left inputs = machine.answers right inputs := by
  cases inputs with
  | nil => rfl
  | cons input rest =>
    rw [answers, answers, run_cons_refused (refused input), run_cons_refused (refused' input)]

end Machine

end Simuless.Foundation
