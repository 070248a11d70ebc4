import Mathlib.Algebra.BigOperators.Group.List.Basic
import Mathlib.Algebra.Field.Rat
import Mathlib.Tactic.Ring
import Simuless.Runtime.Run

/-! The integrator integrates from what its accumulators hold.

Over a field, in place of floats, the outputs after some steps are the sums of
the inputs times the step size, added to what stood in the accumulators when
the node was created. Neither creating nor initialising the node puts the
initial value of the parameter block there.
-/

set_option autoImplicit false

namespace Simuless.Runtime

open Foundation

section
variable {Value : Type} [Zero Value] [Add Value] [Sub Value] [Mul Value] [Div Value] [BEq Value]

/-- Create a node over whatever memory it was given and bind one edge on each
side; every call must return success. -/
def assemble (blank : Node Value) (id : UInt16) (type : OpType) (param : ParamBlock Value)
    (state : StateBlock) (dt : Value) (input output : Nat) : Option (Node Value) :=
  let (created, node) := nodeCreate (some blank) id type (some param) (some state) dt
  let (boundIn, node) := nodeBindInput node (some input) 0
  let (boundOut, node) := nodeBindOutput node (some output) 0
  if created = 0 ∧ boundIn = 0 ∧ boundOut = 0 then node else none

end

/-- An edge for `length` floats, of rank 1. -/
structure IsVector (edge : Edge) (signal : Nat) (length : UInt16) : Prop where
  signal : edge.signal = some signal
  type : edge.type = .float32
  rank : edge.rank = 1
  shape : ∀ i, edge.shape i = if i = 0 then length else 1

theorem IsVector.count {edge : Edge} {signal : Nat} {length : UInt16}
    (vector : IsVector edge signal length) :
    (dtypeElementCount (some edge)).toNat = length.toNat := by
  have dimensions : List.finRange 4 = [0, 1, 2, 3] := rfl
  simp [dtypeElementCount, dimensions, vector.shape]

variable {K : Type} [Field K]

/-- What these inputs have added up to, element by element. -/
def integral (dt : K) (us : List (Nat → K)) (i : Nat) : K := dt * (us.map fun values => values i).sum

/-- Adding up the inputs one by one adds their integral. -/
theorem foldl_integral (dt start : K) (us : List (Nat → K)) (i : Nat) :
    us.foldl (fun x values => x + values i * dt) start = start + integral dt us i := by
  induction us generalizing start with
  | nil => simp [integral]
  | cons values rest ih =>
    rw [List.foldl_cons, ih]
    simp only [integral, List.map_cons, List.sum_cons]
    ring

variable {node : Node K} {memory : Memory K} {param : ParamBlock K} {state : StateBlock}
  {input output source target array : Nat}

/-- After these inputs the accumulators have moved on from where they were by the
integral, and the last step has put them out. -/
structure Integrated (node : Node K) (start : Memory K) (input array : Nat) (us : List (Nat → K))
    (reached : Memory K) : Prop where
  edges : reached.edges = start.edges
  accumulators : ∀ i < start.count input, reached.cells (.accumulator array i) =
    start.cells (.accumulator array i) + integral node.dt us i
  answered : us ≠ [] → outputs node reached =
    (List.range (start.count input)).map fun i => reached.cells (.accumulator array i)

variable [DecidableEq K]

/-- Every run has a result and ends on the integral of its inputs. -/
theorem integrator_integrates (table : node.ops = some .integrator)
    (ready : IntegratorReady node memory param state input output source target array)
    (us : List (Nat → K)) : ∃ answers final, (turn node).run memory us = some (answers, final) ∧
      Integrated node memory input array us final := by
  obtain ⟨answers, final, ran, edges, taken, answered⟩ := integrator_run table ready us
  refine ⟨answers, final, ran, edges, ?_, answered⟩
  intro i below
  rw [taken i below, foldl_integral]

/-- Creating, binding and initialising succeed and leave memory alone. -/
theorem assemble_ready (blank : Node K) (id : UInt16) (dt : K) {length : UInt16}
    (inEdge : IsVector (memory.edges input) source length)
    (outEdge : IsVector (memory.edges output) target length)
    (accumulators : state.integrator.state = some array) :
    ∃ node, assemble blank id .integrator param state dt input output = some node ∧
      nodeInit (some node) memory = some (0, memory) ∧ node.ops = some .integrator ∧ node.dt = dt ∧
      IntegratorReady node memory param state input output source target array := by
  refine ⟨_, rfl, rfl, rfl, rfl, ?_⟩
  exact {
    bound := ⟨rfl, rfl⟩
    inSignal := inEdge.signal
    outSignal := outEdge.signal
    inType := inEdge.type
    outType := outEdge.type
    ranks := ⟨inEdge.rank.le, outEdge.rank.le⟩
    parameter := rfl
    stateBlock := rfl
    accumulators := accumulators }

/-- After creating, binding and initialising an integrator, `k ≥ 1` steps give
`x0 + dt * (u_1 + ... + u_k)` if and only if the accumulators held `x0` before. -/
theorem integrator_law_iff (blank : Node K) (id : UInt16) (dt : K) (length : UInt16)
    (inEdge : IsVector (memory.edges input) source length)
    (outEdge : IsVector (memory.edges output) target length)
    (accumulators : state.integrator.state = some array) :
    ∃ node started, assemble blank id .integrator param state dt input output = some node ∧
      nodeInit (some node) memory = some (0, started) ∧
      ∀ us, us ≠ [] → ∃ answers final, (turn node).run started us = some (answers, final) ∧
        (outputs node final = (List.range length.toNat).map (fun i =>
            param.integrator.x0 + dt * (us.map fun values => values i).sum) ↔
          ∀ i < length.toNat, memory.cells (.accumulator array i) = param.integrator.x0) := by
  obtain ⟨node, assembled, initialised, table, step, ready⟩ :=
    assemble_ready blank id dt inEdge outEdge accumulators
  have count : memory.count input = length.toNat := inEdge.count
  refine ⟨node, memory, assembled, initialised, ?_⟩
  intro us nonempty
  obtain ⟨answers, final, ran, integrated⟩ := integrator_integrates table ready us
  refine ⟨answers, final, ran, ?_⟩
  rw [integrated.answered nonempty, count, List.map_inj_left]
  -- the integral is the same on both sides
  have same (i : Nat) (below : i < length.toNat) : final.cells (.accumulator array i) =
      param.integrator.x0 + dt * (us.map fun values => values i).sum ↔
        memory.cells (.accumulator array i) = param.integrator.x0 := by
    rw [integrated.accumulators i (count ▸ below), step]
    exact add_left_inj _
  constructor
  · intro law i below
    exact (same i below).mp (law i (List.mem_range.mpr below))
  · intro held i member
    exact (same i (List.mem_range.mp member)).mpr (held i (List.mem_range.mp member))

/-! A node not yet created and its parameters. -/

def uncreated : Node ℚ := ⟨0, none, fun _ => none, fun _ => none, none, none, 0, 0⟩

def startingAt (x0 : ℚ) : ParamBlock ℚ := ⟨⟨0⟩, ⟨x0⟩, ⟨none, none, 0, 0⟩⟩

/-! Two elements, over accumulators that hold one value. -/

def twoLaneEdge (signal : Nat) : Edge :=
  ⟨some signal, .float32, 1, fun i => if i = 0 then 2 else 1, 0, 0⟩

theorem twoLaneEdge_vector (signal : Nat) : IsVector (twoLaneEdge signal) signal 2 where
  signal := rfl
  type := rfl
  rank := rfl
  shape := fun _ => rfl

def twoAccumulators : StateBlock := ⟨⟨some 0, 2⟩, ⟨none, none⟩⟩

def holding (value : ℚ) : Memory ℚ :=
  ⟨twoLaneEdge, fun | .accumulator _ _ => value | _ => 0, []⟩

theorem integrator_law_held : ∃ node started,
    assemble uncreated 1 .integrator (startingAt 3) twoAccumulators 1 0 1 = some node ∧
      nodeInit (some node) (holding 3) = some (0, started) ∧
      ∀ us, us ≠ [] → ∃ answers final, (turn node).run started us = some (answers, final) ∧
        outputs node final = (List.range 2).map fun i =>
          3 + 1 * (us.map fun values => values i).sum := by
  have inEdge : IsVector ((holding 3).edges 0) 0 2 := twoLaneEdge_vector 0
  have outEdge : IsVector ((holding 3).edges 1) 1 2 := twoLaneEdge_vector 1
  have array : twoAccumulators.integrator.state = some 0 := rfl
  obtain ⟨node, started, assembled, initialised, law⟩ : ∃ node started,
      assemble uncreated 1 .integrator (startingAt 3) twoAccumulators 1 0 1 = some node ∧ _ :=
    integrator_law_iff uncreated 1 1 2 inEdge outEdge array
  refine ⟨node, started, assembled, initialised, ?_⟩
  intro us nonempty
  obtain ⟨answers, final, ran, lawful⟩ := law us nonempty
  exact ⟨answers, final, ran, lawful.mpr fun _ _ => rfl⟩

/-! One element, over a memory of zeros. -/

def singleEdge (signal : Nat) : Edge := ⟨some signal, .float32, 1, fun _ => 1, 0, 0⟩

theorem singleEdge_vector (signal : Nat) : IsVector (singleEdge signal) signal 1 where
  signal := rfl
  type := rfl
  rank := rfl
  shape := fun _ => (ite_self _).symm

def oneAccumulator : StateBlock := ⟨⟨some 0, 1⟩, ⟨none, none⟩⟩

def zeroMemory : Memory ℚ := ⟨singleEdge, fun _ => 0, []⟩

/-- From `x0 = 1` over an accumulator of zero, one step on zero puts out zero. -/
theorem initial_value_ignored : ∃ node started answers final,
    assemble uncreated 1 .integrator (startingAt 1) oneAccumulator 1 0 1 = some node ∧
      nodeInit (some node) zeroMemory = some (0, started) ∧
      (turn node).run started [fun _ => 0] = some (answers, final) ∧
      outputs node final ≠ (List.range 1).map fun i =>
        1 + 1 * ([fun _ : Nat => (0 : ℚ)].map fun values => values i).sum := by
  have inEdge : IsVector (zeroMemory.edges 0) 0 1 := singleEdge_vector 0
  have outEdge : IsVector (zeroMemory.edges 1) 1 1 := singleEdge_vector 1
  have array : oneAccumulator.integrator.state = some 0 := rfl
  obtain ⟨node, assembled, initialised, table, -, ready⟩ :=
    assemble_ready uncreated 1 1 inEdge outEdge array
  obtain ⟨answers, final, ran, integrated⟩ := integrator_integrates table ready [fun _ => 0]
  refine ⟨node, zeroMemory, answers, final, assembled, initialised, ran, ?_⟩
  have kept : final.cells (.accumulator 0 0) = 0 := by
    rw [integrated.accumulators 0 (by decide)]
    simp [zeroMemory, integral]
  rw [integrated.answered (by simp)]
  simp [kept, show zeroMemory.count 0 = 1 from rfl]

end Simuless.Runtime
