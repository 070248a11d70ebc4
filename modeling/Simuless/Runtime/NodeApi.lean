import Simuless.Runtime.DiffEq
import Simuless.Runtime.Gain
import Simuless.Runtime.Integrator

/-! Callback tables and the node interface.

An operator's table may lack a callback; the interface then answers for it.
Codes of the interface are integers: -1 when there is nothing to call, else
the code the callback returns.
-/

set_option autoImplicit false

namespace Simuless.Runtime

variable {Value : Type}

/-- The shared operator callbacks; `none` is a null function pointer. -/
structure NodeOps (Value : Type) where
  opType : OpType
  validate : Option (Option (Node Value) → Memory Value → Option NodeErr)
  inferShape : Option (Option (Node Value) → Memory Value → Option (NodeErr × Memory Value))
  init : Option (Option (Node Value) → Memory Value → Option (NodeErr × Memory Value))
  step : Option (Option (Node Value) → Memory Value → Option (NodeErr × Memory Value))
  reset : Option (Option (Node Value) → Memory Value → Option (Memory Value))

section
variable [Zero Value] [Add Value] [Sub Value] [Mul Value] [Div Value] [BEq Value]

def gainOps : NodeOps Value where
  opType := .gain
  validate := some gainValidate
  inferShape := some gainInferShape
  init := none
  step := some gainStep
  reset := none

def diffEqOps : NodeOps Value where
  opType := .diffEq
  validate := some diffEqValidate
  inferShape := some diffEqInferShape
  init := none
  step := some diffEqStep
  reset := some diffEqReset

def integratorOps : NodeOps Value where
  opType := .integrator
  validate := some integratorValidate
  inferShape := some integratorInferShape
  init := none
  step := some integratorStep
  reset := none

def OpsRef.deref : OpsRef → NodeOps Value
  | .gain => gainOps
  | .diffEq => diffEqOps
  | .integrator => integratorOps

def opGetOps : OpType → Option OpsRef
  | .gain => some .gain
  | .diffEq => some .diffEq
  | .integrator => some .integrator
  | _ => none

/-- The return value and the node afterwards. -/
def nodeCreate (node : Option (Node Value)) (id : UInt16) (type : OpType)
    (param : Option (ParamBlock Value)) (state : Option StateBlock) (dt : Value) :
    Int × Option (Node Value) :=
  match node with
  | none => (-1, none)
  | some node =>
      match opGetOps type with
      | none => (-1, some node)
      | some ops =>
          (0, some {
            id := id
            ops := some ops
            inputs := fun _ => none
            outputs := fun _ => none
            param := param
            state := state
            prevTimestampUs := 0
            dt := dt })

def nodeBindInput (node : Option (Node Value)) (edge : Option Nat) (slot : UInt8) :
    Int × Option (Node Value) :=
  match node, edge with
  | some node, some edge =>
      -- the slot must be one of the array
      if nodeMaxInputs ≤ slot.toNat then (-1, some node)
      else (0, some { node with
        inputs := fun i => if i.val = slot.toNat then some edge else node.inputs i })
  | _, _ => (-1, node)

def nodeBindOutput (node : Option (Node Value)) (edge : Option Nat) (slot : UInt8) :
    Int × Option (Node Value) :=
  match node, edge with
  | some node, some edge =>
      if nodeMaxOutputs ≤ slot.toNat then (-1, some node)
      else (0, some { node with
        outputs := fun i => if i.val = slot.toNat then some edge else node.outputs i })
  | _, _ => (-1, node)

/-- The table a node pointer leads to. -/
def opsOf (node : Option (Node Value)) : Option (NodeOps Value) := do
  let node ← node
  let ops ← node.ops
  return ops.deref

def nodeValidate (node : Option (Node Value)) (memory : Memory Value) : Option Int :=
  match opsOf node with
  | none => some (-1)
  | some ops =>
      match ops.validate with
      | none => some 0
      | some validate => (validate node memory).map NodeErr.code

/-- The code of a callback that may change memory. -/
def called (result : Option (NodeErr × Memory Value)) : Option (Int × Memory Value) :=
  result.map fun (err, memory) => (err.code, memory)

def nodeInferShape (node : Option (Node Value)) (memory : Memory Value) :
    Option (Int × Memory Value) :=
  match opsOf node with
  | none => some (-1, memory)
  | some ops =>
      match ops.inferShape with
      | none => some (0, memory)
      | some inferShape => called (inferShape node memory)

def nodeInit (node : Option (Node Value)) (memory : Memory Value) : Option (Int × Memory Value) :=
  match opsOf node with
  | none => some (-1, memory)
  | some ops =>
      match ops.init with
      | none => some (0, memory)
      | some init => called (init node memory)

def nodeStep (node : Option (Node Value)) (memory : Memory Value) : Option (Int × Memory Value) :=
  match opsOf node with
  | none => some (-1, memory)
  | some ops =>
      match ops.step with
      | none => some (-1, memory)
      | some step => called (step node memory)

def nodeReset (node : Option (Node Value)) (memory : Memory Value) : Option (Memory Value) :=
  match opsOf node with
  | none => some memory
  | some ops =>
      match ops.reset with
      | none => some memory
      | some reset => reset node memory

/-! What the interface calls. -/

variable {node : Node Value} {memory after : Memory Value}

omit [Zero Value] [Add Value] [Sub Value] [Mul Value] [Div Value] [BEq Value] in
theorem called_ok {result : Option (NodeErr × Memory Value)} :
    called result = some (0, after) ↔ result = some (.ok, after) := by
  rw [called, Option.map_eq_some_iff]
  constructor
  · rintro ⟨⟨err, memory⟩, same, code⟩
    rw [Prod.mk.injEq, NodeErr.code_zero] at code
    rw [same, code.1, code.2]
  · intro same
    exact ⟨(.ok, after), same, rfl⟩

theorem nodeValidate_table {ops : OpsRef} (table : node.ops = some ops) :
    nodeValidate (some node) memory = match ops with
      | .gain => (gainValidate (some node) memory).map NodeErr.code
      | .diffEq => (diffEqValidate (some node) memory).map NodeErr.code
      | .integrator => (integratorValidate (some node) memory).map NodeErr.code := by
  simp only [nodeValidate, opsOf, table, Option.bind_eq_bind, Option.bind_some]
  cases ops <;> rfl

theorem nodeStep_table {ops : OpsRef} (table : node.ops = some ops) :
    nodeStep (some node) memory = match ops with
      | .gain => called (gainStep (some node) memory)
      | .diffEq => called (diffEqStep (some node) memory)
      | .integrator => called (integratorStep (some node) memory) := by
  simp only [nodeStep, opsOf, table, Option.bind_eq_bind, Option.bind_some]
  cases ops <;> rfl

theorem nodeReset_table {ops : OpsRef} (table : node.ops = some ops) :
    nodeReset (some node) memory = match ops with
      | .gain => some memory
      | .diffEq => diffEqReset (some node) memory
      | .integrator => some memory := by
  simp only [nodeReset, opsOf, table, Option.bind_eq_bind, Option.bind_some]
  cases ops <;> rfl

/-- Only a node with a table can step. -/
theorem nodeStep_ops (stepped : nodeStep (some node) memory = some (0, after)) :
    ∃ ops, node.ops = some ops := by
  cases table : node.ops with
  | some ops => exact ⟨ops, rfl⟩
  | none =>
    simp only [nodeStep, opsOf, table, Option.bind_eq_bind, Option.bind_some, Option.bind_none,
      Option.some.injEq, Prod.mk.injEq] at stepped
    exact absurd stepped.1 (by decide)

end

/-- Small nodes to instantiate results at: an edge of one float, and the node a
caller gets from creating it and binding edges 0 and 1. -/
def scalarEdge (signal : Option Nat) : Edge := ⟨signal, .float32, 0, fun _ => 1, 0, 0⟩

def builtNode [Zero Value] (type : OpType) (param : Option (ParamBlock Value))
    (state : Option StateBlock) (dt : Value) : Option (Node Value) :=
  let blank : Node Value := ⟨0, none, fun _ => none, fun _ => none, none, none, 0, 0⟩
  let created := (nodeCreate (some blank) 1 type param state dt).2
  (nodeBindOutput (nodeBindInput created (some 0) 0).2 (some 1) 0).2

/-- A gain node on two float edges. -/
def gainNode : Option (Node Int) :=
  builtNode .gain (some ⟨⟨2⟩, ⟨0⟩, ⟨none, none, 0, 0⟩⟩) none 0

/-- An integrator with two accumulators that starts at zero and steps by one. -/
def integratorNode : Option (Node Int) :=
  builtNode .integrator (some ⟨⟨0⟩, ⟨0⟩, ⟨none, none, 0, 0⟩⟩) (some ⟨⟨some 0, 2⟩, ⟨none, none⟩⟩) 1

end Simuless.Runtime
