import Simuless.Runtime.Memory

/-! Node instances.

A node refers to its operator's callback table, to its edges and to two blocks
the operator casts to its own parameter and state structs. A block can be read
as any of these structs; a null pointer is `none`, and a run that dereferences
one has no result.
-/

set_option autoImplicit false

namespace Simuless.Runtime

abbrev nodeMaxInputs : Nat := 8

abbrev nodeMaxOutputs : Nat := 8

instance : NeZero nodeMaxInputs := ⟨by decide⟩

instance : NeZero nodeMaxOutputs := ⟨by decide⟩

inductive NodeErr where
  | ok
  | nullPtr
  | inputMissing
  | outputMissing
  | paramNull
  | shapeMismatch
  | unsurppotedShape
  deriving DecidableEq

def NodeErr.code : NodeErr → Int
  | .ok => 0
  | .nullPtr => -1
  | .inputMissing => -2
  | .outputMissing => -3
  | .paramNull => -4
  | .shapeMismatch => -5
  | .unsurppotedShape => -6

/-- Every code but success is negative. -/
theorem NodeErr.code_neg {err : NodeErr} : err.code < 0 ↔ err ≠ .ok := by
  cases err <;> decide

theorem NodeErr.code_zero {err : NodeErr} : err.code = 0 ↔ err = .ok := by
  cases err <;> decide

inductive OpType where
  | nop
  | add
  | sub
  | mul
  | div
  | neg
  | abs
  | gt
  | lt
  | eq
  | min
  | max
  | gain
  | err
  | clamp
  | sat
  | sign
  | integrator
  | diffEq
  | pid
  | lpf
  | biquad
  | stateSpace
  | mux
  | demux
  | delay
  | zoh
  deriving DecidableEq

structure GainParam (Value : Type) where
  k : Value

structure IntegratorParam (Value : Type) where
  x0 : Value

structure IntegratorState where
  state : Option Nat
  dim : UInt32

structure DiffEqParam (Value : Type) where
  num : Option (Nat → Value)
  den : Option (Nat → Value)
  numOrder : UInt8
  denOrder : UInt8

structure DiffEqState where
  inputHist : Option Nat
  outputHist : Option Nat

/-- What a parameter pointer points to, under each cast. -/
structure ParamBlock (Value : Type) where
  gain : GainParam Value
  integrator : IntegratorParam Value
  diffEq : DiffEqParam Value

/-- What a state pointer points to, under each cast. -/
structure StateBlock where
  integrator : IntegratorState
  diffEq : DiffEqState

/-- The addresses of the shared callback tables. -/
inductive OpsRef where
  | gain
  | diffEq
  | integrator
  deriving DecidableEq

structure Node (Value : Type) where
  id : UInt16
  ops : Option OpsRef
  inputs : Fin nodeMaxInputs → Option Nat
  outputs : Fin nodeMaxOutputs → Option Nat
  param : Option (ParamBlock Value)
  state : Option StateBlock
  prevTimestampUs : UInt64
  dt : Value

variable {Value : Type}

/-- Input and output of a node are bound to edges with float signals. -/
structure Wired (node : Node Value) (memory : Memory Value) (input output source target : Nat) :
    Prop where
  bound : node.inputs 0 = some input ∧ node.outputs 0 = some output
  inSignal : (memory.edges input).signal = some source
  outSignal : (memory.edges output).signal = some target
  inType : (memory.edges input).type = .float32
  outType : (memory.edges output).type = .float32

/-- A result behind a check is reached only if the check does not return early. -/
theorem check_passed {Result : Type} {condition : Prop} [Decidable condition]
    {early result : Result} {rest : Option Result} (other : early ≠ result) :
    (if condition then pure early else rest) = some result ↔ ¬ condition ∧ rest = some result := by
  by_cases held : condition
  · simp [held, other]
  · simp [held]

/-- A step that validates its node first succeeds only behind a passed validation. -/
theorem validated {check : Option NodeErr} {memory after : Memory Value}
    {rest : Option (NodeErr × Memory Value)} :
    (check.bind fun ret => if ret.code < 0 then pure (ret, memory) else rest) = some (.ok, after) ↔
      check = some .ok ∧ rest = some (.ok, after) := by
  cases check with
  | none => simp
  | some ret =>
    rw [Option.bind_some]
    by_cases success : ret = .ok
    · subst success
      rw [if_neg (by decide)]
      exact (and_iff_right rfl).symm
    · rw [if_pos (NodeErr.code_neg.mpr success)]
      simp [success]

/-- The number of elements an element-wise step handles. -/
def Memory.count (memory : Memory Value) (edge : Nat) : Nat :=
  (dtypeElementCount (some (memory.edges edge))).toNat

end Simuless.Runtime
