import Simuless.Runtime.NodeApi

/-! What an edge remembers from before its initialisation.

Initialising sets every field of an edge but the rank, and binding a signal
leaves the rank alone as well. Operators compare the rank and copy as many
dimensions as it says.
-/

set_option autoImplicit false

namespace Simuless.Runtime

/-- The return value and the edge afterwards. -/
def edgeInit (edge : Option Edge) : Int × Option Edge :=
  match edge with
  | none => (-1, none)
  | some edge =>
      (0, some { edge with
        signal := none
        type := .float32
        shape := fun _ => 1
        timestampUs := 0
        sequence := 0 })

def edgeSignalBind (edge : Option Edge) (signal : Option Nat) (type : DType) : Int × Option Edge :=
  match edge, signal with
  | some edge, some signal => (0, some { edge with signal := some signal, type })
  | _, _ => (-1, edge)

/-- What a caller passes to bind and assigns to the shape; `none` leaves a dimension alone. -/
structure Setup where
  signal : Option Nat
  type : DType
  dimensions : Fin 4 → Option UInt16

/-- An edge with these contents is initialised, bound and given its shape. -/
def Setup.edge (setup : Setup) (before : Edge) : Option Edge := do
  let bound ← (edgeSignalBind (edgeInit (some before)).2 setup.signal setup.type).2
  return { bound with shape := fun i => (setup.dimensions i).getD (bound.shape i) }

section
variable {Value : Type} [Zero Value] [Add Value] [Sub Value] [Mul Value] [Div Value] [BEq Value]

/-- The code of a call and the edges it leaves. -/
def observed (result : Option (Int × Memory Value)) : Option (Int × (Nat → Edge)) :=
  result.map fun (code, memory) => (code, memory.edges)

/-- A node answers alike on two memories and leaves the same edges. -/
structure Alike (node : Node Value) (left right : Memory Value) : Prop where
  validate : nodeValidate (some node) left = nodeValidate (some node) right
  inferShape : observed (nodeInferShape (some node) left) = observed (nodeInferShape (some node) right)
  step : observed (nodeStep (some node) left) = observed (nodeStep (some node) right)

end

/-- What the two edges held before cannot be told from them after the same setup. -/
structure Erased (Value : Type) [Zero Value] [Add Value] [Sub Value] [Mul Value] [Div Value] [BEq Value]
    (first second : Edge) : Prop where
  same : ∀ setup : Setup, setup.edge first = setup.edge second
  alike : ∀ (setup : Setup) (left right : Edge), setup.edge first = some left →
    setup.edge second = some right → ∀ (node : Node Value) (memory : Memory Value) (number : Nat),
      Alike node (memory.setEdge number left) (memory.setEdge number right)

/-- The previous rank is all that a setup leaves. -/
theorem Setup.edge_fields (setup : Setup) (before : Edge) : setup.edge before = some {
    signal := setup.signal
    type := if setup.signal.isSome then setup.type else .float32
    rank := before.rank
    shape := fun i => (setup.dimensions i).getD 1
    timestampUs := 0
    sequence := 0 } := by
  obtain ⟨signal, type, dimensions⟩ := setup
  cases signal <;> rfl

theorem Setup.same_ranks {setup : Setup} {first second : Edge}
    (same : setup.edge first = setup.edge second) : first.rank = second.rank := by
  rw [Setup.edge_fields, Setup.edge_fields, Option.some.injEq, Edge.mk.injEq] at same
  obtain ⟨-, -, ranks, -⟩ := same
  exact ranks

/-- Initialising erases the past of two edges exactly when their ranks were the same. -/
theorem edgeInit_erases_iff (Value : Type) [Zero Value] [Add Value] [Sub Value] [Mul Value] [Div Value]
    [BEq Value] (first second : Edge) : Erased Value first second ↔ first.rank = second.rank := by
  constructor
  · intro erased
    exact Setup.same_ranks (erased.same ⟨none, .float32, fun _ => none⟩)
  · intro ranks
    have same (setup : Setup) : setup.edge first = setup.edge second := by
      rw [Setup.edge_fields, Setup.edge_fields, ranks]
    refine ⟨same, ?_⟩
    intro setup left right made made' node memory number
    rw [same setup, made'] at made
    cases made
    exact ⟨rfl, rfl, rfl⟩

/-- The caller binds a signal and leaves the scalar shape. -/
def scalarSetup : Setup := ⟨some 0, .float32, fun _ => none⟩

/-- On an edge that was a matrix before, the integrator refuses what it accepts on
one that was a scalar. -/
theorem edgeInit_keeps_rank : ∃ node left right,
    let memory : Memory Int := ⟨fun i => scalarEdge (some i), fun _ => 0, []⟩
    let matrix : Edge := { scalarEdge none with rank := 2 }
    integratorNode = some node ∧ scalarSetup.edge (scalarEdge none) = some left ∧
      scalarSetup.edge matrix = some right ∧ left ≠ right ∧
      nodeValidate (some node) (memory.setEdge 0 left) = some 0 ∧
      nodeValidate (some node) (memory.setEdge 0 right) = some (-6) ∧
      ¬ Erased Int (scalarEdge none) matrix := by
  refine ⟨_, _, _, rfl, rfl, rfl, ?_, rfl, rfl, ?_⟩
  · intro same
    exact absurd (congrArg Edge.rank same) (by decide)
  · intro erased
    have ranks := Setup.same_ranks (erased.same scalarSetup)
    exact absurd ranks (by decide)

end Simuless.Runtime
