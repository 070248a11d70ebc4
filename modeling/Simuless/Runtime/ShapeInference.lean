import Mathlib.Data.Fin.VecNotation
import Simuless.Runtime.NodeApi

/-! What shape inference leaves in the output edge.

Each operator copies type, rank and as many dimensions as the rank says, while
an edge always has four. The dimensions behind the rank stay as they were, so
the output edge has the shape of the input edge only if it had it there before.
-/

set_option autoImplicit false

namespace Simuless.Runtime

variable {Value : Type}

/-- An operator takes over the shape of this input edge. -/
def TakesOver (ops : OpsRef) (edge : Edge) : Prop :=
  match ops with
  | .gain => True
  | .integrator => edge.rank ≤ 1
  | .diffEq => dtypeElementCount (some edge) = 1

/-- The output edge describes the same elements as the input edge, and nothing
else has changed. -/
structure ShapeTaken (before after : Memory Value) (input output : Nat) : Prop where
  type : (after.edges output).type = (before.edges input).type
  rank : (after.edges output).rank = (before.edges input).rank
  shape : ∀ i, (after.edges output).shape i = (before.edges input).shape i
  count : dtypeElementCount (some (after.edges output)) = dtypeElementCount (some (before.edges input))
  input : after.edges input = before.edges input
  signal : (after.edges output).signal = (before.edges output).signal

/-- What a call of `smls_node_infer_shape` should do. -/
def InfersShape [Zero Value] [Add Value] [Sub Value] [Mul Value] [Div Value] [BEq Value]
    (node : Node Value) (memory : Memory Value) : Prop :=
  ∃ code after, nodeInferShape (some node) memory = some (code, after) ∧
    (code = 0 → ∃ input output, node.inputs 0 = some input ∧ node.outputs 0 = some output ∧
      ShapeTaken memory after input output) ∧
    (code < 0 → after.edges = memory.edges)

/-- The dimensions that the copy leaves out are those of the input already. -/
def TrailingAgree (node : Node Value) (memory : Memory Value) : Prop :=
  ∀ ops input output, node.ops = some ops → node.inputs 0 = some input →
    node.outputs 0 = some output → TakesOver ops (memory.edges input) →
      ∀ i : Fin 4, (memory.edges input).rank ≤ (i : Nat) →
        (memory.edges output).shape i = (memory.edges input).shape i

/-! The copy. -/

section
variable {memory : Memory Value} {input output : Nat}

theorem copyShape_rank {rank : Int} (nonneg : 0 ≤ rank) (bounded : rank ≤ 4)
    (target source : Fin 4 → UInt16) : Memory.copyShape rank target source =
      some fun i : Fin 4 => if ((i.val : Nat) : Int) < rank then source i else target i := by
  obtain ⟨count, rfl⟩ := Int.eq_ofNat_of_zero_le nonneg
  have octets : Foundation.toSize (2 * (count : Int)) = 2 * count :=
    Foundation.toSize_ofNat (2 * count) (by omega)
  have fits : 2 * count ≤ 8 := by omega
  simp only [Memory.copyShape, octets, if_pos fits, Option.some.injEq]
  funext i
  have same : 2 * (i : Nat) < 2 * count ↔ ((i : Nat) : Int) < count := by omega
  simp only [same]

/-- The output edge with the descriptor copied onto it. -/
def copied (source target : Edge) : Edge :=
  { target with
    type := source.type
    rank := source.rank
    shape := fun i : Fin 4 =>
      if ((i.val : Nat) : Int) < source.rank then source.shape i else target.shape i }

theorem copyDescriptor_rank (nonneg : 0 ≤ (memory.edges input).rank)
    (bounded : (memory.edges input).rank ≤ 4) : memory.copyDescriptor output input =
      some (memory.setEdge output (copied (memory.edges input) (memory.edges output))) := by
  simp only [Memory.copyDescriptor, copyShape_rank nonneg bounded, Option.bind_eq_bind,
    Option.bind_some]
  rfl

/-- The copy takes over the whole shape if and only if the rest agreed before. -/
theorem shapeTaken_iff :
    ShapeTaken memory (memory.setEdge output (copied (memory.edges input) (memory.edges output)))
      input output ↔
    ∀ i : Fin 4, (memory.edges input).rank ≤ (i.val : Nat) →
      (memory.edges output).shape i = (memory.edges input).shape i := by
  constructor
  · intro taken i behind
    have same := taken.shape i
    simp only [Memory.setEdge_self, copied, if_neg (Int.not_lt.mpr behind)] at same
    exact same
  · intro agree
    have shape : (copied (memory.edges input) (memory.edges output)).shape =
        (memory.edges input).shape := by
      funext i
      simp only [copied]
      split
      case isTrue => rfl
      case isFalse behind => exact agree i (Int.not_lt.mp behind)
    constructor
    case type => rw [Memory.setEdge_self, copied]
    case rank => rw [Memory.setEdge_self, copied]
    case shape =>
      intro i
      rw [Memory.setEdge_self, shape]
    case count => simp only [Memory.setEdge_self, dtypeElementCount, shape]
    case signal => rw [Memory.setEdge_self, copied]
    case input =>
      by_cases same : input = output
      · subst same
        simp only [Memory.setEdge_self, copied, ite_self]
      · exact memory.setEdge_other same _

end

/-! The call. -/

section
variable [Zero Value] [Add Value] [Sub Value] [Mul Value] [Div Value] [BEq Value]
  {node : Node Value} {memory : Memory Value} {ops : OpsRef} {input output : Nat}

theorem nodeInferShape_table (table : node.ops = some ops) :
    nodeInferShape (some node) memory = match ops with
      | .gain => called (gainInferShape (some node) memory)
      | .diffEq => called (diffEqInferShape (some node) memory)
      | .integrator => called (integratorInferShape (some node) memory) := by
  simp only [nodeInferShape, opsOf, table, Option.bind_eq_bind, Option.bind_some]
  cases ops <;> rfl

/-- Without an edge on either side nothing is inferred. -/
theorem inferShape_unbound (unbound : node.inputs 0 = none ∨ node.outputs 0 = none) :
    ∃ code, nodeInferShape (some node) memory = some (code, memory) ∧ code < 0 := by
  cases table : node.ops with
  | none =>
    refine ⟨-1, ?_, by decide⟩
    simp only [nodeInferShape, opsOf, Option.bind_eq_bind, Option.bind_some, table, Option.bind_none]
  | some ops =>
    rw [nodeInferShape_table table]
    cases boundIn : node.inputs 0 with
    | none =>
      refine ⟨NodeErr.inputMissing.code, ?_, by decide⟩
      cases ops <;>
        simp [gainInferShape, diffEqInferShape, integratorInferShape, called, boundIn]
    | some input =>
      have boundOut : node.outputs 0 = none := unbound.resolve_left (by simp [boundIn])
      refine ⟨NodeErr.outputMissing.code, ?_, by decide⟩
      cases ops <;>
        simp [gainInferShape, diffEqInferShape, integratorInferShape, called, boundIn, boundOut]

variable (boundIn : node.inputs 0 = some input) (boundOut : node.outputs 0 = some output)
include boundIn boundOut

theorem inferShape_refused (table : node.ops = some ops) (other : ¬ TakesOver ops (memory.edges input)) :
    nodeInferShape (some node) memory = some (NodeErr.unsurppotedShape.code, memory) := by
  rw [nodeInferShape_table table]
  cases ops with
  | gain => exact absurd trivial other
  | diffEq =>
    have many : ¬ dtypeElementCount (some (memory.edges input)) = 1 := other
    simp [diffEqInferShape, called, boundIn, boundOut, many]
  | integrator =>
    have large : 1 < (memory.edges input).rank := Int.not_le.mp other
    simp [integratorInferShape, called, boundIn, boundOut, large]

theorem inferShape_copies (table : node.ops = some ops) (taken : TakesOver ops (memory.edges input)) :
    nodeInferShape (some node) memory =
      (memory.copyDescriptor output input).map fun after => (NodeErr.ok.code, after) := by
  rw [nodeInferShape_table table]
  cases ops with
  | gain =>
    simp only [gainInferShape, called, boundIn, boundOut, Option.isNone_some, Bool.false_eq_true,
      if_false, Option.bind_eq_bind, Option.bind_some]
    cases memory.copyDescriptor output input <;> rfl
  | diffEq =>
    have single : dtypeElementCount (some (memory.edges input)) = 1 := taken
    simp only [diffEqInferShape, called, boundIn, boundOut, Option.isNone_some, Bool.false_eq_true,
      if_false, Option.bind_eq_bind, Option.bind_some, single, ne_eq, not_true]
    cases memory.copyDescriptor output input <;> rfl
  | integrator =>
    have small : ¬ 1 < (memory.edges input).rank := Int.not_lt.mpr taken
    simp only [integratorInferShape, called, boundIn, boundOut, Option.isNone_some,
      Bool.false_eq_true, if_false, Option.bind_eq_bind, Option.bind_some, small]
    cases memory.copyDescriptor output input <;> rfl

end

section
variable [Zero Value] [Add Value] [Sub Value] [Mul Value] [Div Value] [BEq Value]
  {node : Node Value} {memory : Memory Value}

/-- A call that changes nothing and says so. -/
theorem InfersShape.unchanged {code : Int}
    (called : nodeInferShape (some node) memory = some (code, memory)) (negative : code < 0) :
    InfersShape node memory :=
  ⟨code, memory, called, fun success => absurd success (Int.ne_of_lt negative), fun _ => rfl⟩

/-- Shape inference does its work if and only if the dimensions behind the
input's rank agree before the call. -/
theorem inferShape_exact (ranks : ∀ input, node.inputs 0 = some input →
    0 ≤ (memory.edges input).rank ∧ (memory.edges input).rank ≤ 4) :
    InfersShape node memory ↔ TrailingAgree node memory := by
  by_cases unbound : node.inputs 0 = none ∨ node.outputs 0 = none
  · -- there is no edge to take a shape from, or none to give it to
    obtain ⟨code, called, negative⟩ := inferShape_unbound unbound
    refine iff_of_true (InfersShape.unchanged called negative) ?_
    intro ops input output _ boundIn boundOut
    simp [boundIn, boundOut] at unbound
  rw [not_or] at unbound
  obtain ⟨input, boundIn⟩ := Option.ne_none_iff_exists'.mp unbound.1
  obtain ⟨output, boundOut⟩ := Option.ne_none_iff_exists'.mp unbound.2
  cases table : node.ops with
  | none =>
    have called : nodeInferShape (some node) memory = some (-1, memory) := by
      simp only [nodeInferShape, opsOf, Option.bind_eq_bind, Option.bind_some, table, Option.bind_none]
    refine iff_of_true (InfersShape.unchanged called (by decide)) ?_
    intro ops _ _ table'
    cases table.symm.trans table'
  | some ops =>
    by_cases taken : TakesOver ops (memory.edges input)
    case neg =>
      have called := inferShape_refused boundIn boundOut table taken
      refine iff_of_true (InfersShape.unchanged called (by decide)) ?_
      intro ops' input' output' table' boundIn' boundOut' taken'
      cases table.symm.trans table'
      cases boundIn.symm.trans boundIn'
      exact absurd taken' taken
    case pos =>
      obtain ⟨nonneg, bounded⟩ := ranks input boundIn
      have called := inferShape_copies boundIn boundOut table taken
      rw [copyDescriptor_rank nonneg bounded, Option.map_some] at called
      constructor
      · rintro ⟨code, after, called', success, -⟩ ops' input' output' table' boundIn' boundOut' -
        cases boundIn.symm.trans boundIn'
        cases boundOut.symm.trans boundOut'
        cases called.symm.trans called'
        obtain ⟨input', output', boundIn', boundOut', shapeTaken⟩ := success rfl
        cases boundIn.symm.trans boundIn'
        cases boundOut.symm.trans boundOut'
        exact shapeTaken_iff.mp shapeTaken
      · intro agree
        have shapeTaken := shapeTaken_iff.mpr (agree ops input output table boundIn boundOut taken)
        exact ⟨_, _, called, fun _ => ⟨input, output, boundIn, boundOut, shapeTaken⟩,
          fun negative => absurd negative (by decide)⟩

end

/-- A vector of two elements goes in, and the output edge held a matrix of five by five. -/
def reusedOutput : Memory Int where
  edges number :=
    if number = 0 then ⟨some 0, .float32, 1, ![2, 1, 1, 1], 0, 0⟩
    else ⟨some 1, .float32, 2, ![5, 5, 1, 1], 0, 0⟩
  cells _ := 0
  trace := []

theorem inferShape_exact_reused : ∃ node, gainNode = some node ∧
    (0 ≤ (reusedOutput.edges 0).rank ∧ (reusedOutput.edges 0).rank ≤ 4) ∧
      (InfersShape node reusedOutput ↔ TrailingAgree node reusedOutput) := by
  obtain ⟨node, built⟩ : ∃ node, gainNode = some node := ⟨_, rfl⟩
  have boundIn : node.inputs 0 = some 0 := by cases built; rfl
  refine ⟨node, built, by decide, inferShape_exact ?_⟩
  intro input bound
  cases boundIn.symm.trans bound
  decide

/-- The output edge gets ten elements where the input edge has two. -/
theorem inferShape_keeps_old_dimension : ∃ node, gainNode = some node ∧
    (0 ≤ (reusedOutput.edges 0).rank ∧ (reusedOutput.edges 0).rank ≤ 4) ∧
      (∃ after, nodeInferShape (some node) reusedOutput = some (0, after) ∧
        after.count 0 = 2 ∧ after.count 1 = 10) ∧
      ¬ InfersShape node reusedOutput := by
  obtain ⟨node, built⟩ : ∃ node, gainNode = some node := ⟨_, rfl⟩
  cases built
  obtain ⟨after, called, inputs, outputs⟩ : ∃ after,
      nodeInferShape gainNode reusedOutput = some (0, after) ∧
        after.count 0 = 2 ∧ after.count 1 = 10 := ⟨_, rfl, by decide, by decide⟩
  refine ⟨_, rfl, by decide, ⟨after, called, inputs, outputs⟩, ?_⟩
  rintro ⟨code, after', called', success, -⟩
  cases called.symm.trans called'
  obtain ⟨input, output, boundIn, boundOut, taken⟩ := success rfl
  cases boundIn
  cases boundOut
  have same : after.count 1 = reusedOutput.count 0 := congrArg UInt32.toNat taken.count
  rw [outputs] at same
  exact absurd same (by decide)

end Simuless.Runtime
