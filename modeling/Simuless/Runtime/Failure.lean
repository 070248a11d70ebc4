import Simuless.Foundation.Returns
import Simuless.Runtime.NodeApi

/-! Failed steps.

A step always has a result: on the way to an error no null pointer is
dereferenced. A step that fails returns before its first access to a signal, a
history or an accumulator, so memory is what it was. The node itself is only
read.
-/

set_option autoImplicit false

namespace Simuless.Runtime

open Foundation

variable {Value : Type}

/-- Success, or memory as it was before the call. -/
def Untouched (memory : Memory Value) (result : NodeErr × Memory Value) : Prop :=
  result.1 ≠ .ok → result.2 = memory

variable {memory : Memory Value}

theorem Untouched.early (err : NodeErr) : Returns (some (err, memory)) (Untouched memory) :=
  Returns.done fun _ => rfl

theorem Untouched.success (after : Memory Value) :
    Returns (some (.ok, after)) (Untouched memory) :=
  Returns.done fun failed => absurd rfl failed

/-- A step that validates first has to be followed up only behind success. -/
theorem Untouched.validated {check : Option NodeErr} {rest : Option (NodeErr × Memory Value)}
    (decides : Returns check fun _ => True)
    (valid : check = some .ok → Returns rest (Untouched memory)) :
    Returns (check >>= fun ret => if ret.code < 0 then pure (ret, memory) else rest)
      (Untouched memory) := by
  apply decides.next
  intro ret checked _
  apply Returns.check
  · intro _
    exact early ret
  · intro success
    apply valid
    rw [checked, Decidable.of_not_not (mt NodeErr.code_neg.mpr success)]

/-! Validation dereferences a pointer only behind its own check. -/

/-- Some error code or another. -/
def Decides (check : Option NodeErr) : Prop := Returns check fun _ => True

theorem Decides.check {condition : Prop} [Decidable condition] {err : NodeErr}
    {rest : Option NodeErr} (passes : ¬ condition → Decides rest) :
    Decides (if condition then pure err else rest) :=
  Returns.check (fun _ => .done trivial) passes

theorem gainValidate_decides (node : Option (Node Value)) (memory : Memory Value) :
    Decides (gainValidate node memory) := by
  apply Decides.check
  intro present
  apply Returns.deref present
  intro node _
  apply Decides.check
  intro _
  apply Decides.check
  intro _
  apply Decides.check
  intro _
  exact .done trivial

theorem integratorValidate_decides (node : Option (Node Value)) (memory : Memory Value) :
    Decides (integratorValidate node memory) := by
  apply Decides.check
  intro present
  apply Returns.deref present
  intro node _
  apply Decides.check
  intro boundIn
  apply Decides.check
  intro boundOut
  apply Returns.deref boundIn
  intro input _
  apply Returns.deref boundOut
  intro output _
  iterate 4
    apply Decides.check
    intro _
  exact .done trivial

theorem diffEqValidate_decides [Zero Value] [BEq Value] (node : Option (Node Value))
    (memory : Memory Value) : Decides (diffEqValidate node memory) := by
  apply Decides.check
  intro present
  apply Returns.deref present
  intro node _
  apply Decides.check
  intro parameter
  apply Decides.check
  intro stateBlock
  apply Returns.deref parameter
  intro param _
  apply Returns.deref stateBlock
  intro state _
  apply Decides.check
  intro boundIn
  apply Decides.check
  intro boundOut
  apply Decides.check
  intro coefficients
  apply Decides.check
  intro _
  apply Returns.deref fun missing => coefficients (.inr missing)
  intro den _
  iterate 3
    apply Decides.check
    intro _
  apply Returns.deref boundIn
  intro input _
  apply Returns.deref boundOut
  intro output _
  iterate 4
    apply Decides.check
    intro _
  exact .done trivial

/-! Behind the validation the steps check what it has left open. -/

variable {node : Option (Node Value)}

theorem gainStep_untouched [Mul Value] :
    Returns (gainStep node memory) (Untouched memory) := by
  apply Untouched.validated (gainValidate_decides node memory)
  intro valid
  cases node with
  | none => cases valid
  | some node =>
    simp only [gainValidate_ok, Option.isSome_iff_exists] at valid
    obtain ⟨⟨param, parameter⟩, ⟨input, boundIn⟩, ⟨output, boundOut⟩⟩ := valid
    apply Returns.known rfl
    apply Returns.known parameter
    apply Returns.known boundIn
    apply Returns.known boundOut
    apply Returns.check fun _ => Untouched.early _
    intro signals
    apply Returns.check fun _ => Untouched.early _
    intro _
    apply Returns.deref fun missing => signals (.inl missing)
    intro source _
    apply Returns.deref fun missing => signals (.inr missing)
    intro target _
    exact Untouched.success _

theorem integratorStep_untouched [Add Value] [Mul Value] :
    Returns (integratorStep node memory) (Untouched memory) := by
  apply Untouched.validated (integratorValidate_decides node memory)
  intro valid
  cases node with
  | none => cases valid
  | some node =>
    obtain ⟨input, output, boundIn, boundOut, -⟩ := integratorValidate_ok.mp valid
    apply Returns.known rfl
    apply Returns.known boundIn
    apply Returns.known boundOut
    apply Returns.check fun _ => Untouched.early _
    intro _
    apply Returns.check fun _ => Untouched.early _
    intro present
    apply Returns.deref fun missing => present (.inr (.inr missing))
    intro state _
    apply Returns.check fun _ => Untouched.early _
    intro accumulators
    apply Returns.check fun _ => Untouched.early _
    intro _
    apply Returns.deref fun missing => present (.inl missing)
    intro source _
    apply Returns.deref fun missing => present (.inr (.inl missing))
    intro target _
    apply Returns.deref accumulators
    intro array _
    exact Untouched.success _

theorem called_untouched {result : Option (NodeErr × Memory Value)}
    (untouched : Returns result (Untouched memory)) :
    Returns (called result) fun answer => answer.1 < 0 → answer.2 = memory := by
  obtain ⟨⟨err, after⟩, same, kept⟩ := untouched
  subst same
  exact Returns.done fun failed => kept (NodeErr.code_neg.mp failed)

section
variable [Zero Value] [Add Value] [Sub Value] [Mul Value] [Div Value] [BEq Value]

/-- The difference equation checks everything in its validation. -/
theorem diffEqStep_untouched : Returns (diffEqStep node memory) (Untouched memory) := by
  cases node with
  | none => exact Untouched.early .nullPtr
  | some node =>
    obtain ⟨ret, checked, -⟩ := diffEqValidate_decides (some node) memory
    by_cases success : ret = .ok
    · subst success
      obtain ⟨wiring, ready⟩ := diffEqValidate_ok.mp checked
      obtain ⟨after, stepped, -⟩ := diffEqStep_ready ready
      rw [stepped]
      exact Untouched.success after
    · have failed : ret.code < 0 := NodeErr.code_neg.mpr success
      have stopped : diffEqStep (some node) memory = some (ret, memory) := by
        rw [diffEqStep, checked]
        exact if_pos failed
      rw [stopped]
      exact Untouched.early ret

/-- Whatever is missing or mismatched, a step has a result, and one that fails
has changed nothing and accessed no array. -/
theorem nodeStep_atomic (node : Option (Node Value)) (memory : Memory Value) :
    ∃ code after, nodeStep node memory = some (code, after) ∧ (code < 0 → after = memory) := by
  suffices Returns (nodeStep node memory) fun answer => answer.1 < 0 → answer.2 = memory by
    obtain ⟨⟨code, after⟩, stepped, kept⟩ := this
    exact ⟨code, after, stepped, kept⟩
  cases node with
  | none => exact Returns.done fun _ => rfl
  | some node =>
    cases table : node.ops with
    | none =>
      simp only [nodeStep, opsOf, table, Option.bind_eq_bind, Option.bind_some, Option.bind_none]
      exact Returns.done fun _ => rfl
    | some ops =>
      rw [nodeStep_table table]
      cases ops with
      | gain => exact called_untouched gainStep_untouched
      | diffEq => exact called_untouched diffEqStep_untouched
      | integrator => exact called_untouched integratorStep_untouched

end

end Simuless.Runtime
