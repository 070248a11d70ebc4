/-! Computations that may have no result.

`Returns` says that there is a result and what holds of it. The rules follow a
program that checks, returns early and goes on behind the check.
-/

set_option autoImplicit false

namespace Simuless.Foundation

variable {Result Next : Type}

def Returns (computation : Option Result) (property : Result → Prop) : Prop :=
  ∃ result, computation = some result ∧ property result

namespace Returns

variable {property : Result → Prop}

theorem done {result : Result} (holds : property result) : Returns (some result) property :=
  ⟨result, rfl, holds⟩

theorem next {computation : Option Result} {rest : Result → Option Next} {goal : Next → Prop}
    (first : Returns computation property)
    (then_rest : ∀ result, computation = some result → property result → Returns (rest result) goal) :
    Returns (computation >>= rest) goal := by
  obtain ⟨result, same, holds⟩ := first
  subst same
  exact then_rest result rfl holds

/-- A check either returns early or lets the rest run. -/
theorem check {condition : Prop} [Decidable condition] {early rest : Option Result}
    (fails : condition → Returns early property) (passes : ¬ condition → Returns rest property) :
    Returns (if condition then early else rest) property := by
  by_cases held : condition
  · rw [if_pos held]
    exact fails held
  · rw [if_neg held]
    exact passes held

/-- A pointer that is not null can be dereferenced. -/
theorem deref {pointer : Option Result} {rest : Result → Option Next} {goal : Next → Prop}
    (present : ¬ pointer.isNone = true)
    (then_rest : ∀ target, pointer = some target → Returns (rest target) goal) :
    Returns (pointer >>= rest) goal := by
  cases pointer with
  | none => exact absurd rfl present
  | some target => exact then_rest target rfl

theorem known {pointer : Option Result} {rest : Result → Option Next} {goal : Next → Prop}
    {target : Result} (present : pointer = some target) (returns : Returns (rest target) goal) :
    Returns (pointer >>= rest) goal := by
  subst present
  exact returns

/-- What follows a result that is known. -/
theorem bind_known {pointer : Option Result} {rest : Result → Option Next} {target : Result}
    (present : pointer = some target) : (pointer >>= rest) = rest target := by
  subst present
  rfl

end Returns

end Simuless.Foundation
