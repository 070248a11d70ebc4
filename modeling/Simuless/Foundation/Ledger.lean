import Mathlib.Data.Finset.Basic

/-! Handles that are acquired, accessed and released.

A trace holds the handles it has acquired and not released since. It is
disciplined if it never acquires a handle it holds and never accesses or
releases one that it does not hold.
-/

set_option autoImplicit false

namespace Simuless.Foundation

inductive Handling (Handle : Type) where
  | acquire (handle : Handle)
  | access (handle : Handle)
  | release (handle : Handle)

variable {Handle : Type} [DecidableEq Handle]

namespace Handling

def update (held : Finset Handle) : Handling Handle → Finset Handle
  | .acquire handle => insert handle held
  | .access _ => held
  | .release handle => held.erase handle

def Allowed (held : Finset Handle) : Handling Handle → Prop
  | .acquire handle => handle ∉ held
  | .access handle => handle ∈ held
  | .release handle => handle ∈ held

/-- The handles a trace holds at its end. -/
def held (trace : List (Handling Handle)) : Finset Handle := trace.foldl update ∅

def Disciplined (trace : List (Handling Handle)) : Prop :=
  ∀ front event back, trace = front ++ event :: back → event.Allowed (held front)

/-- The trace is disciplined and holds exactly these handles. -/
structure Keeps (trace : List (Handling Handle)) (handles : Finset Handle) : Prop where
  disciplined : Disciplined trace
  exact_handles : held trace = handles

variable {trace : List (Handling Handle)} {handles : Finset Handle}

theorem held_concat (event : Handling Handle) :
    held (trace ++ [event]) = event.update (held trace) := by
  rw [held, List.foldl_append]
  rfl

theorem Keeps.nil : Keeps ([] : List (Handling Handle)) ∅ where
  disciplined front event back whole := by
    cases front <;> cases whole
  exact_handles := rfl

/-- A trace goes on with any event that is allowed for what it holds. -/
theorem Keeps.concat (keeps : Keeps trace handles) {event : Handling Handle}
    (allowed : event.Allowed handles) : Keeps (trace ++ [event]) (event.update handles) := by
  obtain ⟨disciplined, same⟩ := keeps
  constructor
  · intro front other back whole
    rcases List.eq_nil_or_concat back with empty | ⟨middle, last, rfl⟩
    · subst empty
      obtain ⟨rfl, rest⟩ := List.append_inj' whole rfl
      cases rest
      rw [same]
      exact allowed
    · rw [List.concat_eq_append, ← List.cons_append, ← List.append_assoc] at whole
      obtain ⟨whole, -⟩ := List.append_inj' whole rfl
      exact disciplined front other middle whole
  · rw [held_concat, same]

theorem Keeps.acquire (keeps : Keeps trace handles) {handle : Handle} (fresh : handle ∉ handles) :
    Keeps (trace ++ [.acquire handle]) (insert handle handles) :=
  keeps.concat fresh

theorem Keeps.access (keeps : Keeps trace handles) {handle : Handle} (present : handle ∈ handles) :
    Keeps (trace ++ [.access handle]) handles :=
  keeps.concat present

theorem Keeps.release (keeps : Keeps trace handles) {handle : Handle} (present : handle ∈ handles) :
    Keeps (trace ++ [.release handle]) (handles.erase handle) :=
  keeps.concat present

end Handling

end Simuless.Foundation
