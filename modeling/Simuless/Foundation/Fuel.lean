import Mathlib.Order.RelClasses
import Simuless.Foundation.Loop

/-! Loops that run until a condition fails.

A loop is given a number of turns that it may take. A program that contains such
loops settles when all larger numbers lead to the same result. The rules follow
the program; a loop settles when its turns descend in a relation without
endless descents.
-/

set_option autoImplicit false

namespace Simuless.Foundation

variable {State Result Next : Type}

/-- `while (continues) body`, with no result where the turns do not suffice. -/
def whileLoop (continues : State → Bool) (body : State → Option State) : Nat → State → Option State
  | 0, _ => none
  | fuel + 1, state =>
    if continues state then do
      let state ← body state
      whileLoop continues body fuel state
    else some state

/-- From some number of turns on there is one result. -/
def Settles (run : Nat → Option Result) (property : Result → Prop) : Prop :=
  ∃ fuel result, property result ∧ ∀ more, fuel ≤ more → run more = some result

namespace Settles

variable {property : Result → Prop} {run : Nat → Option Result}

theorem returns {computation : Option Result} (returned : Returns computation property) :
    Settles (fun _ => computation) property := by
  obtain ⟨result, same, holds⟩ := returned
  exact ⟨0, result, holds, fun _ _ => same⟩

theorem done {result : Result} (holds : property result) : Settles (fun _ => some result) property :=
  returns (Returns.done holds)

theorem next {rest : Nat → Result → Option Next} {goal : Next → Prop} (first : Settles run property)
    (then_rest : ∀ result, property result → Settles (fun fuel => rest fuel result) goal) :
    Settles (fun fuel => run fuel >>= rest fuel) goal := by
  obtain ⟨fuel, result, holds, ran⟩ := first
  obtain ⟨fuel', result', holds', ran'⟩ := then_rest result holds
  refine ⟨max fuel fuel', result', holds', fun more enough => ?_⟩
  change run more >>= rest more = some result'
  rw [ran more (Nat.le_trans (Nat.le_max_left _ _) enough)]
  exact ran' more (Nat.le_trans (Nat.le_max_right _ _) enough)

theorem weaken {goal : Result → Prop} (settles : Settles run property)
    (implies : ∀ result, property result → goal result) : Settles run goal := by
  obtain ⟨fuel, result, holds, ran⟩ := settles
  exact ⟨fuel, result, implies result holds, ran⟩

/-- A property that each turn of a counting loop carries on. -/
theorem loop (holds : Nat → State → Prop) {body : Nat → State → Nat → Option State} {state : State}
    {first last : Nat} (order : first ≤ last) (start : holds first state)
    (turn : ∀ i state, first ≤ i → i < last → holds i state →
      Settles (fun fuel => body fuel state i) (holds (i + 1))) :
    Settles (fun fuel => (upTo first last).foldlM (body fuel) state) (holds last) := by
  let remains (i : Nat) : Prop := first ≤ i → ∀ state, holds i state →
    Settles (fun fuel => (upTo i last).foldlM (body fuel) state) (holds last)
  have ended : remains last := by
    intro _ state held
    simp only [upTo_self, List.foldlM_nil]
    exact done held
  have whole : remains first := by
    refine upTo_induction order ended ?_
    intro i above below later _ state held
    simp only [upTo_cons below, List.foldlM_cons]
    exact next (turn i state above below held) fun reached further => later (by omega) reached further
  exact whole (Nat.le_refl first) state start

/-- A loop whose turns descend until the last one. -/
theorem descending {Index : Type} {descends : Index → Index → Prop} {continues : State → Bool}
    {body : Nat → State → Option State} {index : Index} {state : State} (ends : WellFounded descends)
    (keeps : Index → State → Prop) (left : State → Prop) (start : keeps index state)
    (stop : ∀ index state, keeps index state → continues state = false → left state)
    (turn : ∀ index state, keeps index state → continues state = true →
      Settles (fun fuel => body fuel state) fun next => continues next = false ∧ left next ∨
        ∃ lower, descends lower index ∧ keeps lower next) :
    Settles (fun fuel => whileLoop continues (body fuel) fuel state) left := by
  -- the turns of the loop and those within its body are counted apart
  have counted : ∃ fuel turns result, left result ∧ ∀ more, fuel ≤ more → ∀ count, turns ≤ count →
      whileLoop continues (body more) count state = some result := by
    have stopped (state : State) (going : continues state = false) (holds : left state) :
        ∃ fuel turns result, left result ∧ ∀ more, fuel ≤ more → ∀ count, turns ≤ count →
          whileLoop continues (body more) count state = some result := by
      refine ⟨0, 1, state, holds, fun more _ count enough => ?_⟩
      obtain ⟨count, rfl⟩ := Nat.exists_eq_add_of_le' enough
      rw [whileLoop, going]
      rfl
    induction index using ends.induction generalizing state with
    | _ index ih =>
      cases going : continues state with
      | false => exact stopped state going (stop index state start going)
      | true =>
        obtain ⟨fuel, reached, further, ran⟩ := turn index state start going
        have rest : ∃ fuel turns result, left result ∧ ∀ more, fuel ≤ more → ∀ count, turns ≤ count →
            whileLoop continues (body more) count reached = some result := by
          rcases further with ⟨last, holds⟩ | ⟨lower, below, kept⟩
          · exact stopped reached last holds
          · exact ih lower below kept
        obtain ⟨fuel', turns, result, holds, ran'⟩ := rest
        refine ⟨max fuel fuel', turns + 1, result, holds, fun more enough count enough' => ?_⟩
        obtain ⟨count, rfl⟩ := Nat.exists_eq_add_of_le' (Nat.le_of_add_left_le enough')
        rw [whileLoop, going, if_pos rfl]
        have turned : body more state = some reached := ran more (Nat.le_trans (Nat.le_max_left _ _) enough)
        rw [turned]
        exact ran' more (Nat.le_trans (Nat.le_max_right _ _) enough) count
          (Nat.le_of_succ_le_succ enough')
  obtain ⟨fuel, turns, result, holds, ran⟩ := counted
  exact ⟨max fuel turns, result, holds, fun more enough =>
    ran more (Nat.le_trans (Nat.le_max_left _ _) enough) more (Nat.le_trans (Nat.le_max_right _ _) enough)⟩

end Settles

end Simuless.Foundation
