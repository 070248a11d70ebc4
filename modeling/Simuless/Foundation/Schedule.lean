import Mathlib.Data.List.Basic
import Mathlib.Data.Set.Basic
import Mathlib.Tactic.Common

/-! Orders of actions on one state.

Two orders of the same actions end alike if every pair of actions that does not
commute stands in the same order in both. Actions on a shared store commute
when neither writes what the other reads or writes.
-/

set_option autoImplicit false

namespace Simuless.Foundation

section
variable {Action State : Type} {act : State → Action → State}

variable (act) in
def Commuting (first later : Action) : Prop :=
  ∀ state, act (act state first) later = act (act state later) first

/-- No action stands in front of one that it has to follow. -/
def Respects (follows : Action → Action → Prop) (order : List Action) : Prop :=
  order.Pairwise fun first later => ¬ follows first later

/-- An action that commutes with those in front of it can as well be done first. -/
theorem foldl_first {action : Action} {before : List Action}
    (commuting : ∀ other ∈ before, Commuting act other action) (state : State) :
    act (before.foldl act state) action = before.foldl act (act state action) := by
  induction before generalizing state with
  | nil => rfl
  | cons other rest ih =>
    rw [List.foldl_cons, List.foldl_cons,
      ih fun another member => commuting another (List.mem_cons_of_mem other member),
      commuting other List.mem_cons_self]

/-- Orders that respect one relation, with an orientation for every pair that
does not commute, end in the same state. -/
theorem foldl_respects {follows : Action → Action → Prop} {left right : List Action}
    (same : left.Perm right) (first : Respects follows left) (second : Respects follows right)
    (oriented : ∀ a ∈ left, ∀ b ∈ left, Commuting act a b ∨ a = b ∨ follows a b ∨ follows b a)
    (state : State) : left.foldl act state = right.foldl act state := by
  induction left generalizing right state with
  | nil => rw [List.nil_perm.mp same]
  | cons action rest ih =>
    -- the first action of one order is moved to the front of the other
    obtain ⟨before, after, rfl, fresh⟩ :=
      List.eq_append_cons_of_mem (same.subset List.mem_cons_self)
    obtain ⟨ahead, kept⟩ := List.pairwise_cons.mp first
    have others : rest.Perm (before ++ after) :=
      List.Perm.cons_inv (same.trans List.perm_middle)
    have commuting : ∀ other ∈ before, Commuting act other action := by
      intro other member
      have present : other ∈ rest := others.symm.subset (List.mem_append_left after member)
      have behind : ¬ follows other action :=
        (List.pairwise_append.mp second).2.2 other member action List.mem_cons_self
      rcases oriented other (List.mem_cons_of_mem action present) action List.mem_cons_self with
        free | equal | follow | follow
      · exact free
      · exact absurd (equal ▸ member) fresh
      · exact absurd follow behind
      · exact absurd follow (ahead other present)
    have without : Respects follows (before ++ after) :=
      second.sublist (List.Sublist.append_left (List.sublist_cons_self action after) before)
    rw [List.foldl_cons, ih others kept without
        (fun a member b member' => oriented a (List.mem_cons_of_mem action member) b
          (List.mem_cons_of_mem action member')),
      List.foldl_append, List.foldl_append, List.foldl_cons, foldl_first commuting]

end

/-! Actions on a store. -/

variable {Cell Value : Type}

/-- The cells an action may read and those it may write. -/
structure Footprint (Cell : Type) where
  reads : Set Cell
  writes : Set Cell

namespace Footprint

/-- An action leaves alone what it does not write, and what it makes of a cell
depends on what it reads and on that cell. -/
structure Confines (footprint : Footprint Cell) (change : (Cell → Value) → Cell → Value) : Prop where
  frame : ∀ store, ∀ cell ∉ footprint.writes, change store cell = store cell
  depends : ∀ left right, (∀ cell ∈ footprint.reads, left cell = right cell) →
    ∀ cell, left cell = right cell → change left cell = change right cell

/-- Some cell is written by the one and read or written by the other. -/
def Conflicts (first later : Footprint Cell) : Prop :=
  ∃ cell, (cell ∈ first.writes ∧ (cell ∈ later.reads ∨ cell ∈ later.writes)) ∨
    (cell ∈ later.writes ∧ cell ∈ first.reads)

variable {first later : Footprint Cell} {change change' : (Cell → Value) → Cell → Value}

theorem Confines.commute (confined : first.Confines change) (confined' : later.Confines change')
    (apart : ¬ first.Conflicts later) (store : Cell → Value) :
    change' (change store) = change (change' store) := by
  have unread : ∀ cell ∈ later.reads, change store cell = store cell := fun cell read =>
    confined.frame store cell fun written => apart ⟨cell, .inl ⟨written, .inl read⟩⟩
  have unread' : ∀ cell ∈ first.reads, change' store cell = store cell := fun cell read =>
    confined'.frame store cell fun written => apart ⟨cell, .inr ⟨written, read⟩⟩
  funext cell
  by_cases mine : cell ∈ first.writes
  · have other : cell ∉ later.writes := fun written => apart ⟨cell, .inl ⟨mine, .inr written⟩⟩
    rw [confined'.frame _ cell other]
    exact (confined.depends _ _ unread' cell (confined'.frame store cell other)).symm
  · rw [confined.frame _ cell mine]
    exact confined'.depends _ _ unread cell (confined.frame store cell mine)

end Footprint

end Simuless.Foundation
