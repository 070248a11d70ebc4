import Mathlib.Data.Set.Image
import Mathlib.Order.Defs.LinearOrder
import Simuless.Foundation.Loop

/-! Searches that keep the best point they have come to.

A search visits points in the turns of a loop, and keeps a point whose cost is
less than all before. A bound takes the place of a cost before the first turn.
-/

set_option autoImplicit false

namespace Simuless.Foundation

/-! The best of some points. -/

section
variable {Point Cost : Type} [LinearOrder Cost]

/-- What is kept is the best of the points, unless none of them costs less than the bound. -/
structure BestOf (cost : Point → Cost) (bound : Cost) (visited : Set Point) (best : Cost) (kept : Point) :
    Prop where
  least : ∀ point ∈ visited, best ≤ cost point
  attained : best = bound ∨ kept ∈ visited ∧ cost kept = best

variable {cost : Point → Cost} {bound best : Cost} {visited : Set Point} {kept point : Point}

theorem BestOf.start : BestOf cost bound ∅ bound kept :=
  ⟨fun _ none => absurd none (Set.notMem_empty _), Or.inl rfl⟩

/-- A point that costs less takes the place of the one that was kept. -/
theorem BestOf.improve (held : BestOf cost bound visited best kept) (less : cost point < best) :
    BestOf cost bound (insert point visited) (cost point) point := by
  refine ⟨fun other member => ?_, Or.inr ⟨Set.mem_insert _ _, rfl⟩⟩
  rcases member with rfl | before
  · exact le_rfl
  · exact less.le.trans (held.least other before)

theorem BestOf.keep (held : BestOf cost bound visited best kept) (more : ¬ cost point < best) :
    BestOf cost bound (insert point visited) best kept := by
  refine ⟨fun other member => ?_, held.attained.imp id fun both => ⟨Or.inr both.1, both.2⟩⟩
  rcases member with rfl | before
  · exact not_lt.mp more
  · exact held.least other before

/-- If one of the points costs less than the bound, then the best of them is kept. -/
theorem BestOf.among (held : BestOf cost bound visited best kept) (member : point ∈ visited)
    (less : cost point < bound) : kept ∈ visited ∧ ∀ other ∈ visited, cost kept ≤ cost other := by
  rcases held.attained with none | ⟨inside, same⟩
  · exact absurd (held.least point member) (not_le.mpr (none.symm ▸ less))
  · rw [same]
    exact ⟨inside, held.least⟩

end

/-! Turns that a loop has begun. -/

section
variable {State Result : Type} {body : State → Nat → Option (Flow Result State)} {start : State}

/-- A loop with one more turn has been left before it, or ends as this turn does. -/
theorem flowLoop_append (turns : List Nat) (last : Nat) :
    flowLoop body (turns ++ [last]) start = (do
      match ← flowLoop body turns start with
      | .leave result => return .leave result
      | .proceed state => body state last) := by
  induction turns generalizing start with
  | nil =>
    have alone : flowLoop body [last] start = body start last := by
      rw [flowLoop]
      cases body start last with
      | none => rfl
      | some flow => cases flow <;> rfl
    exact alone
  | cons i rest ih =>
    rw [List.cons_append, flowLoop, flowLoop]
    cases body start i with
    | none => rfl
    | some flow =>
      cases flow with
      | leave result => rfl
      | proceed state => exact ih

/-- The states with which the first turns begin. -/
def begun (body : State → Nat → Option (Flow Result State)) (start : State) (count : Nat) : Set State :=
  {state | ∃ i < count, flowLoop body (upTo 0 i) start = some (.proceed state)}

variable {count : Nat}

theorem begun_zero : begun body start 0 = ∅ := by
  ext state
  refine iff_of_false ?_ (Set.notMem_empty state)
  rintro ⟨i, below, -⟩
  exact Nat.not_lt_zero i below

theorem begun_proceed {state : State} (ran : flowLoop body (upTo 0 count) start = some (.proceed state)) :
    begun body start (count + 1) = insert state (begun body start count) := by
  ext other
  constructor
  · rintro ⟨i, below, reached⟩
    rcases Nat.lt_succ_iff_lt_or_eq.mp below with before | rfl
    · exact Or.inr ⟨i, before, reached⟩
    · rw [ran] at reached
      cases reached
      exact Or.inl rfl
  · rintro (rfl | ⟨i, before, reached⟩)
    · exact ⟨count, Nat.lt_succ_self count, ran⟩
    · exact ⟨i, Nat.lt_succ_of_lt before, reached⟩

theorem begun_leave {result : Result} (ran : flowLoop body (upTo 0 count) start = some (.leave result)) :
    begun body start (count + 1) = begun body start count := by
  ext other
  constructor
  · rintro ⟨i, below, reached⟩
    rcases Nat.lt_succ_iff_lt_or_eq.mp below with before | rfl
    · exact ⟨i, before, reached⟩
    · rw [ran] at reached
      cases reached
  · rintro ⟨i, before, reached⟩
    exact ⟨i, Nat.lt_succ_of_lt before, reached⟩

/-- What the turns of a loop that has a result carry through it may speak of the states they began with. -/
theorem flowLoop_ran (holds : Set State → Result → Prop) (through : Set State → State → Prop)
    (first : through ∅ start) (turn : ∀ past state i flow, through past state → body state i = some flow →
      Flow.Ends (holds (insert state past)) (through (insert state past)) flow)
    {flow : Flow Result State} (ran : flowLoop body (upTo 0 count) start = some flow) :
    Flow.Ends (holds (begun body start count)) (through (begun body start count)) flow := by
  induction count generalizing flow with
  | zero =>
    rw [upTo_self, flowLoop] at ran
    obtain rfl := Option.some.inj ran
    rw [begun_zero]
    exact first
  | succ count ih =>
    rw [upTo_append (Nat.zero_le count), flowLoop_append] at ran
    obtain ⟨before, reached, last⟩ := Option.bind_eq_some_iff.mp ran
    have held := ih reached
    cases before with
    | leave result =>
      obtain rfl := Option.some.inj last
      rw [begun_leave reached]
      exact held
    | proceed state =>
      rw [begun_proceed reached]
      exact turn _ state count flow held last

/-- What every turn that goes on keeps holds of the states that turns begin with. -/
theorem begun_holds {through : State → Prop} (first : through start)
    (turn : ∀ state i next, through state → body state i = some (.proceed next) → through next) :
    ∀ state ∈ begun body start count, through state := by
  rintro state ⟨i, -, reached⟩
  induction i generalizing state with
  | zero =>
    rw [upTo_self, flowLoop] at reached
    cases reached
    exact first
  | succ i ih =>
    rw [upTo_append (Nat.zero_le i), flowLoop_append] at reached
    obtain ⟨before, ran, last⟩ := Option.bind_eq_some_iff.mp reached
    cases before with
    | leave result => cases last
    | proceed before => exact turn before i state (ih before ran) last

/-- A loop has a result if every turn has one that begins with a state the loop comes to. -/
theorem Returns.flow_begun {holds : Result → Prop} {through : State → Prop} (first : through start)
    (turn : ∀ state ∈ begun body start count, through state → ∀ i,
      Returns (body state i) (Flow.Ends holds through)) :
    Returns (flowLoop body (upTo 0 count) start) (Flow.Ends holds through) := by
  induction count with
  | zero =>
    rw [upTo_self]
    exact Returns.done first
  | succ count ih =>
    have earlier : begun body start count ⊆ begun body start (count + 1) :=
      fun state ⟨i, before, reached⟩ => ⟨i, Nat.lt_succ_of_lt before, reached⟩
    obtain ⟨flow, ran, ends⟩ := ih fun state member => turn state (earlier member)
    rw [upTo_append (Nat.zero_le count), flowLoop_append, ran]
    cases flow with
    | leave result => exact Returns.done ends
    | proceed state =>
      refine turn state ?_ ends count
      rw [begun_proceed ran]
      exact Set.mem_insert _ _

end

/-! States that a loop has come to. -/

section
variable {State : Type} {body : State → Nat → Option State} {start : State} {count : Nat}

/-- The states with which the first turns end. -/
def ended (body : State → Nat → Option State) (start : State) (count : Nat) : Set State :=
  {state | ∃ i < count, (upTo 0 (i + 1)).foldlM body start = some state}

theorem ended_zero : ended body start 0 = ∅ := by
  ext state
  refine iff_of_false ?_ (Set.notMem_empty state)
  rintro ⟨i, below, -⟩
  exact Nat.not_lt_zero i below

theorem ended_succ {state : State} (ran : (upTo 0 (count + 1)).foldlM body start = some state) :
    ended body start (count + 1) = insert state (ended body start count) := by
  ext other
  constructor
  · rintro ⟨i, below, reached⟩
    rcases Nat.lt_succ_iff_lt_or_eq.mp below with before | rfl
    · exact Or.inr ⟨i, before, reached⟩
    · exact Or.inl (Option.some.inj (reached.symm.trans ran))
  · rintro (rfl | ⟨i, before, reached⟩)
    · exact ⟨count, Nat.lt_succ_self count, ran⟩
    · exact ⟨i, Nat.lt_succ_of_lt before, reached⟩

/-- What the turns carry through a loop that has a result may speak of the states they have ended with. -/
theorem foldlM_ran (holds : Set State → State → Prop) (first : holds ∅ start)
    (turn : ∀ past state i next, holds past state → body state i = some next →
      holds (insert next past) next)
    {state : State} (ran : (upTo 0 count).foldlM body start = some state) :
    holds (ended body start count) state := by
  induction count generalizing state with
  | zero =>
    rw [upTo_self] at ran
    obtain rfl := Option.some.inj ran
    rw [ended_zero]
    exact first
  | succ count ih =>
    rw [ended_succ ran]
    rw [upTo_append (Nat.zero_le count), List.foldlM_append] at ran
    obtain ⟨before, reached, last⟩ := Option.bind_eq_some_iff.mp ran
    obtain ⟨next, turned, same⟩ := Option.bind_eq_some_iff.mp last
    obtain rfl := Option.some.inj same
    exact turn _ before count next (ih reached) turned

end

end Simuless.Foundation
