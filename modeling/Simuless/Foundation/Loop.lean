import Mathlib.Data.List.Basic
import Simuless.Foundation.Returns

/-! Counting loops that may leave early.

A loop runs its body for a counter that goes up or down one by one, and a body
without a result leaves the loop without one. A body may also leave the loop
with a result of the program around it. The rules carry a property of the
counter and the state through the loop.
-/

set_option autoImplicit false

namespace Simuless.Foundation

variable {State Result : Type}

/-- The values of a counter that runs up from `first` while it is below `last`. -/
def upTo (first last : Nat) : List Nat := List.range' first (last - first)

/-- The values of a counter that runs down from below `last` to zero. -/
def downFrom (last : Nat) : List Nat := (upTo 0 last).reverse

/-- What a turn of a loop ends with. -/
inductive Flow (Result State : Type) where
  | leave (result : Result)
  | proceed (state : State)

/-- The turns of a loop whose body may leave. -/
def flowLoop (body : State → Nat → Option (Flow Result State)) :
    List Nat → State → Option (Flow Result State)
  | [], state => some (.proceed state)
  | i :: rest, state => do
      match ← body state i with
      | .leave result => return .leave result
      | .proceed state => flowLoop body rest state

/-- A loop is left with one property or gone through with the other. -/
def Flow.Ends (left : Result → Prop) (through : State → Prop) : Flow Result State → Prop
  | .leave result => left result
  | .proceed state => through state

theorem upTo_self (last : Nat) : upTo last last = [] := by
  rw [upTo, Nat.sub_self, List.range'_zero]

theorem upTo_cons {first last : Nat} (below : first < last) :
    upTo first last = first :: upTo (first + 1) last := by
  have count : last - first = last - (first + 1) + 1 := by omega
  rw [upTo, count, List.range'_succ]
  rfl

theorem upTo_append {first last : Nat} (order : first ≤ last) :
    upTo first (last + 1) = upTo first last ++ [last] := by
  have count : last + 1 - first = last - first + 1 := by omega
  have length : first + 1 * (last - first) = last := by omega
  rw [upTo, count, List.range'_concat, length]
  rfl

theorem upTo_split {first middle last : Nat} (before : first ≤ middle) (behind : middle ≤ last) :
    upTo first last = upTo first middle ++ upTo middle last := by
  have count : last - first = (middle - first) + (last - middle) := by omega
  have start : first + 1 * (middle - first) = middle := by omega
  rw [upTo, upTo, upTo, count, ← List.range'_append, start]

theorem downFrom_succ (last : Nat) : downFrom (last + 1) = last :: downFrom last := by
  rw [downFrom, upTo_append (Nat.zero_le _), List.reverse_append]
  rfl

/-- An induction over the values of the counter, with what is left to count. -/
theorem upTo_induction {property : Nat → Prop} {first last : Nat} (order : first ≤ last)
    (ended : property last) (turn : ∀ i, first ≤ i → i < last → property (i + 1) → property i) :
    property first := by
  obtain ⟨count, rfl⟩ := Nat.exists_eq_add_of_le order
  induction count generalizing first with
  | zero => exact ended
  | succ count ih =>
    have total : first + (count + 1) = first + 1 + count := by omega
    apply turn first (Nat.le_refl _) (by omega)
    rw [total] at ended turn
    exact ih (by omega) ended fun i above below => turn i (by omega) below

section
variable {body : State → Nat → Option (Flow Result State)} {state : State} {i : Nat} {rest : List Nat}

theorem flowLoop_leave {result : Result} (turned : body state i = some (.leave result)) :
    flowLoop body (i :: rest) state = some (.leave result) := by
  rw [flowLoop, turned]
  rfl

theorem flowLoop_proceed {state' : State} (turned : body state i = some (.proceed state')) :
    flowLoop body (i :: rest) state = flowLoop body rest state' := by
  rw [flowLoop, turned]
  rfl

end

namespace Returns

variable (holds : Nat → State → Prop) {body : State → Nat → Option State} {state : State}

/-- A property that each turn carries from one value of the counter to the next. -/
theorem loop {first last : Nat} (order : first ≤ last) (start : holds first state)
    (turn : ∀ i state, first ≤ i → i < last → holds i state → Returns (body state i) (holds (i + 1))) :
    Returns ((upTo first last).foldlM body state) (holds last) := by
  let remains (i : Nat) : Prop := ∀ state, holds i state →
    Returns ((upTo i last).foldlM body state) (holds last)
  have ended : remains last := by
    intro state held
    rw [upTo_self]
    exact done held
  have whole : remains first := by
    refine upTo_induction order ended ?_
    intro i above below later state held
    rw [upTo_cons below]
    exact next (turn i state above below held) fun reached _ further => later reached further
  exact whole state start

/-- A loop is stuck where a turn that it gets to is. -/
theorem loop_stuck {first last stuck : Nat} (order : first ≤ stuck) (inside : stuck < last)
    (start : holds first state)
    (turn : ∀ i state, first ≤ i → i < stuck → holds i state → Returns (body state i) (holds (i + 1)))
    (none_there : ∀ state, holds stuck state → body state stuck = none) :
    (upTo first last).foldlM body state = none := by
  obtain ⟨reached, ran, held⟩ := loop holds order start turn
  rw [upTo_split order (Nat.le_of_lt inside), List.foldlM_append, ran, Option.bind_eq_bind,
    Option.bind_some, upTo_cons inside, List.foldlM_cons, none_there reached held]
  rfl

/-- Where every turn goes through or has no result, the loop goes through or stops in a turn. -/
theorem loop_or_stops (stops : Nat → State → Prop) {first last : Nat} (order : first ≤ last)
    (start : holds first state)
    (turn : ∀ i state, first ≤ i → i < last → holds i state →
      Returns (body state i) (holds (i + 1)) ∨ body state i = none ∧ stops i state) :
    Returns ((upTo first last).foldlM body state) (holds last) ∨
      (upTo first last).foldlM body state = none ∧
        ∃ i state, first ≤ i ∧ i < last ∧ holds i state ∧ stops i state := by
  let remains (i : Nat) : Prop := first ≤ i → ∀ state, holds i state →
    Returns ((upTo i last).foldlM body state) (holds last) ∨
      (upTo i last).foldlM body state = none ∧
        ∃ i state, first ≤ i ∧ i < last ∧ holds i state ∧ stops i state
  have ended : remains last := by
    intro _ state held
    rw [upTo_self]
    exact Or.inl (done held)
  have whole : remains first := by
    refine upTo_induction order ended ?_
    intro i above below later _ state held
    rw [upTo_cons below, List.foldlM_cons]
    rcases turn i state above below held with ⟨next, ran, further⟩ | ⟨stuck, stopped⟩
    · rw [ran]
      exact later (by omega) next further
    · rw [stuck]
      exact Or.inr ⟨rfl, i, state, above, below, held, stopped⟩
  exact whole (Nat.le_refl first) state start

/-- The property of the counter and the state where it is known that the loop has a result. -/
theorem loop_ran {first last : Nat} {result : State} (order : first ≤ last) (start : holds first state)
    (turn : ∀ i state next, first ≤ i → i < last → holds i state → body state i = some next →
      holds (i + 1) next) (ran : (upTo first last).foldlM body state = some result) :
    holds last result := by
  let remains (i : Nat) : Prop := first ≤ i → ∀ state, holds i state →
    (upTo i last).foldlM body state = some result → holds last result
  have ended : remains last := by
    intro _ state held ran
    rw [upTo_self] at ran
    exact Option.some.inj ran ▸ held
  have whole : remains first := by
    refine upTo_induction order ended ?_
    intro i above below later _ state held ran
    rw [upTo_cons below, List.foldlM_cons] at ran
    obtain ⟨next, turned, rest⟩ := Option.bind_eq_some_iff.mp ran
    exact later (by omega) next (turn i state next above below held turned) rest
  exact whole (Nat.le_refl first) state start ran

/-- A loop with a result has gone through all its turns. -/
theorem loop_turns (keeps : State → Prop) {first last : Nat} {result : State} (order : first ≤ last)
    (start : keeps state)
    (kept : ∀ i state next, keeps state → body state i = some next → keeps next)
    (ran : (upTo first last).foldlM body state = some result) :
    keeps result ∧ ∀ i, first ≤ i → i < last → ∃ state next, keeps state ∧ body state i = some next := by
  let remains (i : Nat) : Prop := ∀ state, keeps state → (upTo i last).foldlM body state = some result →
    keeps result ∧ ∀ j, i ≤ j → j < last → ∃ state next, keeps state ∧ body state j = some next
  have ended : remains last := by
    intro state held ran
    rw [upTo_self] at ran
    obtain rfl := Option.some.inj ran
    exact ⟨held, fun j above below => absurd below (Nat.not_lt.mpr above)⟩
  have whole : remains first := by
    refine upTo_induction order ended ?_
    intro i above below later state held ran
    rw [upTo_cons below, List.foldlM_cons] at ran
    obtain ⟨next, turned, rest⟩ := Option.bind_eq_some_iff.mp ran
    obtain ⟨holds, turns⟩ := later next (kept i state next held turned) rest
    refine ⟨holds, fun j above' below' => ?_⟩
    rcases Nat.lt_or_eq_of_le above' with behind | rfl
    · exact turns j behind below'
    · exact ⟨state, next, held, turned⟩
  exact whole state start ran

theorem loop_congr {body' : State → Nat → Option State} {first last : Nat} (order : first ≤ last)
    (same : ∀ i, first ≤ i → i < last → ∀ state, body state i = body' state i) (state : State) :
    (upTo first last).foldlM body state = (upTo first last).foldlM body' state := by
  let remains (i : Nat) : Prop := first ≤ i →
    ∀ state, (upTo i last).foldlM body state = (upTo i last).foldlM body' state
  have ended : remains last := by
    intro _ state
    rw [upTo_self]
    rfl
  have whole : remains first := by
    refine upTo_induction order ended ?_
    intro i above below later _ state
    rw [upTo_cons below, List.foldlM_cons, List.foldlM_cons, same i above below]
    exact congrArg _ (funext (later (Nat.le_succ_of_le above)))
  exact whole (Nat.le_refl first) state

/-- The same for a counter that runs down. -/
theorem loop_down {last : Nat} (start : holds last state)
    (turn : ∀ i state, i < last → holds (i + 1) state → Returns (body state i) (holds i)) :
    Returns ((downFrom last).foldlM body state) (holds 0) := by
  induction last generalizing state with
  | zero => exact done start
  | succ last ih =>
    rw [downFrom_succ]
    exact next (turn last state (Nat.lt_succ_self _) start) fun reached _ further =>
      ih further fun i state below => turn i state (Nat.lt_succ_of_lt below)

/-- The same for a body that may leave. -/
theorem flow (left : Result → Prop) {body : State → Nat → Option (Flow Result State)}
    {first last : Nat} (order : first ≤ last) (start : holds first state)
    (turn : ∀ i state, first ≤ i → i < last → holds i state →
      Returns (body state i) (Flow.Ends left (holds (i + 1)))) :
    Returns (flowLoop body (upTo first last) state) (Flow.Ends left (holds last)) := by
  let remains (i : Nat) : Prop := ∀ state, holds i state →
    Returns (flowLoop body (upTo i last) state) (Flow.Ends left (holds last))
  have ended : remains last := by
    intro state held
    rw [upTo_self]
    exact done held
  have whole : remains first := by
    refine upTo_induction order ended ?_
    intro i above below later state held
    rw [upTo_cons below, flowLoop]
    refine next (turn i state above below held) fun reached _ ends => ?_
    cases reached with
    | leave result => exact done ends
    | proceed state => exact later state ends
  exact whole state start

/-- The same where it is known that the loop has a result. -/
theorem flow_ran (left : Result → Prop) {body : State → Nat → Option (Flow Result State)}
    {first last : Nat} {result : Flow Result State} (order : first ≤ last) (start : holds first state)
    (turn : ∀ i state flow, first ≤ i → i < last → holds i state → body state i = some flow →
      Flow.Ends left (holds (i + 1)) flow)
    (ran : flowLoop body (upTo first last) state = some result) : Flow.Ends left (holds last) result := by
  let remains (i : Nat) : Prop := first ≤ i → ∀ state, holds i state →
    flowLoop body (upTo i last) state = some result → Flow.Ends left (holds last) result
  have ended : remains last := by
    intro _ state held ran
    rw [upTo_self] at ran
    exact Option.some.inj ran ▸ held
  have whole : remains first := by
    refine upTo_induction order ended ?_
    intro i above below later _ state held ran
    rw [upTo_cons below, flowLoop] at ran
    obtain ⟨flow, turned, rest⟩ := Option.bind_eq_some_iff.mp ran
    have ends := turn i state flow above below held turned
    cases flow with
    | leave result => exact Option.some.inj rest ▸ ends
    | proceed next => exact later (by omega) next ends rest
  exact whole (Nat.le_refl first) state start ran

/-- The same for a counter that runs down. -/
theorem flow_down (left : Result → Prop) {body : State → Nat → Option (Flow Result State)} {last : Nat}
    (start : holds last state) (turn : ∀ i state, i < last → holds (i + 1) state →
      Returns (body state i) (Flow.Ends left (holds i))) :
    Returns (flowLoop body (downFrom last) state) (Flow.Ends left (holds 0)) := by
  induction last generalizing state with
  | zero => exact done start
  | succ last ih =>
    rw [downFrom_succ, flowLoop]
    refine next (turn last state (Nat.lt_succ_self _) start) fun reached _ ends => ?_
    cases reached with
    | leave result => exact done ends
    | proceed state => exact ih ends fun i state below => turn i state (Nat.lt_succ_of_lt below)

/-- A weaker property. -/
theorem weaken {computation : Option Result} {property goal : Result → Prop}
    (returns : Returns computation property) (implies : ∀ result, property result → goal result) :
    Returns computation goal := by
  obtain ⟨result, same, holds⟩ := returns
  exact ⟨result, same, implies result holds⟩

end Returns

end Simuless.Foundation
