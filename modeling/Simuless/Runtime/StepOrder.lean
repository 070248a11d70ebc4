import Simuless.Runtime.StepFootprint

/-! The order in which nodes are stepped.

A caller writes some signals, steps nodes and reads signals, over and over. The
order of two steps matters only if one of them writes what the other touches.
-/

set_option autoImplicit false

namespace Simuless.Runtime

open Foundation

variable {Value : Type}

/-! The caller's writes. -/

section
variable (writes : List (Nat × (Nat → Value)))

theorem foldl_poke_edges (memory : Memory Value) :
    (writes.foldl (fun memory write => memory.poke write.1 write.2) memory).edges = memory.edges := by
  induction writes generalizing memory with
  | nil => rfl
  | cons write rest ih => exact ih _

/-- The cells after the writes depend on the cells before them only. -/
theorem foldl_poke_cells {left right : Memory Value}
    (same : left.cells = right.cells) :
    (writes.foldl (fun memory write => memory.poke write.1 write.2) left).cells =
      (writes.foldl (fun memory write => memory.poke write.1 write.2) right).cells := by
  induction writes generalizing left right with
  | nil => exact same
  | cons write rest ih =>
    apply ih
    simp only [Memory.poke, same]

end

variable [Zero Value] [Add Value] [Sub Value] [Mul Value] [Div Value] [BEq Value]

/-! Steps as changes of the cells. -/

section
variable (node : Node Value) (edges : Nat → Edge)

/-- The code of a step over these edges. -/
def stepCode : Int := ((nodeStep (some node) ⟨edges, fun _ => 0, []⟩).map Prod.fst).getD 0

/-- The cells after a step over these edges. -/
def stepCells (cells : Cell → Value) : Cell → Value :=
  ((nodeStep (some node) ⟨edges, cells, []⟩).map fun answer => answer.2.cells).getD cells

end

variable {memory : Memory Value}

/-- The trace has no part in what a step does. -/
theorem nodeStep_view (node : Node Value) (memory : Memory Value) :
    ∃ after, nodeStep (some node) memory = some (stepCode node memory.edges, after) ∧
      after.edges = memory.edges ∧ after.cells = stepCells node memory.edges memory.cells := by
  obtain ⟨code, after, bare, stepped, stepped', parallel⟩ :=
    nodeStep_parallel node memory ⟨memory.edges, memory.cells, []⟩ rfl
  obtain ⟨code', _, blank, stepped'', blanked, -⟩ :=
    nodeStep_parallel node memory ⟨memory.edges, fun _ => 0, []⟩ rfl
  cases stepped.symm.trans stepped''
  refine ⟨after, ?_, parallel.edges.1, ?_⟩
  · rw [stepCode, blanked]
    exact stepped
  · rw [stepCells, stepped']
    exact funext fun cell => parallel.depends (fun _ _ => rfl) cell rfl

theorem stepCells_confines (node : Node Value) (edges : Nat → Edge) :
    (node.footprint edges).Confines (stepCells node edges) := by
  have parallel (left right : Cell → Value) : ∃ left' right' : Memory Value,
      left'.cells = stepCells node edges left ∧ right'.cells = stepCells node edges right ∧
        Parallel node ⟨edges, left, []⟩ ⟨edges, right, []⟩ left' right' := by
    obtain ⟨code, left', right', stepped, stepped', parallel⟩ :=
      nodeStep_parallel node ⟨edges, left, []⟩ ⟨edges, right, []⟩ rfl
    exact ⟨left', right', by rw [stepCells, stepped]; rfl, by rw [stepCells, stepped']; rfl, parallel⟩
  constructor
  · intro store cell unwritten
    obtain ⟨after, _, cells, -, kept⟩ := parallel store store
    rw [← cells]
    exact kept.frame cell unwritten
  · intro left right read cell agree
    obtain ⟨left', right', cells, cells', kept⟩ := parallel left right
    rw [← cells, ← cells']
    exact kept.depends read cell agree

/-! Sequences of steps. -/

/-- The caller steps these nodes one after the other and collects the codes. -/
def stepAll : List (Node Value) → Memory Value → Option (List Int × Memory Value)
  | [], memory => some ([], memory)
  | node :: rest, memory => do
      let (code, memory) ← nodeStep (some node) memory
      let (codes, memory) ← stepAll rest memory
      return (code :: codes, memory)

theorem stepAll_view (nodes : List (Node Value)) (memory : Memory Value) :
    ∃ after, stepAll nodes memory =
        some (nodes.map fun node => stepCode node memory.edges, after) ∧
      after.edges = memory.edges ∧
      after.cells = nodes.foldl (fun cells node => stepCells node memory.edges cells) memory.cells := by
  induction nodes generalizing memory with
  | nil => exact ⟨memory, rfl, rfl, rfl⟩
  | cons node rest ih =>
    obtain ⟨next, stepped, edges, cells⟩ := nodeStep_view node memory
    obtain ⟨after, ran, edges', cells'⟩ := ih next
    refine ⟨after, ?_, edges'.trans edges, ?_⟩
    · simp only [stepAll, stepped, ran, Option.bind_eq_bind, Option.bind_some, edges]
      rfl
    · rw [cells', edges, cells]
      rfl

/-- One of the nodes writes what the other one touches. -/
def Node.Conflicts (edges : Nat → Edge) (first later : Node Value) : Prop :=
  (first.footprint edges).Conflicts (later.footprint edges)

/-- What a caller does between two readings: it writes some signals, then steps nodes. -/
structure Tick (Value : Type) where
  writes : List (Nat × (Nat → Value))
  order : List (Node Value)

/-- After a tick the caller has the codes and may read every cell. -/
def tick : Machine (Memory Value) (Tick Value) (List Int × (Cell → Value)) := fun memory turn => do
  let memory := turn.writes.foldl (fun memory write => memory.poke write.1 write.2) memory
  let (codes, memory) ← stepAll turn.order memory
  return ((codes, memory.cells), memory)

/-- The same writes and the same steps, where nodes in conflict keep their order. -/
structure Interchangeable (edges : Nat → Edge) (left right : Tick Value) : Prop where
  writes : left.writes = right.writes
  same : left.order.Perm right.order
  ordered : ∃ follows, Respects follows left.order ∧ Respects follows right.order ∧
    ∀ a ∈ left.order, ∀ b ∈ left.order, a.Conflicts edges b → a = b ∨ follows a b ∨ follows b a

theorem stepCells_order {edges : Nat → Edge} {left right : Tick Value}
    (interchangeable : Interchangeable edges left right) (cells : Cell → Value) :
    left.order.foldl (fun cells node => stepCells node edges cells) cells =
      right.order.foldl (fun cells node => stepCells node edges cells) cells := by
  obtain ⟨follows, first, second, oriented⟩ := interchangeable.ordered
  apply foldl_respects interchangeable.same first second
  intro a member b member'
  by_cases conflict : a.Conflicts edges b
  · exact .inr (oriented a member b member' conflict)
  · exact .inl fun cells =>
      (stepCells_confines a edges).commute (stepCells_confines b edges) conflict cells

/-- A scheduler may step nodes in any order that keeps the nodes in conflict in
order: tick by tick each node returns the same code and all cells are the same. -/
theorem schedule_irrelevant (memory : Memory Value) {left right : List (Tick Value)}
    (same : List.Forall₂ (Interchangeable memory.edges) left right) :
    ∃ (code : Node Value → Int) (contents : List (Cell → Value)) (final final' : Memory Value),
      contents.length = left.length ∧
      tick.run memory left =
        some (List.zipWith (fun turn cells => (turn.order.map code, cells)) left contents, final) ∧
      tick.run memory right =
        some (List.zipWith (fun turn cells => (turn.order.map code, cells)) right contents, final') := by
  suffices ∀ reached reached' : Memory Value, reached.edges = memory.edges →
      reached'.edges = memory.edges → reached.cells = reached'.cells →
      ∃ (contents : List (Cell → Value)) (final final' : Memory Value),
        contents.length = left.length ∧
        tick.run reached left = some (List.zipWith (fun turn cells =>
          (turn.order.map fun node => stepCode node memory.edges, cells)) left contents, final) ∧
        tick.run reached' right = some (List.zipWith (fun turn cells =>
          (turn.order.map fun node => stepCode node memory.edges, cells)) right contents, final') by
    obtain ⟨contents, final, final', length, ran, ran'⟩ := this memory memory rfl rfl rfl
    exact ⟨fun node => stepCode node memory.edges, contents, final, final', length, ran, ran'⟩
  induction same with
  | nil => exact fun reached reached' _ _ _ => ⟨[], reached, reached', rfl, rfl, rfl⟩
  | cons first rest ih =>
    rename_i turn turn' later later'
    intro reached reached' edges edges' cells
    obtain ⟨next, stepped, kept, computed⟩ := stepAll_view turn.order
      (turn.writes.foldl (fun memory write => memory.poke write.1 write.2) reached)
    obtain ⟨next', stepped', kept', computed'⟩ := stepAll_view turn'.order
      (turn'.writes.foldl (fun memory write => memory.poke write.1 write.2) reached')
    rw [foldl_poke_edges, edges] at stepped kept computed
    rw [foldl_poke_edges, edges'] at stepped' kept' computed'
    have together : next.cells = next'.cells := by
      rw [computed, computed', ← first.writes, foldl_poke_cells turn.writes cells,
        stepCells_order first]
    obtain ⟨contents, final, final', length, ran, ran'⟩ := ih next next' kept kept' together
    have turned : tick reached turn = some
        ((turn.order.map fun node => stepCode node memory.edges, next.cells), next) := by
      simp only [tick, stepped, Option.bind_eq_bind, Option.bind_some]
      rfl
    have turned' : tick reached' turn' = some
        ((turn'.order.map fun node => stepCode node memory.edges, next.cells), next') := by
      simp only [tick, stepped', Option.bind_eq_bind, Option.bind_some, together]
      rfl
    refine ⟨next.cells :: contents, final, final', ?_, ?_, ?_⟩
    · rw [List.length_cons, List.length_cons, length]
    · rw [Machine.run_cons turned, ran]
      rfl
    · rw [Machine.run_cons turned', ran']
      rfl

/-- A gain node between two edges. -/
def gainBetween (input output : Nat) : Node Int where
  id := input.toUInt16
  ops := some .gain
  inputs := fun _ => some input
  outputs := fun _ => some output
  param := some ⟨⟨2⟩, ⟨0⟩, ⟨none, none, 0, 0⟩⟩
  state := none
  prevTimestampUs := 0
  dt := 0

theorem gainBetween_apart {input output input' output' : Nat} (outputs : output ≠ output')
    (forward : output ≠ input') (backward : output' ≠ input) :
    ¬ (gainBetween input output).Conflicts (fun i => scalarEdge (some i))
      (gainBetween input' output') := by
  apply Node.apart
  · intro array target target'
    exact outputs (Option.some.inj (target.trans target'.symm))
  · intro array target source
    exact forward (Option.some.inj (target.trans source.symm))
  · intro array target source
    exact backward (Option.some.inj (target.trans source.symm))
  · intro cell own
    cases cell with
    | signal => exact False.elim own
    | accumulator | inputHist | outputHist => cases own.1

/-- Edges 0, 1, 2 are a chain; the node from 3 to 4 may be stepped at any time. -/
theorem schedule_irrelevant_chain :
    let left : Tick Int := ⟨[(0, fun _ => 5)], [gainBetween 0 1, gainBetween 1 2, gainBetween 3 4]⟩
    let right : Tick Int := ⟨[(0, fun _ => 5)], [gainBetween 3 4, gainBetween 0 1, gainBetween 1 2]⟩
    let memory : Memory Int := ⟨fun i => scalarEdge (some i), fun _ => 0, []⟩
    ∃ (code : Node Int → Int) (contents : List (Cell → Int)) (final final' : Memory Int),
      contents.length = 2 ∧
      tick.run memory [left, right] = some (List.zipWith
        (fun turn cells => (turn.order.map code, cells)) [left, right] contents, final) ∧
      tick.run memory [right, left] = some (List.zipWith
        (fun turn cells => (turn.order.map code, cells)) [right, left] contents, final') := by
  intro left right memory
  let follows (first later : Node Int) : Prop := first.id = 1 ∧ later.id = 0
  have rotated : left.order.Perm right.order :=
    (List.perm_append_singleton (gainBetween 3 4) [gainBetween 0 1, gainBetween 1 2])
  have first : Respects follows left.order := by
    simp [left, Respects, follows, gainBetween]
  have second : Respects follows right.order := by
    simp [right, Respects, follows, gainBetween]
  have oriented : ∀ a ∈ left.order, ∀ b ∈ left.order, a.Conflicts memory.edges b →
      a = b ∨ follows a b ∨ follows b a := by
    intro a member b member' conflict
    simp only [left, List.mem_cons, List.not_mem_nil, or_false] at member member'
    rcases member with rfl | rfl | rfl <;> rcases member' with rfl | rfl | rfl
    · exact .inl rfl
    · exact .inr (.inr ⟨rfl, rfl⟩)
    · exact absurd conflict (gainBetween_apart (by decide) (by decide) (by decide))
    · exact .inr (.inl ⟨rfl, rfl⟩)
    · exact .inl rfl
    · exact absurd conflict (gainBetween_apart (by decide) (by decide) (by decide))
    · exact absurd conflict (gainBetween_apart (by decide) (by decide) (by decide))
    · exact absurd conflict (gainBetween_apart (by decide) (by decide) (by decide))
    · exact .inl rfl
  have there : Interchangeable memory.edges left right :=
    ⟨rfl, rotated, follows, first, second, oriented⟩
  have back : Interchangeable memory.edges right left := by
    refine ⟨rfl, rotated.symm, follows, second, first, fun a member b member' => ?_⟩
    exact oriented a (rotated.symm.subset member) b (rotated.symm.subset member')
  exact schedule_irrelevant memory (.cons there (.cons back .nil))

end Simuless.Runtime
