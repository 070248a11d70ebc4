import Simuless.Runtime.Filter

/-! Networks of nodes.

The caller writes one input signal, steps nodes that have no state in common and
reads signals, over and over. Arrays may be used again once they were read. The
response from the input to a signal is the product of the nodes on the way.
-/

set_option autoImplicit false

namespace Simuless.Runtime

open Foundation PowerSeries

variable {K : Type} [Field K]

/-- The responses to each array after one more node, as far as they are known. -/
noncomputable def reach (edges : Nat → Edge) (known : Nat → Option K⟦X⟧) (node : Node K) :
    Nat → Option K⟦X⟧ :=
  match node.source edges, node.target edges with
  | some source, some target =>
      Function.update known target ((known source).map (node.equation.transfer * ·))
  | _, _ => known

/-- The caller's input is known when a tick begins. -/
noncomputable def fromInput (input : Nat) : Nat → Option K⟦X⟧ :=
  Function.update (fun _ => none) input (some 1)

noncomputable def responses (edges : Nat → Edge) (input : Nat) (nodes : List (Node K)) :
    Nat → Option K⟦X⟧ := nodes.foldl (reach edges) (fromInput input)

/-- The nodes have no state in common. -/
def Unshared (edges : Nat → Edge) (first later : Node K) : Prop :=
  ∀ cell, first.Owns edges cell → ¬ later.Owns edges cell

/-- The known signals hold the current samples of their responses. -/
def Carries (memory : Memory K) (lanes : Nat) (before : List (Nat → K)) (values : Nat → K)
    (known : Nat → Option K⟦X⟧) : Prop :=
  ∀ array response, known array = some response → ∀ i < lanes,
    memory.cells (.signal array i) =
      coeff before.length (response * signal (lane (before ++ [values]) i))

variable {memory other : Memory K} {lanes : Nat} {before : List (Nat → K)} {values : Nat → K}
  {known : Nat → Option K⟦X⟧} {nodes : List (Node K)}

/-- A node that reads a known signal has received the response to one more input. -/
theorem Carries.received (shows : Carries memory lanes before values known) {source : Nat}
    {response : K⟦X⟧} (arrived : known source = some response) {received : List (Nat → K)} {i : Nat}
    (inside : i < lanes) (answers : lane received i = respond response (lane before i)) :
    lane (received ++ [fun i => memory.cells (.signal source i)]) i =
      respond response (lane (before ++ [values]) i) := by
  rw [lane_concat, lane_concat, respond_concat, answers, shows source response arrived i inside,
    lane_concat, length_lane]

/-- The caller's input is known when it was written. -/
theorem carries_poked (memory : Memory K) (input : Nat) :
    Carries (memory.poke input values) lanes before values (fromInput input) := by
  intro array response arrived i inside
  by_cases written : array = input
  · subst written
    rw [fromInput, Function.update_self, Option.some.injEq] at arrived
    subst arrived
    rw [memory.poke_signal, one_mul, coeff_signal, lane_concat,
      List.getD_append_right _ _ _ _ (length_lane before i).le, length_lane, Nat.sub_self]
    rfl
  · rw [fromInput, Function.update_of_ne written] at arrived
    cases arrived

variable [DecidableEq K]

/-- What the nodes have received are the responses to the inputs before. -/
def Tracks (memory : Memory K) (lanes : Nat) (before : List (Nat → K)) :
    (known : Nat → Option K⟦X⟧) → List (Node K) → Prop
  | _, [] => True
  | known, node :: rest =>
      (∃ received, Settled node memory received ∧ received.length = before.length ∧
        ∀ source response, node.source memory.edges = some source → known source = some response →
          ∀ i < lanes, lane received i = respond response (lane before i)) ∧
      Tracks memory lanes before (reach memory.edges known node) rest

theorem Tracks.congr (tracks : Tracks memory lanes before known nodes)
    (same : other.edges = memory.edges) (owned : ∀ node ∈ nodes, ∀ cell,
      node.Owns memory.edges cell → other.cells cell = memory.cells cell) :
    Tracks other lanes before known nodes := by
  induction nodes generalizing known with
  | nil => trivial
  | cons node rest ih =>
    obtain ⟨⟨received, settled, length, answers⟩, tracks⟩ := tracks
    rw [Tracks, same]
    refine ⟨⟨received, ?_, length, answers⟩, ?_⟩
    · exact settled.congr same (owned node List.mem_cons_self)
    · exact ih tracks fun later member => owned later (List.mem_cons_of_mem node member)

/-- A step changes the state of its node and its output signal. -/
theorem nodeStep_frame {node : Node K} {code : Int} {after : Memory K}
    (stepped : nodeStep (some node) memory = some (code, after)) {cell : Cell}
    (foreign : ¬ node.Owns memory.edges cell)
    (other : ∀ array i, node.target memory.edges = some array → cell ≠ .signal array i) :
    after.cells cell = memory.cells cell := by
  obtain ⟨after', stepped', -, cells⟩ := nodeStep_view node memory
  cases stepped.symm.trans stepped'
  rw [cells]
  apply (stepCells_confines node memory.edges).frame
  rintro (own | ⟨array, i, equal, target, -⟩)
  · exact foreign own
  · exact other array i target equal

theorem Advanced.carries {node : Node K} {received : List (Nat → K)} {source target : Nat}
    {after : Memory K} (advanced : Advanced node memory received source target after)
    (length : received.length = before.length) (wide : lanes ≤ node.extent memory.edges)
    (shows : Carries memory lanes before values known)
    (answers : ∀ response, known source = some response →
      ∀ i < lanes, lane received i = respond response (lane before i)) :
    Carries after lanes before values (reach memory.edges known node) := by
  intro array response arrived i inside
  simp only [reach, advanced.source_eq, advanced.target_eq] at arrived
  by_cases written : array = target
  · subst written
    rw [Function.update_self, Option.map_eq_some_iff] at arrived
    obtain ⟨inner, arrived, rfl⟩ := arrived
    rw [advanced.output i (inside.trans_le wide), shows.received arrived inside
      (answers inner arrived i inside), length, mul_assoc]
    apply signal_respond.mul_left
    rw [length_lane, List.length_append]
    exact Nat.lt_succ_self _
  · rw [Function.update_of_ne written] at arrived
    rw [← shows array response arrived i inside]
    apply nodeStep_frame advanced.stepped
    · exact fun own => own
    · intro other j target equal
      cases equal
      exact written (Option.some.inj (target.symm.trans advanced.target_eq))

/-- One round through the nodes. -/
theorem stepAll_tracks (apart : nodes.Pairwise (Unshared memory.edges))
    (wide : ∀ node ∈ nodes, lanes ≤ node.extent memory.edges)
    (tracks : Tracks memory lanes before known nodes) (shows : Carries memory lanes before values known) :
    ∃ after, stepAll nodes memory = some (nodes.map fun _ => 0, after) ∧
      after.edges = memory.edges ∧ Tracks after lanes (before ++ [values]) known nodes ∧
      Carries after lanes before values (nodes.foldl (reach memory.edges) known) ∧
      ∀ cell, (∀ node ∈ nodes, ¬ node.Owns memory.edges cell) → (∀ array i, cell ≠ .signal array i) →
        after.cells cell = memory.cells cell := by
  induction nodes generalizing memory known with
  | nil => exact ⟨memory, rfl, rfl, trivial, shows, fun _ _ _ => rfl⟩
  | cons node rest ih =>
    obtain ⟨⟨received, settled, length, answers⟩, tracks⟩ := tracks
    obtain ⟨foreign, apart⟩ := List.pairwise_cons.mp apart
    obtain ⟨source, target, next, advanced⟩ := settled.advance
    have same := advanced.edges
    have shown := advanced.carries length (wide node List.mem_cons_self) shows fun response arrived =>
      answers source response advanced.source_eq arrived
    -- the step leaves the states of the other nodes alone
    have kept : ∀ later ∈ rest, ∀ cell, later.Owns memory.edges cell →
        next.cells cell = memory.cells cell := by
      intro later member cell own
      apply nodeStep_frame advanced.stepped
      · exact fun mine => foreign later member cell mine own
      · rintro array i - rfl
        exact own
    obtain ⟨after, ran, edges, tracked, shown, others⟩ := ih (same.symm ▸ apart)
      (fun later member => same.symm ▸ wide later (List.mem_cons_of_mem node member))
      (tracks.congr same kept) shown
    rw [same] at edges others shown
    refine ⟨after, ?_, edges, ⟨⟨received ++ [fun i => memory.cells (.signal source i)], ?_, ?_, ?_⟩, ?_⟩,
      shown, ?_⟩
    · simp only [stepAll, advanced.stepped, ran, Option.bind_eq_bind, Option.bind_some]
      rfl
    · apply advanced.settled.congr (edges.trans same.symm)
      intro cell own
      rw [same] at own
      apply others
      · intro later member mine
        exact foreign later member cell own mine
      · rintro array i rfl
        exact own
    · rw [List.length_append, List.length_append, length]
      rfl
    · intro origin response bound arrived i inside
      rw [edges, advanced.source_eq] at bound
      cases bound
      exact shows.received arrived inside
        (answers source response advanced.source_eq arrived i inside)
    · rw [edges]
      exact tracked
    · intro cell foreigners noSignal
      rw [others cell (fun later member => foreigners later (List.mem_cons_of_mem node member)) noSignal]
      exact nodeStep_frame advanced.stepped (foreigners node List.mem_cons_self)
        fun array i _ => noSignal array i

/-! Runs of a network. -/

/-- Nodes at rest with separate states, for signals of at least so many elements. -/
structure Network (memory : Memory K) (lanes : Nat) (nodes : List (Node K)) : Prop where
  rest : ∀ node ∈ nodes, AtRest node memory
  wide : ∀ node ∈ nodes, lanes ≤ node.extent memory.edges
  apart : nodes.Pairwise (Unshared memory.edges)

theorem Network.tracks (rest : ∀ node ∈ nodes, AtRest node memory) :
    Tracks memory lanes [] known nodes := by
  induction nodes generalizing known with
  | nil => trivial
  | cons node later ih =>
    refine ⟨⟨[], (rest node List.mem_cons_self).settled, rfl, fun _ _ _ _ _ _ => rfl⟩, ?_⟩
    exact ih fun other member => rest other (List.mem_cons_of_mem node member)

/-- In every tick the caller writes the input and steps the nodes in this order. -/
def sampled (input : Nat) (nodes : List (Node K)) :
    Machine (Memory K) (Nat → K) (List Int × (Cell → K)) := fun memory values =>
  tick memory ⟨[(input, values)], nodes⟩

/-- After these inputs every known signal has shown its response. -/
structure Answered (start : Memory K) (lanes input : Nat) (nodes : List (Node K))
    (before : List (Nat → K)) (answers : List (List Int × (Cell → K))) (reached : Memory K) :
    Prop where
  edges : reached.edges = start.edges
  tracks : Tracks reached lanes before (fromInput input) nodes
  codes : ∀ answer ∈ answers, answer.1 = nodes.map fun _ => 0
  length : answers.length = before.length
  shown : ∀ array response, responses start.edges input nodes array = some response → ∀ i < lanes,
    answers.map (fun answer => answer.2 (.signal array i)) = respond response (lane before i)

theorem Answered.advance {start reached : Memory K} {input : Nat}
    (network : Network start lanes nodes) {answers : List (List Int × (Cell → K))}
    (answered : Answered start lanes input nodes before answers reached) (values : Nat → K) :
    ∃ answer next, sampled input nodes reached values = some (answer, next) ∧
      Answered start lanes input nodes (before ++ [values]) (answers ++ [answer]) next := by
  obtain ⟨edges, tracks, codes, length, shown⟩ := answered
  have unowned : ∀ node ∈ nodes, ∀ cell, node.Owns reached.edges cell →
      (reached.poke input values).cells cell = reached.cells cell := by
    intro node _ cell own
    cases cell with
    | signal => exact absurd own fun none => none
    | accumulator | inputHist | outputHist => rfl
  have edges' : (reached.poke input values).edges = start.edges := edges
  have poked : Tracks (reached.poke input values) lanes before (fromInput input) nodes :=
    tracks.congr rfl unowned
  obtain ⟨next, ran, kept, tracked, current, -⟩ := stepAll_tracks (edges' ▸ network.apart)
    (edges' ▸ network.wide) poked (carries_poked reached input)
  rw [edges'] at kept current
  refine ⟨(nodes.map fun _ => 0, next.cells), next, ?_, kept, tracked, ?_, ?_, ?_⟩
  · simp only [sampled, tick, List.foldl_cons, List.foldl_nil, ran, Option.bind_eq_bind,
      Option.bind_some]
    rfl
  · intro answer member
    rcases List.mem_append.mp member with member | member
    · exact codes answer member
    · rw [List.mem_singleton.mp member]
  · rw [List.length_append, List.length_append, length]
    rfl
  · intro array response arrived i inside
    rw [List.map_append, shown array response arrived i inside, lane_concat, respond_concat,
      length_lane, ← lane_concat, ← current array response arrived i inside]
    rfl

theorem Network.answered (network : Network memory lanes nodes) (input : Nat)
    (xs : List (Nat → K)) : ∃ answers final, (sampled input nodes).run memory xs =
      some (answers, final) ∧ Answered memory lanes input nodes xs answers final := by
  have start : Answered memory lanes input nodes [] [] memory :=
    ⟨rfl, Network.tracks network.rest, fun _ member => (List.not_mem_nil member).elim, rfl,
      fun _ _ _ _ _ => rfl⟩
  exact Machine.run_history (fun _ _ _ held => held.advance network) [] [] start xs

/-- A node between two scalar edges whose state is in the arrays of this number. -/
def stage (ops : OpsRef) (number input output : Nat) (param : DiffEqParam ℚ) : Node ℚ where
  id := number.toUInt16
  ops := some ops
  inputs := fun _ => some input
  outputs := fun _ => some output
  param := some ⟨⟨3⟩, ⟨0⟩, param⟩
  state := some ⟨⟨some number, 1⟩, ⟨some number, some number⟩⟩
  prevTimestampUs := 0
  dt := 1

/-- `y[k] = x[k] - y[k-1]`. -/
def alternating : DiffEqParam ℚ := ⟨some fun _ => 1, some fun _ => 1, 1, 2⟩

end Simuless.Runtime
