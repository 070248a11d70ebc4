import Simuless.Foundation.Scanner

/-! Scanning through a bounded window that forgets its oldest symbols.

A session records the stream that arrived, the part of it still held and the
blocks taken so far, each with the stream position where it starts. Feeding
more than the window holds loses the oldest symbols; whatever is lost, a block
taken later is still a contiguous part of the stream behind every earlier one.
-/

set_option autoImplicit false

namespace Simuless.Foundation

inductive Event (Symbol : Type) where
  | feed (chunk : List Symbol)
  | pull

def Event.chunk {Symbol : Type} : Event Symbol → Option (List Symbol)
  | .feed chunk => some chunk
  | .pull => none

/-- A block, where in the stream it starts and how much of the stream had
arrived when it was taken. -/
structure Delivery (Symbol : Type) where
  start : Nat
  arrived : Nat
  block : List Symbol

def Delivery.stop {Symbol : Type} (delivery : Delivery Symbol) : Nat :=
  delivery.start + delivery.block.length

structure Session (Symbol : Type) where
  stream : List Symbol
  window : List Symbol
  deliveries : List (Delivery Symbol)

namespace Session

variable {Symbol : Type} (scanner : Scanner Symbol) (capacity : Nat)

def fresh : Session Symbol := ⟨[], [], []⟩

def blocks (session : Session Symbol) : List (List Symbol) := session.deliveries.map (·.block)

def step (session : Session Symbol) : Event Symbol → Session Symbol
  | .feed chunk =>
      { session with
        stream := session.stream ++ chunk
        window := (session.window ++ chunk).rtake capacity }
  | .pull =>
      match scanner.pull session.window with
      | (none, rest) => { session with window := rest }
      | (some block, rest) =>
          { session with
            window := rest
            deliveries := session.deliveries ++
              [⟨session.stream.length - rest.length - block.length, session.stream.length, block⟩] }

def run (session : Session Symbol) (events : List (Event Symbol)) : Session Symbol :=
  events.foldl (step scanner capacity) session

theorem run_append (session : Session Symbol) (events later : List (Event Symbol)) :
    run scanner capacity session (events ++ later) =
      run scanner capacity (run scanner capacity session events) later :=
  List.foldl_append

theorem rtake_suffix (symbols : List Symbol) (count : Nat) : symbols.rtake count <:+ symbols :=
  List.drop_suffix _ symbols

theorem length_rtake_le (symbols : List Symbol) (count : Nat) :
    (symbols.rtake count).length ≤ count := by
  simp only [List.rtake, List.length_drop]
  omega

theorem rtake_of_le (symbols : List Symbol) (count : Nat) (fits : symbols.length ≤ count) :
    symbols.rtake count = symbols := by
  rw [List.rtake, Nat.sub_eq_zero_of_le fits, List.drop_zero]

/-- Forgetting as symbols come in leaves what forgetting at the end leaves. -/
theorem rtake_rtake_append (symbols later : List Symbol) (count : Nat) :
    (symbols.rtake count ++ later).rtake count = (symbols ++ later).rtake count := by
  have gone : symbols.length - count ≤ symbols.length := Nat.sub_le _ _
  simp only [List.rtake]
  rw [← List.drop_append_of_le_length gone, List.drop_drop, List.length_drop]
  congr 1
  simp only [List.length_append]
  omega

/-- The invariant of every session, whatever was fed and lost. -/
structure Sound (session : Session Symbol) : Prop where
  bounded : session.window.length ≤ capacity
  held : session.window <:+ session.stream
  occurs : ∀ delivery ∈ session.deliveries,
    (session.stream.drop delivery.start).take delivery.block.length = delivery.block
  accepted : ∀ delivery ∈ session.deliveries,
    scanner.decide delivery.block = .accept delivery.block.length
  complete : ∀ delivery ∈ session.deliveries, delivery.stop ≤ delivery.arrived
  recent : ∀ delivery ∈ session.deliveries, delivery.arrived ≤ delivery.start + capacity
  consumed : ∀ delivery ∈ session.deliveries,
    delivery.stop + session.window.length ≤ session.stream.length
  ordered : session.deliveries.Pairwise fun first later => first.stop ≤ later.start

theorem fresh_sound : Sound scanner capacity (fresh : Session Symbol) where
  bounded := Nat.zero_le _
  held := List.suffix_rfl
  occurs _ member := by cases member
  accepted _ member := by cases member
  complete _ member := by cases member
  recent _ member := by cases member
  consumed _ member := by cases member
  ordered := .nil

variable {scanner capacity}

/-- Growing the stream behind the window leaves every delivery in place. -/
theorem Sound.feed {session : Session Symbol} (sound : Sound scanner capacity session)
    (chunk : List Symbol) : Sound scanner capacity (step scanner capacity session (.feed chunk)) where
  bounded := length_rtake_le _ _
  held := by
    obtain ⟨gone, whole⟩ := sound.held
    refine (rtake_suffix _ _).trans ⟨gone, ?_⟩
    show gone ++ (session.window ++ chunk) = session.stream ++ chunk
    rw [← whole, List.append_assoc]
  occurs delivery member := by
    have consumed := sound.consumed delivery member
    have inside : delivery.start ≤ session.stream.length := by
      simp only [Delivery.stop] at consumed
      omega
    have room : delivery.block.length ≤ (session.stream.drop delivery.start).length := by
      simp only [Delivery.stop] at consumed
      rw [List.length_drop]
      omega
    simp only [step]
    rw [List.drop_append_of_le_length inside, List.take_append_of_le_length room]
    exact sound.occurs delivery member
  accepted := sound.accepted
  complete := sound.complete
  recent := sound.recent
  consumed delivery member := by
    have consumed := sound.consumed delivery member
    have shorter := (rtake_suffix (session.window ++ chunk) capacity).length_le
    simp only [step, List.length_append] at shorter ⊢
    omega
  ordered := sound.ordered

/-- A block pulled from the window starts behind everything already consumed. -/
theorem Sound.pull {session : Session Symbol} (sound : Sound scanner capacity session) :
    Sound scanner capacity (step scanner capacity session .pull) := by
  have streamLength := sound.held.length_le
  have bounded := sound.bounded
  rcases scanner.pull_cases session.window with
    ⟨rest, pulled, -, tail⟩ | ⟨block, rest, pulled, tail, alone⟩
  · have shorter := tail.length_le
    simp only [step, pulled]
    exact {
      bounded := shorter.trans bounded
      held := tail.trans sound.held
      occurs := sound.occurs
      accepted := sound.accepted
      complete := sound.complete
      recent := sound.recent
      consumed := fun delivery member =>
        (Nat.add_le_add_left shorter _).trans (sound.consumed delivery member)
      ordered := sound.ordered }
  · have shorter := tail.length_le
    rw [List.length_append] at shorter
    obtain ⟨gone, whole⟩ := tail.trans sound.held
    have lengths := congrArg List.length whole
    simp only [List.length_append] at lengths
    have start : session.stream.length - rest.length - block.length = gone.length := by omega
    simp only [step, pulled, start]
    -- what held of the old deliveries has to be shown for the new one only
    have added : ∀ {property : Delivery Symbol → Prop},
        (∀ delivery ∈ session.deliveries, property delivery) →
        property ⟨gone.length, session.stream.length, block⟩ →
        ∀ delivery ∈ session.deliveries ++ [⟨gone.length, session.stream.length, block⟩],
          property delivery := by
      intro property old new delivery member
      rcases List.mem_append.mp member with member | member
      · exact old delivery member
      · exact (List.mem_singleton.mp member) ▸ new
    exact {
      bounded := by
        show rest.length ≤ capacity
        omega
      held := ⟨gone ++ block, by rw [List.append_assoc, whole]⟩
      occurs := added sound.occurs (by
        rw [← whole, List.drop_left, List.take_left])
      accepted := added sound.accepted alone
      complete := added sound.complete (by
        simp only [Delivery.stop]
        omega)
      recent := added sound.recent (by
        show session.stream.length ≤ gone.length + capacity
        omega)
      consumed := added
        (fun delivery member => by
          have := sound.consumed delivery member
          show delivery.stop + rest.length ≤ session.stream.length
          omega)
        (by
          simp only [Delivery.stop]
          omega)
      ordered := by
        refine List.pairwise_append.mpr ⟨sound.ordered, List.pairwise_singleton _ _, ?_⟩
        intro delivery member new newMember
        rw [List.mem_singleton.mp newMember]
        have := sound.consumed delivery member
        show delivery.stop ≤ gone.length
        omega }

theorem Sound.step {session : Session Symbol} (sound : Sound scanner capacity session)
    (event : Event Symbol) : Sound scanner capacity (step scanner capacity session event) := by
  cases event with
  | feed chunk => exact sound.feed chunk
  | pull => exact sound.pull

theorem Sound.run {session : Session Symbol} (sound : Sound scanner capacity session)
    (events : List (Event Symbol)) : Sound scanner capacity (run scanner capacity session events) := by
  induction events generalizing session with
  | nil => exact sound
  | cons event rest ih => exact ih (sound.step event)

def chunks (events : List (Event Symbol)) : List (List Symbol) := events.filterMap Event.chunk

variable (scanner capacity) in
theorem run_stream (session : Session Symbol) (events : List (Event Symbol)) :
    (run scanner capacity session events).stream =
      session.stream ++ (chunks events).flatten := by
  induction events generalizing session with
  | nil => exact (List.append_nil _).symm
  | cons event rest ih =>
    refine (ih (Session.step scanner capacity session event)).trans ?_
    cases event with
    | feed chunk => exact List.append_assoc _ _ _
    | pull =>
      simp only [Session.step]
      split <;> rfl

/-- Blocks are taken between feeds, when whole chunks have arrived. -/
theorem arrived_boundary (events : List (Event Symbol)) :
    ∀ delivery ∈ (run scanner capacity fresh events).deliveries,
      ∃ fed, fed <+: chunks events ∧ delivery.arrived = fed.flatten.length := by
  induction events using List.reverseRecOn with
  | nil => intro delivery member; cases member
  | append_singleton events event ih =>
    intro delivery member
    rw [run_append] at member
    have older : chunks events <+: chunks (events ++ [event]) := by
      rw [chunks, chunks, List.filterMap_append]
      exact List.prefix_append _ _
    have earlier : delivery ∈ (run scanner capacity fresh events).deliveries →
        ∃ fed, fed <+: chunks (events ++ [event]) ∧ delivery.arrived = fed.flatten.length := by
      intro present
      obtain ⟨fed, arrived, same⟩ := ih delivery present
      exact ⟨fed, arrived.trans older, same⟩
    cases event with
    | feed chunk => exact earlier member
    | pull =>
      simp only [run, List.foldl_cons, List.foldl_nil, Session.step] at member
      split at member
      · exact earlier member
      · rcases List.mem_append.mp member with member | member
        · exact earlier member
        · refine ⟨chunks events, older, ?_⟩
          have whole := run_stream scanner capacity fresh events
          rw [List.mem_singleton.mp member]
          exact congrArg List.length whole

/-! Without loss the session is a scan of the whole stream. -/

/-- An event that loses nothing from the window. -/
def Fits (capacity : Nat) (session : Session Symbol) : Event Symbol → Prop
  | .feed chunk => session.window.length + chunk.length ≤ capacity
  | .pull => True

variable (scanner capacity) in
def Lossless (session : Session Symbol) : List (Event Symbol) → Prop
  | [] => True
  | event :: rest => Fits capacity session event ∧ Lossless (step scanner capacity session event) rest

variable (scanner) in
/-- What was delivered and what the window still gives is the scan of the stream. -/
def Agrees (session : Session Symbol) : Prop :=
  scanner.scan session.stream =
    (session.blocks ++ (scanner.scan session.window).1, (scanner.scan session.window).2)

theorem fresh_agrees : Agrees scanner (fresh : Session Symbol) := rfl

theorem Agrees.step {session : Session Symbol} (agrees : Agrees scanner session)
    (event : Event Symbol) (fits : Fits capacity session event) :
    Agrees scanner (step scanner capacity session event) := by
  cases event with
  | feed chunk =>
    -- nothing is forgotten
    have kept : (session.window ++ chunk).rtake capacity = session.window ++ chunk :=
      rtake_of_le _ _ (by rw [List.length_append]; exact fits)
    simp only [Agrees, Session.step, kept] at agrees ⊢
    rw [scanner.scan_append session.stream chunk, scanner.scan_append session.window chunk, agrees]
    simp only [blocks, List.append_assoc]
  | pull =>
    unfold Agrees at agrees ⊢
    simp only [Session.step]
    split
    · next rest pulled =>
      rw [agrees, scanner.scan_pull session.window, pulled]
      -- what the pull has left waits, so scanning it once more finds nothing
      have waits := scanner.scan_remainder session.window
      rw [scanner.scan_pull_none pulled] at waits
      simp only [Scanner.scan_wait waits, blocks]
    · next block rest pulled =>
      rw [agrees, scanner.scan_pull_some pulled]
      simp only [blocks, List.map_append, List.map_cons, List.map_nil, List.append_assoc,
        List.singleton_append]

theorem Agrees.run {session : Session Symbol} (agrees : Agrees scanner session)
    (events : List (Event Symbol)) (lossless : Lossless scanner capacity session events) :
    Agrees scanner (run scanner capacity session events) := by
  induction events generalizing session with
  | nil => exact agrees
  | cons event rest ih => exact ih (agrees.step event lossless.1) lossless.2

/-! Draining: pulling until nothing comes. -/

variable (scanner capacity) in
/-- Finitely many pulls take everything a scan of the window finds. -/
theorem drain_pulls (session : Session Symbol) :
    ∃ count, (run scanner capacity session (List.replicate count .pull)).blocks =
        session.blocks ++ (scanner.scan session.window).1 ∧
      (run scanner capacity session (List.replicate count .pull)).window =
        (scanner.scan session.window).2 := by
  induction size : session.window.length using Nat.strong_induction_on generalizing session with
  | _ size ih =>
    subst size
    rcases scanner.pull_cases session.window with
      ⟨rest, pulled, -, -⟩ | ⟨block, rest, pulled, -, -⟩
    · refine ⟨1, ?_⟩
      simp only [Session.run, List.replicate_one, List.foldl_cons, List.foldl_nil, Session.step,
        pulled, scanner.scan_pull_none pulled, List.append_nil]
      exact ⟨rfl, trivial⟩
    · have shorter := (scanner.pull_accepted pulled).2
      let next := Session.step scanner capacity session .pull
      have window : next.window = rest := by simp only [next, Session.step, pulled]
      have blocks : next.blocks = session.blocks ++ [block] := by
        simp only [next, Session.step, pulled, Session.blocks, List.map_append, List.map_cons,
          List.map_nil]
      obtain ⟨count, taken, left⟩ := ih next.window.length (window ▸ shorter) next rfl
      refine ⟨count + 1, ?_⟩
      simp only [scanner.scan_pull_some pulled]
      rw [window] at taken left
      rw [blocks, List.append_assoc, List.singleton_append] at taken
      exact ⟨taken, left⟩

/-! Pumping: draining the window after every chunk. -/

variable (scanner capacity) in
def pump (window : List Symbol) : List (List Symbol) → List (List Symbol) × List Symbol
  | [] => ([], window)
  | chunk :: rest =>
      let taken := scanner.scan ((window ++ chunk).rtake capacity)
      let more := pump taken.2 rest
      (taken.1 ++ more.1, more.2)

variable (scanner capacity) in
/-- Pumping is a session that feeds these chunks and pulls in between. -/
theorem pump_events (session : Session Symbol) (pieces : List (List Symbol)) :
    ∃ events, chunks events = pieces ∧
      (run scanner capacity session events).blocks =
        session.blocks ++ (pump scanner capacity session.window pieces).1 ∧
      (run scanner capacity session events).window =
        (pump scanner capacity session.window pieces).2 := by
  induction pieces generalizing session with
  | nil => exact ⟨[], rfl, (List.append_nil _).symm, rfl⟩
  | cons piece rest ih =>
    let fed := Session.step scanner capacity session (.feed piece)
    obtain ⟨count, taken, left⟩ := drain_pulls scanner capacity fed
    let drained := Session.run scanner capacity fed (List.replicate count .pull)
    obtain ⟨events, same, blocks, window⟩ := ih drained
    have pulls : chunks (List.replicate count (Event.pull : Event Symbol)) = [] := by
      simp [chunks, Event.chunk]
    refine ⟨.feed piece :: (List.replicate count .pull ++ events), ?_, ?_, ?_⟩
    · show piece :: chunks (List.replicate count .pull ++ events) = piece :: rest
      rw [chunks, List.filterMap_append, ← chunks, ← chunks, pulls, same, List.nil_append]
    all_goals
      have path : Session.run scanner capacity session
          (.feed piece :: (List.replicate count .pull ++ events)) =
            Session.run scanner capacity drained events :=
        run_append scanner capacity fed _ events
      rw [path]
    · rw [blocks, taken, left, List.append_assoc]
      rfl
    · rw [window, left]
      rfl

/-- No chunk overflows the window it is added to. -/
def Spacious (scanner : Scanner Symbol) (capacity : Nat) (window : List Symbol) :
    List (List Symbol) → Prop
  | [] => True
  | chunk :: rest =>
      window.length + chunk.length ≤ capacity ∧
        Spacious scanner capacity (scanner.scan (window ++ chunk)).2 rest

theorem pump_spacious {window : List Symbol} (waits : scanner.decide window = .wait)
    (pieces : List (List Symbol)) (spacious : Spacious scanner capacity window pieces) :
    pump scanner capacity window pieces = scanner.scan (window ++ pieces.flatten) := by
  induction pieces generalizing window with
  | nil =>
    rw [List.flatten_nil, List.append_nil, Scanner.scan_wait waits]
    rfl
  | cons piece rest ih =>
    have kept : (window ++ piece).rtake capacity = window ++ piece :=
      rtake_of_le _ _ (by rw [List.length_append]; exact spacious.1)
    have later := ih (scanner.scan_remainder (window ++ piece)) spacious.2
    simp only [pump, kept, later]
    rw [List.flatten_cons, ← List.append_assoc, scanner.scan_append (window ++ piece) rest.flatten]

end Session

end Simuless.Foundation
