import Simuless.Foundation.Session

/-! Marked words spread over a stream.

Words start with a marker and are set apart by quiet symbols, which are not
markers. Pumping the stream through a bounded window gives back exactly the
words if and only if the window is drained, for every word, at a moment when
the whole word is in it.
-/

set_option autoImplicit false

namespace Simuless.Foundation

variable {Symbol : Type} {marker : Symbol} {IsWord : List Symbol → Prop}

variable (marker) in
def Quiet (symbols : List Symbol) : Prop := ∀ symbol ∈ symbols, symbol ≠ marker

theorem Quiet.drop {symbols : List Symbol} (quiet : Quiet marker symbols) (count : Nat) :
    Quiet marker (symbols.drop count) :=
  fun symbol member => quiet symbol (List.mem_of_mem_drop member)

variable (marker IsWord) in
/-- A word and the quiet symbols in front of it. -/
structure Segment where
  quiet : List Symbol
  word : List Symbol
  silent : Quiet marker quiet
  isWord : IsWord word

variable (marker IsWord) in
/-- Segments and the quiet symbols behind the last word. -/
structure Spread where
  segments : List (Segment marker IsWord)
  tail : List Symbol
  silent : Quiet marker tail

variable (marker IsWord) in
/-- What a scanner has to do on marked words. -/
structure Framing (scanner : Scanner Symbol) : Prop where
  marked : ∀ {word}, IsWord word → word[0]? = some marker
  whole : ∀ {word} (later), IsWord word → scanner.decide (word ++ later) = .accept word.length
  part : ∀ {word part}, IsWord word → part <+: word → part.length < word.length →
    scanner.decide part = .wait
  /-- A symbol other than the marker is discarded before it could hide a word. -/
  idle : ∀ {first rest}, first ≠ marker →
    scanner.decide (first :: rest) = .discard ∨
      (scanner.decide (first :: rest) = .wait ∧
        ∀ word, IsWord word → (first :: rest).length < word.length)

def Segment.length (segment : Segment marker IsWord) : Nat :=
  segment.quiet.length + segment.word.length

def Segment.drop (segment : Segment marker IsWord) (count : Nat) : Segment marker IsWord :=
  { segment with quiet := segment.quiet.drop count, silent := segment.silent.drop count }

/-- Stream positions where a word starts and stops. -/
structure Span where
  start : Nat
  stop : Nat
  deriving DecidableEq

def spans : (base : Nat) → List (Segment marker IsWord) → List Span
  | _, [] => []
  | base, segment :: rest =>
      ⟨base + segment.quiet.length, base + segment.length⟩ :: spans (base + segment.length) rest

def words (segments : List (Segment marker IsWord)) : List (List Symbol) := segments.map (·.word)

def Spread.stream (spread : Spread marker IsWord) : List Symbol :=
  spread.segments.foldr (fun segment rest => segment.quiet ++ (segment.word ++ rest)) spread.tail

theorem spans_stop {base : Nat} {segment : Segment marker IsWord}
    {rest : List (Segment marker IsWord)} {span : Span}
    (member : span ∈ spans base (segment :: rest)) : base + segment.length ≤ span.stop := by
  induction rest generalizing base segment with
  | nil =>
    rw [spans, spans, List.mem_singleton] at member
    subst member
    exact Nat.le_refl _
  | cons next rest ih =>
    rw [spans, List.mem_cons] at member
    rcases member with rfl | member
    · exact Nat.le_refl _
    · exact (Nat.le_add_right _ _).trans (ih member)

theorem Spread.span_head (spread : Spread marker IsWord) (base : Nat)
    (segment : Segment marker IsWord) (first : segment ∈ spread.segments.head?) :
    ⟨base + segment.quiet.length, base + segment.length⟩ ∈ spans base spread.segments := by
  cases same : spread.segments with
  | nil =>
    rw [same] at first
    cases first
  | cons other more =>
    rw [same] at first
    cases first
    exact List.mem_cons_self

/-- While the first word is not complete none is. -/
theorem Spread.spans_unseen (spread : Spread marker IsWord) {base held : Nat}
    (pending : ∀ segment ∈ spread.segments.head?, held < segment.length) :
    ∀ span ∈ spans base spread.segments, base + held < span.stop := by
  intro span member
  cases same : spread.segments with
  | nil =>
    rw [same] at member
    cases member
  | cons segment more =>
    rw [same] at member pending
    have short := pending segment rfl
    have stop := spans_stop member
    omega

/-- Dropping quiet symbols at the front moves no word. -/
theorem Spread.drop_quiet (spread : Spread marker IsWord) (base count : Nat)
    (quiet : ∀ segment ∈ spread.segments.head?, count ≤ segment.quiet.length) :
    ∃ next : Spread marker IsWord, next.stream = spread.stream.drop count ∧
      words next.segments = words spread.segments ∧
      spans (base + count) next.segments = spans base spread.segments := by
  obtain ⟨segments, tail, silent⟩ := spread
  cases segments with
  | nil => exact ⟨⟨[], tail.drop count, silent.drop count⟩, rfl, rfl, rfl⟩
  | cons segment rest =>
    have inside : count ≤ segment.quiet.length := quiet segment rfl
    have length : base + count + (segment.drop count).length = base + segment.length := by
      simp only [Segment.length, Segment.drop, List.length_drop]
      omega
    refine ⟨⟨segment.drop count :: rest, tail, silent⟩, ?_, rfl, ?_⟩
    · exact (List.drop_append_of_le_length inside).symm
    · simp only [spans, length, List.cons.injEq, Span.mk.injEq, and_true]
      simp only [Segment.drop, List.length_drop]
      omega

/-- A spread begins with a quiet symbol unless a word stands in front. -/
theorem Spread.first_quiet (spread : Spread marker IsWord)
    (quiet : ∀ segment ∈ spread.segments.head?, 1 ≤ segment.quiet.length) {first : Symbol}
    {rest : List Symbol} (front : first :: rest = spread.stream) : first ≠ marker := by
  obtain ⟨segments, tail, silent⟩ := spread
  cases segments with
  | nil =>
    have same : first :: rest = tail := front
    exact silent first (same ▸ List.mem_cons_self)
  | cons segment more =>
    have inside : 1 ≤ segment.quiet.length := quiet segment rfl
    cases same : segment.quiet with
    | nil =>
      rw [same] at inside
      cases inside
    | cons symbol others =>
      have head : first :: rest = segment.quiet ++ (segment.word ++ Spread.stream ⟨more, tail, silent⟩) :=
        front
      rw [same, List.cons_append] at head
      have equal := (List.cons.inj head).1
      exact segment.silent first (by rw [same, equal]; exact List.mem_cons_self)

/-- Without a quiet symbol in front, a spread begins with its first word. -/
theorem Spread.word_front (spread : Spread marker IsWord)
    (loud : ¬ ∀ segment ∈ spread.segments.head?, 1 ≤ segment.quiet.length) :
    ∃ (segment : Segment marker IsWord) (next : Spread marker IsWord),
      spread.segments = segment :: next.segments ∧ segment.length = segment.word.length ∧
      spread.stream = segment.word ++ next.stream := by
  obtain ⟨segments, tail, silent⟩ := spread
  cases segments with
  | nil => exact absurd (fun segment member => by cases member) loud
  | cons segment more =>
    have empty : segment.quiet = [] := by
      by_contra some
      apply loud
      intro other member
      cases member
      exact List.length_pos_of_ne_nil some
    refine ⟨segment, ⟨more, tail, silent⟩, rfl, ?_, ?_⟩
    · rw [Segment.length, empty, List.length_nil, Nat.zero_add]
    · simp only [Spread.stream, List.foldr_cons, empty, List.nil_append]

/-- Having taken some words, what remains of a spread is again one, its first
word not complete in what is held. -/
def Leaves (spread : Spread marker IsWord) (base : Nat) (rest : List Symbol)
    (taken : List (List Symbol)) (held : List Symbol) (arrived : Nat) : Prop :=
  ∃ (next : Spread marker IsWord) (left : Nat),
    taken ++ words next.segments = words spread.segments ∧
    (∀ span ∈ spans left next.segments, span ∈ spans base spread.segments) ∧
    held ++ rest = next.stream ∧ left + held.length = arrived ∧
    ∀ segment ∈ next.segments.head?, held.length < segment.length

theorem Leaves.stay {spread : Spread marker IsWord} {base : Nat} {held rest : List Symbol}
    (front : held ++ rest = spread.stream)
    (pending : ∀ segment ∈ spread.segments.head?, held.length < segment.length) :
    Leaves spread base rest [] held (base + held.length) :=
  ⟨spread, base, rfl, fun _ member => member, front, rfl, pending⟩

theorem Leaves.after {earlier spread : Spread marker IsWord} {first base arrived : Nat}
    {rest held : List Symbol} {more : List (List Symbol)}
    (leaves : Leaves spread base rest more held arrived) (taken : List (List Symbol))
    (same : taken ++ words spread.segments = words earlier.segments)
    (kept : ∀ span ∈ spans base spread.segments, span ∈ spans first earlier.segments) :
    Leaves earlier first rest (taken ++ more) held arrived := by
  obtain ⟨next, left, words, later, front, position, pending⟩ := leaves
  refine ⟨next, left, ?_, fun span member => kept span (later span member), front, position, pending⟩
  rw [List.append_assoc, words, same]

/-- What is held ends inside the word in front, or holds it wholly. -/
theorem part_or_whole {window rest word later : List Symbol} (front : window ++ rest = word ++ later) :
    (window <+: word ∧ window.length < word.length) ∨
      ∃ behind, window = word ++ behind ∧ behind ++ rest = later := by
  have held : window <+: word ++ later := ⟨rest, front⟩
  by_cases short : window.length < word.length
  · exact .inl ⟨List.prefix_of_prefix_length_le held (List.prefix_append word later) short.le, short⟩
  · obtain ⟨behind, rfl⟩ := List.prefix_of_prefix_length_le (List.prefix_append word later) held
      (Nat.le_of_not_lt short)
    rw [List.append_assoc] at front
    exact .inr ⟨behind, rfl, List.append_cancel_left front⟩

/-- At some chunk boundary the whole span has arrived and none of it is lost. -/
def Seen (capacity arrived : Nat) (chunks : List (List Symbol)) (span : Span) : Prop :=
  ∃ fed, fed <+: chunks ∧ span.stop ≤ arrived + fed.flatten.length ∧
    arrived + fed.flatten.length ≤ span.start + capacity

/-- Chunks that leave a word room in the window are not too long to see it. -/
theorem seen_small {capacity limit arrived : Nat} {chunks : List (List Symbol)} {span : Span}
    (small : ∀ chunk ∈ chunks, chunk.length ≤ limit)
    (room : span.stop + limit ≤ span.start + capacity + 1) (early : arrived < span.stop)
    (inside : span.stop ≤ arrived + chunks.flatten.length) : Seen capacity arrived chunks span := by
  induction chunks generalizing arrived with
  | nil => exact absurd inside (Nat.not_le.mpr early)
  | cons chunk rest ih =>
    have short := small chunk List.mem_cons_self
    rw [List.flatten_cons, List.length_append] at inside
    by_cases complete : span.stop ≤ arrived + chunk.length
    · refine ⟨[chunk], List.prefix_append [chunk] rest, ?_, ?_⟩
      all_goals
        rw [List.flatten_singleton]
        omega
    · obtain ⟨fed, ⟨later, rfl⟩, stop, held⟩ := ih
        (fun other member => small other (List.mem_cons_of_mem _ member)) (Nat.lt_of_not_le complete)
        (Nat.add_assoc _ _ _ ▸ inside)
      refine ⟨chunk :: fed, List.prefix_append (chunk :: fed) later, ?_, ?_⟩
      all_goals
        rw [List.flatten_cons, List.length_append]
        omega

section
variable {scanner : Scanner Symbol} (framing : Framing marker IsWord scanner)
include framing

theorem Framing.word_pos {word : List Symbol} (isWord : IsWord word) : 0 < word.length :=
  List.length_pos_of_ne_nil fun empty => by
    have marked := framing.marked isWord
    rw [empty] at marked
    cases marked

/-- A scan of the front of a spread takes the words that are complete there. -/
theorem Framing.scan_spread (spread : Spread marker IsWord) (base : Nat) {window rest : List Symbol}
    (front : window ++ rest = spread.stream) :
    Leaves spread base rest (scanner.scan window).1 (scanner.scan window).2
      (base + window.length) := by
  induction size : window.length using Nat.strong_induction_on generalizing window spread base with
  | _ size ih =>
  subst size
  by_cases noisy : ∀ segment ∈ spread.segments.head?, 1 ≤ segment.quiet.length
  · -- a quiet symbol is in front: it is dropped, or too little is held for any word
    cases window with
    | nil =>
      rw [Scanner.scan_wait scanner.decide_nil]
      refine .stay front fun segment member => ?_
      exact (noisy segment member).trans (Nat.le_add_right _ _)
    | cons first window =>
      have noise := spread.first_quiet noisy front
      rcases framing.idle noise with discards | ⟨waits, short⟩
      · obtain ⟨dropped, stream, same, moved⟩ := spread.drop_quiet base 1 noisy
        have front : window ++ rest = dropped.stream := by
          rw [stream, ← front]
          rfl
        rw [Scanner.scan_discard discards]
        have later := ih window.length (Nat.lt_succ_self _) dropped (base + 1) front rfl
        have position : base + 1 + window.length = base + (first :: window).length := by
          rw [List.length_cons]
          omega
        rw [position] at later
        exact later.after [] same (fun span member => moved ▸ member)
      · rw [Scanner.scan_wait waits]
        refine .stay front fun segment member => ?_
        exact (short segment.word segment.isWord).trans_le (Nat.le_add_left _ _)
  · -- a word is in front: it is not complete, or it is taken
    obtain ⟨segment, next, split, length, stream⟩ := spread.word_front noisy
    rcases part_or_whole (front.trans stream) with ⟨part, short⟩ | ⟨later, rfl, behind⟩
    · rw [Scanner.scan_wait (framing.part segment.isWord part short)]
      refine .stay front fun other member => ?_
      rw [split] at member
      cases member
      rw [length]
      exact short
    · have nonempty := framing.word_pos segment.isWord
      have fewer : later.length < (segment.word ++ later).length := by
        rw [List.length_append]
        omega
      have remaining := ih later.length fewer next (base + segment.length) behind rfl
      have position : base + segment.length + later.length = base + (segment.word ++ later).length := by
        rw [length, List.length_append]
        omega
      rw [position] at remaining
      rw [Scanner.scan_accept (framing.whole later segment.isWord), List.drop_left, List.take_left]
      apply remaining.after [segment.word]
      · rw [split]
        rfl
      · intro span member
        rw [split]
        exact List.mem_cons_of_mem _ member

/-- Draining each word while it is wholly in the window gives all words. -/
theorem Framing.pump_seen (capacity : Nat) (chunks : List (List Symbol))
    (spread : Spread marker IsWord) (base : Nat) {window : List Symbol}
    (front : window ++ chunks.flatten = spread.stream)
    (pending : ∀ segment ∈ spread.segments.head?, window.length < segment.length)
    (seen : ∀ span ∈ spans base spread.segments, Seen capacity (base + window.length) chunks span) :
    (Session.pump scanner capacity window chunks).1 = words spread.segments := by
  induction chunks generalizing spread base window with
  | nil =>
    cases same : spread.segments with
    | nil => rfl
    | cons segment more =>
      have member := spread.span_head base segment (by rw [same]; rfl)
      obtain ⟨fed, front, stop, -⟩ := seen _ member
      rw [List.prefix_nil.mp front] at stop
      exact absurd stop (Nat.not_le.mpr (spread.spans_unseen pending _ member))
  | cons chunk rest ih =>
    -- no word was complete before this chunk, so each is seen after it
    have next : ∀ span ∈ spans base spread.segments,
        Seen capacity (base + (window ++ chunk).length) rest span := by
      intro span member
      obtain ⟨fed, boundary, stop, room⟩ := seen span member
      have late := spread.spans_unseen pending span member
      cases fed with
      | nil => exact absurd stop (Nat.not_le.mpr late)
      | cons first fed =>
        obtain ⟨rfl, behind⟩ := List.cons_prefix_cons.mp boundary
        refine ⟨fed, behind, ?_, ?_⟩
        all_goals
          simp only [List.flatten_cons, List.length_append] at stop room ⊢
          omega
    let count := (window ++ chunk).length - capacity
    -- the first word is still to be seen, so what overflows is quiet
    have noise : ∀ segment ∈ spread.segments.head?, count ≤ segment.quiet.length := by
      intro segment member
      obtain ⟨fed, -, -, room⟩ := next _ (spread.span_head base segment member)
      simp only at room
      omega
    have gone : count ≤ (window ++ chunk).length := Nat.sub_le _ _
    obtain ⟨dropped, stream, same, moved⟩ := spread.drop_quiet base count noise
    have front : (window ++ chunk).rtake capacity ++ rest.flatten = dropped.stream := by
      rw [stream, ← front, List.flatten_cons, ← List.append_assoc, List.rtake,
        List.drop_append_of_le_length gone]
    obtain ⟨left, start, taken, later, front, position, pending⟩ :=
      framing.scan_spread dropped (base + count) front
    have arrived : base + count + ((window ++ chunk).rtake capacity).length =
        base + (window ++ chunk).length := by
      rw [List.rtake, List.length_drop]
      omega
    rw [arrived] at position
    have more := ih left start front pending
      (fun span member => position ▸ next span (moved ▸ later span member))
    simp only [Session.pump, more, taken, same]

end

/-! Words found in the stream in order are the words that were put there. -/

section
variable {stream : List Symbol}

theorem getElem?_of_occurs {word : List Symbol} {start : Nat}
    (occurs : (stream.drop start).take word.length = word) {index : Nat}
    (inside : index < word.length) : stream[start + index]? = word[index]? := by
  rw [← List.getElem?_drop, ← List.getElem?_take_of_lt inside, occurs]

/-- A marked word does not occur shifted into quiet symbols behind it. -/
theorem occurs_unshifted {before word quiet : List Symbol} (silent : Quiet marker quiet)
    (after : List Symbol) (whole : stream = before ++ (word ++ (quiet ++ after)))
    (marked : word[0]? = some marker) {start : Nat} (occurs : (stream.drop start).take word.length = word)
    (room : start + word.length ≤ before.length + word.length + quiet.length) :
    start ≤ before.length := by
  by_contra late
  -- a marker would recur after every shift, at last in the quiet symbols
  have never : ∀ left index, word.length ≤ index + left → word[index]? ≠ some marker := by
    intro left
    induction left with
    | zero =>
      intro index outside found
      rw [List.getElem?_eq_none (by omega)] at found
      cases found
    | succ left ih =>
      intro index outside found
      obtain ⟨inside, -⟩ := List.getElem?_eq_some_iff.mp found
      have again : stream[start + index]? = some marker := by
        rw [getElem?_of_occurs occurs inside, found]
      obtain ⟨shifted, position⟩ : ∃ shifted, start + index = before.length + shifted :=
        ⟨start + index - before.length, by omega⟩
      have place : (word ++ (quiet ++ after))[shifted]? = some marker := by
        rw [position, whole, List.getElem?_append_right (Nat.le_add_right _ _),
          Nat.add_sub_cancel_left] at again
        exact again
      by_cases within : shifted < word.length
      · rw [List.getElem?_append_left within] at place
        exact ih shifted (by omega) place
      · rw [List.getElem?_append_right (Nat.le_of_not_lt within),
          List.getElem?_append_left (by omega)] at place
        exact silent marker (List.mem_of_getElem? place) rfl
  exact never word.length 0 (by omega) marked

/-- Deliveries that stand in the stream in order and say what the segments say. -/
structure Placed (stream : List Symbol) (deliveries : List (Delivery Symbol))
    (segments : List (Segment marker IsWord)) : Prop where
  blocks : deliveries.map (·.block) = words segments
  occurs : ∀ delivery ∈ deliveries,
    (stream.drop delivery.start).take delivery.block.length = delivery.block
  inside : ∀ delivery ∈ deliveries, delivery.stop ≤ stream.length
  ordered : deliveries.Pairwise fun first later => first.stop ≤ later.start

theorem Placed.tail {delivery : Delivery Symbol} {deliveries : List (Delivery Symbol)}
    {segment : Segment marker IsWord} {segments : List (Segment marker IsWord)}
    (placed : Placed stream (delivery :: deliveries) (segment :: segments)) :
    Placed stream deliveries segments where
  blocks := (List.cons.inj placed.blocks).2
  occurs other member := placed.occurs other (List.mem_cons_of_mem _ member)
  inside other member := placed.inside other (List.mem_cons_of_mem _ member)
  ordered := (List.pairwise_cons.mp placed.ordered).2

theorem Placed.cons {deliveries : List (Delivery Symbol)} {segment : Segment marker IsWord}
    {segments : List (Segment marker IsWord)}
    (placed : Placed stream deliveries (segment :: segments)) :
    ∃ delivery more, deliveries = delivery :: more ∧ delivery.block = segment.word := by
  cases deliveries with
  | nil => cases placed.blocks
  | cons delivery more => exact ⟨delivery, more, rfl, (List.cons.inj placed.blocks).1⟩

variable (marks : ∀ {word}, IsWord word → word[0]? = some marker)
include marks

/-- No word is found behind its place: the quiet symbols before the next leave
no room. -/
theorem Placed.start_le {segments : List (Segment marker IsWord)} {tail : List Symbol}
    (silent : Quiet marker tail) {deliveries : List (Delivery Symbol)} {before : List Symbol}
    (whole : stream = before ++ Spread.stream ⟨segments, tail, silent⟩)
    (placed : Placed stream deliveries segments) :
    ∀ delivery ∈ deliveries.head?, ∀ segment ∈ segments.head?,
      delivery.start ≤ before.length + segment.quiet.length := by
  induction segments generalizing deliveries before with
  | nil =>
    intro delivery _ segment member
    cases member
  | cons segment more ih =>
    obtain ⟨delivery, others, rfl, block⟩ := placed.cons
    intro _ same _ same'
    cases same
    cases same'
    have occurs := placed.occurs delivery List.mem_cons_self
    have inside := placed.inside delivery List.mem_cons_self
    rw [block] at occurs
    rw [← List.length_append]
    have behind : stream = before ++ segment.quiet ++ segment.word ++
        Spread.stream ⟨more, tail, silent⟩ := by
      rw [whole]
      simp only [Spread.stream, List.foldr_cons, List.append_assoc]
    rw [Delivery.stop, block] at inside
    -- the room behind the word ends at the next word, or with the stream
    cases more with
    | nil =>
      refine occurs_unshifted silent [] ?_ (marks segment.isWord) occurs ?_
      · rw [behind]
        simp only [Spread.stream, List.foldr_nil, List.append_assoc, List.append_nil]
      · rw [behind] at inside
        simpa only [Spread.stream, List.foldr_nil, List.length_append] using inside
    | cons following rest =>
      obtain ⟨next, later, rfl, -⟩ := placed.tail.cons
      have bound := ih behind placed.tail next rfl following rfl
      have apart := (List.pairwise_cons.mp placed.ordered).1 next List.mem_cons_self
      rw [Delivery.stop, block] at apart
      refine occurs_unshifted following.silent
        (following.word ++ Spread.stream ⟨rest, tail, silent⟩) ?_ (marks segment.isWord) occurs ?_
      · rw [behind]
        simp only [Spread.stream, List.foldr_cons, List.append_assoc]
      · simp only [List.length_append] at bound ⊢
        omega

/-- Every word is found exactly at its place. -/
theorem Placed.spans_eq {segments : List (Segment marker IsWord)} {tail : List Symbol}
    (silent : Quiet marker tail) {deliveries : List (Delivery Symbol)} {before : List Symbol}
    (whole : stream = before ++ Spread.stream ⟨segments, tail, silent⟩)
    (placed : Placed stream deliveries segments)
    (behind : ∀ delivery ∈ deliveries, before.length ≤ delivery.start) :
    deliveries.map (fun delivery => ⟨delivery.start, delivery.stop⟩) =
      spans before.length segments := by
  induction segments generalizing deliveries before with
  | nil =>
    have none := List.map_eq_nil_iff.mp placed.blocks
    rw [none]
    rfl
  | cons segment more ih =>
    have bounds := placed.start_le marks silent whole
    obtain ⟨delivery, others, rfl, block⟩ := placed.cons
    have upper := bounds delivery rfl segment rfl
    have lower := behind delivery List.mem_cons_self
    have occurs := placed.occurs delivery List.mem_cons_self
    have marked := marks segment.isWord
    -- any earlier and its marker would be a quiet symbol
    have exact : delivery.start = before.length + segment.quiet.length := by
      by_contra early
      obtain ⟨inside, -⟩ := List.getElem?_eq_some_iff.mp marked
      rw [block] at occurs
      have found := getElem?_of_occurs occurs inside
      rw [marked, Nat.add_zero, whole, List.getElem?_append_right lower] at found
      simp only [Spread.stream, List.foldr_cons] at found
      rw [List.getElem?_append_left (by omega)] at found
      exact segment.silent marker (List.mem_of_getElem? found) rfl
    have stop : delivery.stop = before.length + segment.length := by
      rw [Delivery.stop, block, exact, Segment.length, Nat.add_assoc]
    have front : (before ++ segment.quiet ++ segment.word).length = before.length + segment.length := by
      simp only [List.length_append, Segment.length, Nat.add_assoc]
    have behind' : stream = before ++ segment.quiet ++ segment.word ++
        Spread.stream ⟨more, tail, silent⟩ := by
      rw [whole]
      simp only [Spread.stream, List.foldr_cons, List.append_assoc]
    have rest := ih behind' placed.tail
      (by
        intro other member
        rw [front, ← stop]
        exact (List.pairwise_cons.mp placed.ordered).1 other member)
    rw [front] at rest
    rw [List.map_cons, rest, spans, exact, stop]

end

/-- Pumping gives exactly the words if and only if every word is seen whole at
some chunk boundary. -/
theorem Framing.pump_words_iff {scanner : Scanner Symbol} (framing : Framing marker IsWord scanner)
    (capacity : Nat) (spread : Spread marker IsWord) (chunks : List (List Symbol))
    (cut : chunks.flatten = spread.stream) :
    (Session.pump scanner capacity [] chunks).1 = words spread.segments ↔
      ∀ span ∈ spans 0 spread.segments, Seen capacity 0 chunks span := by
  constructor
  · intro given span member
    obtain ⟨events, same, blocks, -⟩ :=
      Session.pump_events scanner capacity Session.fresh chunks
    have sound := (Session.fresh_sound scanner capacity).run events
    have stream := Session.run_stream scanner capacity Session.fresh events
    rw [same, cut] at stream
    -- a session that delivers all words delivers them at their places
    have placed : Placed spread.stream (Session.run scanner capacity Session.fresh events).deliveries
        spread.segments := {
      blocks := blocks.trans given
      occurs := fun delivery present => by
        have occurs := sound.occurs delivery present
        rw [stream] at occurs
        exact occurs
      inside := fun delivery present => by
        have consumed := sound.consumed delivery present
        rw [stream] at consumed
        exact (Nat.le_add_right _ _).trans consumed
      ordered := sound.ordered }
    have whole : spread.stream = [] ++ spread.stream := rfl
    have places := placed.spans_eq framing.marked spread.silent whole fun _ _ => Nat.zero_le _
    rw [List.length_nil] at places
    rw [← places] at member
    obtain ⟨delivery, present, rfl⟩ := List.mem_map.mp member
    obtain ⟨fed, boundary, arrived⟩ := Session.arrived_boundary events delivery present
    rw [same] at boundary
    have complete := sound.complete delivery present
    have recent := sound.recent delivery present
    rw [arrived] at complete recent
    exact ⟨fed, boundary, by rw [Nat.zero_add]; exact complete, by rw [Nat.zero_add]; exact recent⟩
  · intro seen
    refine framing.pump_seen capacity chunks spread 0 cut ?_ seen
    intro segment member
    exact (framing.word_pos segment.isWord).trans_le (Nat.le_add_left _ _)

end Simuless.Foundation
