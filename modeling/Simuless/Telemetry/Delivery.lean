import Simuless.Foundation.Framing
import Simuless.Telemetry.Stream

/-! Delivery of encoded messages through chunks.

Messages are encoded and sent with noise between them, and the stream is cut
into chunks. The buffer holds one largest frame and drops the oldest octets
when a chunk brings more, so delivery is lossless exactly when the parser is
drained, for every frame, while that frame is wholly in the buffer.
-/

set_option autoImplicit false

namespace Simuless.Telemetry

open Foundation

/-- The frames of the protocol. -/
def IsFrame (bytes : Bytes) : Prop := ∃ message : Message, message.bytes = bytes

theorem frameScanner_framing : Framing frameMagic IsFrame frameScanner where
  marked := by
    rintro _ ⟨message, rfl⟩
    exact message.bytes_magic
  whole := by
    rintro _ later ⟨message, rfl⟩
    exact message.decision_bytes later
  part := by
    rintro _ part ⟨message, rfl⟩ front short
    exact message.decision_part front short
  idle := by
    intro first rest noise
    by_cases header : sizeofHeader ≤ (first :: rest).length
    · left
      apply decision_noise header
      intro magic
      exact noise (Option.some.inj magic)
    · right
      refine ⟨if_pos (Nat.lt_of_not_le header), ?_⟩
      rintro _ ⟨message, rfl⟩
      rw [message.length_bytes]
      omega

/-- A message with the noise sent in front of it, encoded into some buffer. -/
structure Sent where
  noise : Bytes
  silent : Quiet frameMagic noise
  message : Message
  size : Nat
  buf : Block size
  outLen : UInt16
  frame : Bytes
  encoded : encodeInto message.content buf outLen = some frame

def sentStream : List Sent → Bytes → Bytes
  | [], tail => tail
  | sent :: rest, tail => sent.noise ++ (sent.frame ++ sentStream rest tail)

/-- Where each frame starts and stops in the stream. -/
def sentSpans : (base : Nat) → List Sent → List Span
  | _, [] => []
  | base, sent :: rest =>
      let start := base + sent.noise.length
      let stop := start + sent.frame.length
      ⟨start, stop⟩ :: sentSpans stop rest

def Sent.segment (sent : Sent) : Segment frameMagic IsFrame where
  quiet := sent.noise
  word := sent.frame
  silent := sent.silent
  isWord := ⟨sent.message, (encodeInto_message sent.encoded).symm⟩

theorem stream_segments (sent : List Sent) {tail : Bytes} (silent : Quiet frameMagic tail) :
    Spread.stream ⟨sent.map Sent.segment, tail, silent⟩ = sentStream sent tail := by
  induction sent with
  | nil => rfl
  | cons first rest ih =>
    rw [sentStream, ← ih]
    rfl

theorem spans_segments (base : Nat) (sent : List Sent) :
    spans base (sent.map Sent.segment) = sentSpans base sent := by
  induction sent generalizing base with
  | nil => rfl
  | cons first rest ih =>
    rw [sentSpans, List.map_cons, spans, ih]
    simp only [Sent.segment, Segment.length, Nat.add_assoc]

theorem words_segments (sent : List Sent) :
    words (sent.map Sent.segment) = (sent.map Sent.message).map Message.bytes := by
  simp only [words, List.map_map]
  apply List.map_congr_left
  intro first _
  exact encodeInto_message first.encoded

/-- Frames say what the messages say exactly when they carry their octets. -/
theorem contents_iff {frames : List Frame} {blocks : List Bytes} {messages : List Message}
    (carried : List.Forall₂ Frame.Carries frames blocks) :
    frames.map Frame.content = messages.map Message.content ↔
      blocks = messages.map Message.bytes := by
  induction carried generalizing messages with
  | nil => cases messages <;> simp
  | cons first _ ih =>
    cases messages with
    | nil => simp
    | cons message rest =>
      rw [List.map_cons, List.map_cons, List.map_cons, List.cons.injEq, List.cons.injEq, ih]
      refine and_congr_left fun _ => ?_
      rw [first.content]
      constructor
      · intro same
        obtain ⟨len, exact, complete⟩ := complete_of_accept first.accepted
        rw [← complete.frameBytes_content exact, same]
        rfl
      · rintro rfl
        exact message.content_bytes

theorem pump_contents_iff {sent : List Sent} {tail : Bytes} (silent : Quiet frameMagic tail)
    {chunks : List Bytes} (cut : chunks.flatten = sentStream sent tail) {frames : List Frame}
    (carried : List.Forall₂ Frame.Carries frames
      (Session.pump frameScanner sizeofFrame [] chunks).1) :
    frames.map Frame.content = (sent.map Sent.message).map Message.content ↔
      ∀ span ∈ sentSpans 0 sent, Seen sizeofFrame 0 chunks span := by
  rw [contents_iff carried, ← words_segments, ← spans_segments]
  exact frameScanner_framing.pump_words_iff sizeofFrame ⟨sent.map Sent.segment, tail, silent⟩ chunks
    (cut.trans (stream_segments sent silent).symm)

/-- Every message is delivered, once and in order, if and only if for every
frame some chunk ends when the frame is complete and at most `sizeof(frame_t)`
octets have arrived from its first one on. -/
theorem delivers_iff (memory : FrameParser) (out : Frame) (sent : List Sent) (tail : Bytes)
    (silent : Quiet frameMagic tail) (chunks : List Bytes)
    (cut : chunks.flatten = sentStream sent tail) (sizes : ∀ chunk ∈ chunks, chunk.length < 2 ^ 16) :
    ∃ frames rest, pump (frameParserInit memory) out chunks = some (frames, rest) ∧
      (frames.map Frame.content = (sent.map Sent.message).map Message.content ↔
        ∀ span ∈ sentSpans 0 sent, Seen sizeofFrame 0 chunks span) := by
  obtain ⟨frames, rest, pumped, -, -, carried⟩ :=
    pump_scan (FrameParser.init_valid memory) out chunks sizes
  exact ⟨frames, rest, pumped, pump_contents_iff silent cut carried⟩

/-- The encoded `ping` behind one octet of noise. -/
def sentPing : Sent where
  noise := [0]
  silent := by
    intro octet member
    rw [List.mem_singleton.mp member]
    decide
  message := ping
  size := sizeofFrame
  buf := blankFrame
  outLen := 0
  frame := ping.bytes
  encoded := ping.encoded_fits blankFrame 0 (Nat.le_refl _)

theorem delivers_ping : ∃ frames rest,
    pump (frameParserInit blankParser) blankFrame [sentStream [sentPing] []] = some (frames, rest) ∧
      frames.map Frame.content = [ping.content] := by
  have frame : sentPing.frame.length = 18 := ping.length_bytes
  have noise : sentPing.noise.length = 1 := rfl
  have stream : (sentStream [sentPing] []).length = 19 := by
    simp only [sentStream, List.length_append, frame, noise, List.length_nil]
  obtain ⟨frames, rest, pumped, delivered⟩ := delivers_iff blankParser blankFrame [sentPing] []
    (by unfold Quiet; simp) [sentStream [sentPing] []] (by simp) (by simp [stream])
  refine ⟨frames, rest, pumped, delivered.mpr fun span member => ?_⟩
  rw [sentSpans, sentSpans, List.mem_singleton] at member
  subst member
  refine ⟨[sentStream [sentPing] []], List.prefix_rfl, ?_, ?_⟩
  all_goals
    rw [List.flatten_singleton, stream]
    simp only [frame, noise]
    decide

/-- Silence that fills the buffer leaves nothing of what came before it. -/
theorem pump_silenced (memory : FrameParser) (out : Frame) (lost noise : Bytes)
    (silent : Quiet frameMagic noise) (fills : noise.length = sizeofFrame)
    (small : (lost ++ noise).length < 2 ^ 16) :
    ∃ rest, pump (frameParserInit memory) out [lost ++ noise] = some ([], rest) := by
  obtain ⟨frames, rest, pumped, -, -, carried⟩ :=
    pump_scan (FrameParser.init_valid memory) out [lost ++ noise] (by
      intro piece member
      rw [List.mem_singleton.mp member]
      exact small)
  have kept : (lost ++ noise).rtake sizeofFrame = noise := by
    rw [List.rtake, List.length_append, fills, Nat.add_sub_cancel, List.drop_left]
  have quiet : noise ++ [] = (⟨[], noise, silent⟩ : Spread frameMagic IsFrame).stream :=
    List.append_nil noise
  obtain ⟨next, left, taken, -⟩ := frameScanner_framing.scan_spread _ 0 quiet
  have nothing : (frameScanner.scan noise).1 = [] := (List.append_eq_nil_iff.mp taken).1
  simp only [FrameParser.init_window, Session.pump, List.nil_append, kept, nothing] at carried
  cases carried
  exact ⟨rest, pumped⟩

/-- In one chunk with the noise behind it a frame is lost. -/
theorem long_chunk_loses_frame : ∃ rest,
    encodeInto ping.content blankFrame 0 = some ping.bytes ∧
      Quiet frameMagic (List.replicate 273 0) ∧
      (ping.bytes ++ List.replicate 273 0).length < 2 ^ 16 ∧
      pump (frameParserInit blankParser) blankFrame [ping.bytes ++ List.replicate 273 0] =
        some ([], rest) := by
  have silent : Quiet frameMagic (List.replicate 273 0) := by
    intro octet member
    rw [List.eq_of_mem_replicate member]
    decide
  have small : (ping.bytes ++ List.replicate 273 0).length < 2 ^ 16 := by
    rw [List.length_append, ping.length_bytes, List.length_replicate]
    decide
  obtain ⟨rest, pumped⟩ := pump_silenced blankParser blankFrame ping.bytes _ silent
    List.length_replicate small
  exact ⟨rest, ping.encoded_fits blankFrame 0 (Nat.le_refl _), silent, small, pumped⟩

theorem sentSpans_inside {base : Nat} {sent : List Sent} (tail : Bytes) {span : Span}
    (member : span ∈ sentSpans base sent) :
    span.stop ≤ base + (sentStream sent tail).length ∧ base ≤ span.start ∧
      ∃ first ∈ sent, span.stop = span.start + first.frame.length := by
  induction sent generalizing base with
  | nil => cases member
  | cons first rest ih =>
    rw [sentStream, List.length_append, List.length_append]
    rcases List.mem_cons.mp member with rfl | later
    · exact ⟨by simp only; omega, Nat.le_add_right _ _, first, List.mem_cons_self, rfl⟩
    · obtain ⟨inside, behind, other, present, length⟩ := ih later
      exact ⟨by omega, by omega, other, List.mem_cons_of_mem _ present, length⟩

/-- Short chunks lose nothing: a frame and a chunk may exceed the buffer by the
one octet that both can share. -/
theorem delivers_short_chunks (memory : FrameParser) (out : Frame) (sent : List Sent) (tail : Bytes)
    (silent : Quiet frameMagic tail) (chunks : List Bytes)
    (cut : chunks.flatten = sentStream sent tail) (limit : Nat)
    (short : ∀ chunk ∈ chunks, chunk.length ≤ limit)
    (room : ∀ first ∈ sent, first.frame.length + limit ≤ sizeofFrame + 1) (small : limit < 2 ^ 16) :
    ∃ frames rest, pump (frameParserInit memory) out chunks = some (frames, rest) ∧
      frames.map Frame.content = (sent.map Sent.message).map Message.content := by
  obtain ⟨frames, rest, pumped, -, -, carried⟩ :=
    pump_scan (FrameParser.init_valid memory) out chunks fun chunk member =>
      (short chunk member).trans_lt small
  refine ⟨frames, rest, pumped, (pump_contents_iff silent cut carried).mpr ?_⟩
  intro span member
  obtain ⟨inside, -, first, present, length⟩ := sentSpans_inside tail member
  have fits := room first present
  have nonempty : 0 < first.frame.length := frameScanner_framing.word_pos first.segment.isWord
  apply seen_small short
  · omega
  · omega
  · rw [cut]
    exact inside

end Simuless.Telemetry
