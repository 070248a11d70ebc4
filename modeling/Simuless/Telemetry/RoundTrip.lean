import Simuless.Telemetry.Stream

/-! Whether the parser takes back what the encoder writes.

The encoder allows an empty payload and the parser reads an empty payload as a
false header, so the round trip closes for every other length.
-/

set_option autoImplicit false

namespace Simuless.Telemetry

open Foundation

/-- Fed to a fresh parser, the octets come back from the first get call as
this content, and nothing stays in the buffer. -/
def AcceptedAs (memory : FrameParser) (scratch : Frame) (data : Bytes) (len : UInt16)
    (content : Content) : Prop :=
  ∃ fed next frame, frameParserInput (frameParserInit memory) data len = some (.incomplete, fed) ∧
    frameParserGet fed scratch = some (1, next, frame) ∧ frame.content = content ∧ next.index = 0

/-- The smallest frame the parser returns has one payload octet. -/
theorem get_frame_length {parser next : FrameParser} {scratch frame : Frame} (valid : parser.Valid)
    (got : frameParserGet parser scratch = some (1, next, frame)) :
    sizeofHeader + 1 < parser.window.length := by
  rcases FrameParser.frameParserGet_pull valid scratch with
    ⟨_, nothing, -⟩ | ⟨_, _, block, -, -, pulled, -⟩
  · rw [nothing] at got
    cases got
  · rcases frameScanner.pull_cases parser.window with
      ⟨_, found, -⟩ | ⟨taken, rest, found, tail, -⟩
    · rw [found] at pulled
      cases pulled
    · rw [found] at pulled
      cases pulled
      have shorter := tail.length_le
      rw [List.length_append] at shorter
      obtain ⟨len, exact, complete⟩ := complete_of_accept (frameScanner.pull_accepted found).1
      have nonempty := complete.nonempty
      omega

section
variable {size payloadSize : Nat} {type : UInt8} {payload : Block payloadSize} {len : UInt16}
  {seq : UInt32} {timestamp : UInt64} {buf out : Block size} {before after : UInt16}

/-- A fresh parser fed with an encoded frame holds exactly the frame. -/
theorem fed_encoded (encoded : frameEncode type (some payload) len seq timestamp (some buf)
      (some before) = some ⟨0, some out, some after⟩) (memory : FrameParser) :
    ∃ fed, frameParserInput (frameParserInit memory) out.bytes after = some (.incomplete, fed) ∧
      fed.Valid ∧ fed.window =
        frameBytes (encodedHeader type len seq timestamp) (payload.bytes.take len.toNat) := by
  obtain ⟨bounded, held, room⟩ := frameEncode_room encoded
  obtain ⟨out', encoded', bytes⟩ := frameEncode_fits type payload seq timestamp buf before bounded
    held room
  rw [encoded] at encoded'
  cases encoded'
  have total := total_toNat len.toNat bounded
  have length : (frameBytes (encodedHeader type len seq timestamp)
      (payload.bytes.take len.toNat)).length = sizeofHeader + len.toNat + 1 := by
    rw [length_frameBytes, length_payload_take payload held]
  obtain ⟨fed, ran, window, valid⟩ := FrameParser.frameParserInput_window
    (FrameParser.init_valid memory) out.bytes (.ofNat (sizeofHeader + len.toNat + 1))
    (by rw [total, out.length_bytes]; exact room)
  refine ⟨fed, ran, valid, ?_⟩
  rw [window, FrameParser.init_window, List.nil_append, total, bytes, List.take_left' length,
    Session.rtake_of_le _ _ (by rw [length]; unfold sizeofFrame; omega)]

/-- The parser takes a frame back exactly when its payload is not empty. -/
theorem accepts_encoded_iff (encoded : frameEncode type (some payload) len seq timestamp (some buf)
      (some before) = some ⟨0, some out, some after⟩) (memory : FrameParser) (scratch : Frame) :
    AcceptedAs memory scratch out.bytes after
        ⟨type, seq, timestamp, len, payload.bytes.take len.toNat⟩ ↔ len ≠ 0 := by
  obtain ⟨bounded, held, -⟩ := frameEncode_room encoded
  have length := length_payload_take payload held
  obtain ⟨fed, ran, valid, window⟩ := fed_encoded encoded memory
  constructor
  · rintro ⟨fed', next, frame, ran', got, -, -⟩ empty
    rw [ran] at ran'
    cases ran'
    have large := get_frame_length valid got
    -- a frame without payload is shorter than any frame the parser takes
    rw [window, length_frameBytes, length, empty] at large
    exact absurd large (by decide)
  · intro nonempty
    have positive : 0 < len.toNat :=
      Nat.pos_of_ne_zero fun zero => nonempty (UInt16.toNat_inj.mp zero)
    let message : Message := ⟨type, seq, timestamp, payload.bytes.take len.toNat,
      by rw [length]; exact positive, by rw [length]; exact bounded⟩
    have payloadLen : UInt16.ofNat (payload.bytes.take len.toNat).length = len := by
      rw [length, UInt16.ofNat_toNat]
    have content : message.content =
        ⟨type, seq, timestamp, len, payload.bytes.take len.toNat⟩ := by
      simp only [Message.content, message, payloadLen]
    have whole : fed.window = message.bytes := by
      rw [window, Message.bytes, content]
      rfl
    have pulled : frameScanner.pull fed.window = (some message.bytes, []) := by
      have decision := message.decision_bytes []
      rw [List.append_nil] at decision
      rw [whole, Scanner.pull_accept decision, List.take_length, List.drop_length]
    rcases FrameParser.frameParserGet_pull valid scratch with
      ⟨next, _, _, nothing⟩ | ⟨next, frame, block, got, kept, some, bytes⟩
    · rw [pulled] at nothing
      cases nothing
    · rw [pulled, Prod.mk.injEq, Option.some.injEq] at some
      obtain ⟨same, empty⟩ := some
      have accepted := (frameScanner.pull_accepted pulled).1
      refine ⟨fed, next, frame, ran, got, ?_, ?_⟩
      · rw [Frame.content_of_bytes (same ▸ accepted) bytes, ← same, message.content_bytes, content]
      · have index := FrameParser.length_window kept
        rw [← empty] at index
        exact UInt16.toNat_inj.mp index.symm

end

theorem accepts_one_octet : ∃ out after,
    frameEncode 1 (some (Block.ofBytes [0x55])) 1 2 3 (some blankFrame) (some 0) =
        some ⟨0, some out, some after⟩ ∧
      AcceptedAs blankParser blankFrame out.bytes after ⟨1, 2, 3, 1, [0x55]⟩ := by
  have bounded : (1 : UInt16).toNat ≤ frameMaxPayload := by decide
  obtain ⟨out, encoded, -⟩ := frameEncode_fits 1 (Block.ofBytes [0x55]) 2 3 blankFrame 0 bounded
    (by decide) (by decide)
  exact ⟨out, _, encoded, (accepts_encoded_iff encoded blankParser blankFrame).mpr (by decide)⟩

/-- An empty payload is encoded without an error and not taken back. -/
theorem empty_payload_not_accepted : ∃ out after,
    frameEncode 1 (some (Block.ofBytes [0x55])) 0 2 3 (some blankFrame) (some 0) =
        some ⟨0, some out, some after⟩ ∧
      ¬ AcceptedAs blankParser blankFrame out.bytes after ⟨1, 2, 3, 0, []⟩ := by
  have bounded : (0 : UInt16).toNat ≤ frameMaxPayload := by decide
  obtain ⟨out, encoded, -⟩ := frameEncode_fits 1 (Block.ofBytes [0x55]) 2 3 blankFrame 0 bounded
    (by decide) (by decide)
  obtain ⟨fed, ran, valid, window⟩ := fed_encoded encoded blankParser
  refine ⟨out, _, encoded, ?_⟩
  rintro ⟨other, next, frame, ran', got, -⟩
  rw [ran] at ran'
  cases ran'
  have large := get_frame_length valid got
  rw [window, length_frameBytes] at large
  exact absurd large (by decide)

end Simuless.Telemetry
