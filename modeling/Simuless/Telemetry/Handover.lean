import Simuless.Telemetry.Stream

/-! The struct handed out for a received frame.

The parser copies the octets of a frame onto the struct as they came. On the
wire the checksum stands right behind the payload, in the struct behind room
for the largest payload, so the two layouts agree for the largest one only.
-/

set_option autoImplicit false

namespace Simuless.Telemetry

open Foundation

/-- The octets of the frame the parser gives out next. -/
def FrameParser.received (parser : FrameParser) : Option Bytes :=
  (frameScanner.pull parser.window).1

/-- The payload length in the header of a received frame. -/
def payloadLength (received : Bytes) : Nat := (FrameHeader.ofBytes received).payloadLen.toNat

/-- The struct agrees member by member with the octets received, and the payload
array behind the payload is as it was. -/
structure Agrees (out frame : Frame) (received : Bytes) : Prop where
  header : frame.bytes.take sizeofHeader = received.take sizeofHeader
  payload : frame.payload.take (payloadLength received) =
    (received.drop sizeofHeader).take (payloadLength received)
  checksum : received[sizeofHeader + payloadLength received]? = some frame.checksum
  behind : frame.payload.drop (payloadLength received) = out.payload.drop (payloadLength received)

/-- What a call of `smls_frame_parser_get` should leave in the caller's struct. -/
def HandsOver (parser : FrameParser) (out : Frame) : Prop :=
  ∀ ret next frame, frameParserGet parser out = some (ret, next, frame) →
    (ret = 0 ∧ frame = out) ∨
    (ret = 1 ∧ ∃ received, parser.received = some received ∧ Agrees out frame received)

/-- The checksum lands in its member, or both octets concerned hold it already. -/
def ChecksumFits (out : Frame) (received : Bytes) : Prop :=
  payloadLength received = frameMaxPayload ∨
    (out.payload[payloadLength received]? = received[sizeofHeader + payloadLength received]? ∧
      some out.checksum = received[sizeofHeader + payloadLength received]?)

/-! A frame copied onto the struct. -/

section
variable {out frame : Frame} {received : Bytes} {len : Nat}

theorem Frame.checksum_eq (frame : Frame) :
    some frame.checksum = frame.bytes[sizeofHeader + frameMaxPayload]? := by
  have inside : sizeofHeader + frameMaxPayload < frame.bytes.length := by
    rw [frame.length_bytes]
    exact Nat.lt_succ_self _
  rw [checksum, List.getD_eq_getElem?_getD, List.getElem?_eq_getElem inside]
  rfl

theorem Frame.payload_getElem? (frame : Frame) {i : Nat} (inside : i < frameMaxPayload) :
    frame.payload[i]? = frame.bytes[sizeofHeader + i]? := by
  rw [payload, List.getElem?_take_of_lt inside, List.getElem?_drop]

/-- Octet for octet the struct holds the frame received and then what it held before. -/
theorem copied_getElem? (bytes : frame.bytes = received ++ out.bytes.drop received.length) (i : Nat) :
    frame.bytes[i]? = if i < received.length then received[i]? else out.bytes[i]? := by
  rw [bytes]
  by_cases inside : i < received.length
  · rw [if_pos inside, List.getElem?_append_left inside]
  · rw [if_neg inside, List.getElem?_append_right (Nat.le_of_not_lt inside), List.getElem?_drop]
    congr 1
    omega

/-- Behind the payload only the element next to it may change. -/
theorem behind_iff (bytes : frame.bytes = received ++ out.bytes.drop received.length)
    (length : received.length = sizeofHeader + len + 1) (short : len < frameMaxPayload) :
    frame.payload.drop len = out.payload.drop len ↔
      out.payload[len]? = received[sizeofHeader + len]? := by
  have copied := copied_getElem? bytes
  have next : frame.payload[len]? = received[sizeofHeader + len]? := by
    rw [frame.payload_getElem? short, copied, if_pos (by omega)]
  constructor
  · intro same
    have first := congrArg (fun rest => rest[0]?) same
    simp only [List.getElem?_drop, Nat.add_zero] at first
    rw [← first, next]
  · intro held
    apply List.ext_getElem?
    intro i
    rw [List.getElem?_drop, List.getElem?_drop]
    by_cases inside : len + i < frameMaxPayload
    · cases i with
      | zero => exact next.trans held.symm
      | succ i =>
        rw [frame.payload_getElem? inside, out.payload_getElem? inside, copied, if_neg (by omega)]
    · have beyond (frame : Frame) : frame.payload[len + i]? = none := by
        rw [Frame.payload, List.getElem?_take_eq_none (Nat.le_of_not_lt inside)]
      rw [beyond, beyond]

theorem agrees_iff (bytes : frame.bytes = received ++ out.bytes.drop received.length)
    (complete : Complete received len) (exact_length : received.length = sizeofHeader + len + 1) :
    Agrees out frame received ↔ ChecksumFits out received := by
  have length : payloadLength received = len := complete.payloadLen
  subst length
  have bounded := complete.bounded
  have copied := copied_getElem? bytes
  have header : frame.bytes.take sizeofHeader = received.take sizeofHeader := by
    rw [bytes, List.take_append_of_le_length (by omega)]
  have payload : frame.payload.take (payloadLength received) =
      (received.drop sizeofHeader).take (payloadLength received) := by
    rw [Frame.payload, bytes, List.take_take, Nat.min_eq_left bounded,
      List.drop_append_of_le_length (by omega), List.take_append_of_le_length]
    rw [List.length_drop]
    omega
  by_cases full : payloadLength received = frameMaxPayload
  · have checksum : received[sizeofHeader + payloadLength received]? = some frame.checksum := by
      rw [frame.checksum_eq, copied, if_pos (by omega), full]
    have behind : frame.payload.drop (payloadLength received) =
        out.payload.drop (payloadLength received) := by
      rw [full, Frame.payload, Frame.payload, List.drop_take, List.drop_take, Nat.sub_self]
      rfl
    exact iff_of_true ⟨header, payload, checksum, behind⟩ (.inl full)
  · have checksum : some frame.checksum = some out.checksum := by
      rw [frame.checksum_eq, copied, if_neg (by omega), out.checksum_eq]
    have behind := behind_iff bytes exact_length (by omega)
    constructor
    · intro agrees
      exact .inr ⟨behind.mp agrees.behind, checksum ▸ agrees.checksum.symm⟩
    · rintro (whole | ⟨element, member⟩)
      · exact absurd whole full
      · exact ⟨header, payload, (checksum.trans member).symm, behind.mpr element⟩

end

/-! The call. -/

/-- A parser that claims to hold more than its buffer cannot move what it holds. -/
theorem shift_valid {parser : FrameParser} {count : Nat} {moved : Block sizeofFrame}
    (held : count ≤ parser.index.toNat) (done : parser.buffer.memmove 0 count
      (toSize ((parser.index.toNat : Int) - (count : Int))) = some moved) : parser.Valid := by
  have fits := Block.memmove_fits done
  rw [toSize_sub _ _ held parser.index_lt] at fits
  unfold FrameParser.Valid
  omega

theorem discardOldest_valid {parser next : FrameParser} (held : 0 < parser.index.toNat)
    (discarded : discardOldest parser = some next) : parser.Valid := by
  simp only [discardOldest, Option.bind_eq_bind, Option.bind_eq_some_iff] at discarded
  obtain ⟨moved, done, -⟩ := discarded
  exact shift_valid held done

theorem getLoop_valid {fuel : Nat} {parser : FrameParser} {out : Frame}
    {result : Int × FrameParser × Frame} (got : getLoop fuel parser out = some result) :
    parser.Valid := by
  cases fuel with
  | zero => cases got
  | succ fuel =>
    have discards {rest : FrameParser → Option (Int × FrameParser × Frame)}
        (header : ¬ parser.index.toNat < sizeofHeader)
        (ran : (discardOldest parser).bind rest = some result) : parser.Valid := by
      obtain ⟨next, discarded, -⟩ := Option.bind_eq_some_iff.mp ran
      exact discardOldest_valid (by unfold sizeofHeader at header; omega) discarded
    simp only [getLoop] at got
    split at got
    case isTrue short => exact short.le.trans (by decide)
    case isFalse header =>
      split at got
      case isTrue => exact discards header got
      case isFalse =>
        split at got
        case isTrue => exact discards header got
        case isFalse range =>
          have bounded : (FrameHeader.ofBytes parser.buffer.bytes).payloadLen.toNat ≤
              frameMaxPayload := by
            omega
          have total := total_toNat _ bounded
          have small : sizeofHeader + (FrameHeader.ofBytes parser.buffer.bytes).payloadLen.toNat + 1 ≤
              sizeofFrame := by
            unfold sizeofFrame
            omega
          split at got
          case isTrue part =>
            rw [UInt16.lt_iff_toNat_lt, total] at part
            exact part.le.trans small
          case isFalse arrived =>
            rw [UInt16.lt_iff_toNat_lt, total, Nat.not_lt] at arrived
            simp only [Option.bind_eq_bind, Option.bind_eq_some_iff] at got
            obtain ⟨expected, -, received, -, got⟩ := got
            split at got
            case isTrue => exact discards header got
            case isFalse =>
              simp only [consumeFrame, Option.bind_eq_bind, Option.bind_eq_some_iff] at got
              obtain ⟨_, -, _, -, moved, done, -⟩ := got
              rw [total] at done
              exact shift_valid arrived done

theorem HandsOver.fits {parser : FrameParser} {out : Frame} (hands : HandsOver parser out)
    (valid : parser.Valid) {received : Bytes} (pulled : parser.received = some received) :
    ChecksumFits out received := by
  rcases FrameParser.frameParserGet_pull valid out with
    ⟨next, got, -, none⟩ | ⟨next, frame, block, got, -, found, bytes⟩
  · rw [FrameParser.received, none] at pulled
    cases pulled
  · rcases hands 1 next frame got with ⟨zero, -⟩ | ⟨-, received', pulled', agrees⟩
    · cases zero
    cases pulled.symm.trans pulled'
    rw [FrameParser.received, found] at pulled
    cases pulled
    obtain ⟨len, length, complete⟩ := complete_of_accept (frameScanner.pull_accepted found).1
    exact (agrees_iff bytes complete length).mp agrees

/-- The struct agrees with the frame received if and only if the payload has the
largest length, or the two members that should and do change hold the checksum. -/
theorem frameParserGet_agrees_iff (parser : FrameParser) (out : Frame) : HandsOver parser out ↔
    (parser.Valid → ∀ received, parser.received = some received → ChecksumFits out received) := by
  constructor
  · intro hands valid received pulled
    exact hands.fits valid pulled
  · intro fits ret next frame got
    have valid := getLoop_valid got
    rcases FrameParser.frameParserGet_pull valid out with
      ⟨next', got', -⟩ | ⟨next', frame', block, got', -, found, bytes⟩
    · cases got.symm.trans got'
      exact .inl ⟨rfl, rfl⟩
    · cases got.symm.trans got'
      have received : parser.received = some block := by
        rw [FrameParser.received, found]
      obtain ⟨len, length, complete⟩ := complete_of_accept (frameScanner.pull_accepted found).1
      have agrees := (agrees_iff bytes complete length).mpr (fits valid block received)
      exact .inr ⟨rfl, block, received, agrees⟩

/-- A parser that holds one frame of one payload octet. -/
def pingParser : FrameParser where
  buffer := ⟨ping.bytes ++ List.replicate 255 0, by
    rw [List.length_append, ping.length_bytes, List.length_replicate]
    rfl⟩
  index := 18

theorem ping_checksum_misplaced : ¬ HandsOver pingParser blankFrame := by
  intro hands
  have accepted : frameDecision pingParser.window = .accept 18 := ping.decision_bytes []
  have pulled : frameScanner.pull pingParser.window =
      (some (pingParser.window.take 18), pingParser.window.drop 18) := Scanner.pull_accept accepted
  have received : pingParser.received = some ping.bytes := by
    rw [FrameParser.received, pulled]
    rfl
  have valid : pingParser.Valid := by
    unfold FrameParser.Valid
    decide
  rcases hands.fits valid received with full | ⟨element, -⟩
  · exact absurd full (by decide)
  · exact absurd element (by decide)

end Simuless.Telemetry
