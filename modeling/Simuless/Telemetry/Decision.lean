import Simuless.Foundation.Scanner
import Simuless.Telemetry.Encoder

/-! What the octets at hand allow to decide.

`frameDecision` is the reference for one position of the stream: wait until a
header and then a whole frame are there, discard an octet that cannot start a
frame, accept a frame whose checksum holds. An accepted block is exactly what
the encoder writes for the content read from it.
-/

set_option autoImplicit false

namespace Simuless.Telemetry

open Foundation

def frameDecision (held : Bytes) : Decision :=
  if held.length < sizeofHeader then .wait
  else if held[0]? ≠ some frameMagic then .discard
  else
    let len := (FrameHeader.ofBytes held).payloadLen.toNat
    if len = 0 ∨ frameMaxPayload < len then .discard
    else if held.length < sizeofHeader + len + 1 then .wait
    else if held[sizeofHeader + len]? ≠ some (xorOf (held.take (sizeofHeader + len))) then .discard
    else .accept (sizeofHeader + len + 1)

/-- A frame with `len` payload octets stands at the front. -/
structure Complete (held : Bytes) (len : Nat) : Prop where
  magic : held[0]? = some frameMagic
  payloadLen : (FrameHeader.ofBytes held).payloadLen.toNat = len
  nonempty : 0 < len
  bounded : len ≤ frameMaxPayload
  arrived : sizeofHeader + len + 1 ≤ held.length
  checksum : held[sizeofHeader + len]? = some (xorOf (held.take (sizeofHeader + len)))

theorem Complete.decision {held : Bytes} {len : Nat} (complete : Complete held len) :
    frameDecision held = .accept (sizeofHeader + len + 1) := by
  have arrived := complete.arrived
  have nonempty := complete.nonempty
  have bounded := complete.bounded
  simp only [frameDecision, complete.magic, complete.payloadLen, complete.checksum]
  rw [if_neg (by omega), if_neg (by simp), if_neg (by omega), if_neg (by omega), if_neg (by simp)]

theorem complete_of_accept {held : Bytes} {length : Nat}
    (decision : frameDecision held = .accept length) :
    ∃ len, length = sizeofHeader + len + 1 ∧ Complete held len := by
  unfold frameDecision at decision
  split at decision
  case isTrue => cases decision
  case isFalse header =>
    split at decision
    case isTrue => cases decision
    case isFalse magic =>
      dsimp only at decision
      split at decision
      case isTrue => cases decision
      case isFalse range =>
        split at decision
        case isTrue => cases decision
        case isFalse arrived =>
          split at decision
          case isTrue => cases decision
          case isFalse checksum =>
            refine ⟨_, (Decision.accept.inj decision).symm, ?_⟩
            exact {
              magic := Decidable.of_not_not magic
              payloadLen := rfl
              nonempty := by omega
              bounded := by omega
              arrived := by omega
              checksum := Decidable.of_not_not checksum }

theorem Complete.take {held : Bytes} {len : Nat} (complete : Complete held len) :
    Complete (held.take (sizeofHeader + len + 1)) len := by
  have arrived := complete.arrived
  exact {
    magic := by rw [List.getElem?_take_of_lt (by omega)]; exact complete.magic
    payloadLen := by
      rw [FrameHeader.ofBytes_take _ _ (by omega) (by omega)]
      exact complete.payloadLen
    nonempty := complete.nonempty
    bounded := complete.bounded
    arrived := by rw [List.length_take]; omega
    checksum := by
      rw [List.getElem?_take_of_lt (by omega), List.take_take, Nat.min_eq_left (by omega)]
      exact complete.checksum }

/-- A decision other than waiting reads no octet that could still arrive. -/
theorem frameDecision_stable {held : Bytes} (later : Bytes) (decided : frameDecision held ≠ .wait) :
    frameDecision (held ++ later) = frameDecision held := by
  by_cases short : held.length < sizeofHeader
  · exact absurd (if_pos short) decided
  · have complete : sizeofHeader ≤ held.length := Nat.le_of_not_lt short
    have long : ¬ (held ++ later).length < sizeofHeader := by
      rw [List.length_append]
      omega
    have magic : (held ++ later)[0]? = held[0]? :=
      List.getElem?_append_left (by unfold sizeofHeader at complete; omega)
    unfold frameDecision at decided ⊢
    rw [FrameHeader.ofBytes_append _ _ complete, magic]
    simp only [short, long, if_false] at decided ⊢
    split at decided
    case isTrue no => rw [if_pos no, if_pos no]
    case isFalse aligned =>
      rw [if_neg aligned, if_neg aligned]
      split at decided
      case isTrue no => rw [if_pos no, if_pos no]
      case isFalse range =>
        rw [if_neg range, if_neg range]
        split at decided
        case isTrue => exact absurd rfl decided
        case isFalse arrived =>
          -- the checksum and what it covers lie in the first part
          have whole : ¬ (held ++ later).length <
              sizeofHeader + (FrameHeader.ofBytes held).payloadLen.toNat + 1 := by
            rw [List.length_append]
            omega
          rw [if_neg arrived, if_neg whole, List.getElem?_append_left (by omega),
            List.take_append_of_le_length (by omega)]

/-- The frame protocol as a scanner of octets. -/
def frameScanner : Scanner UInt8 where
  decide := frameDecision
  discard_nonempty := by
    intro held decision
    cases held with
    | nil => cases decision
    | cons => exact Nat.zero_lt_succ _
  accept_nonempty := by
    intro held length decision
    obtain ⟨len, rfl, -⟩ := complete_of_accept decision
    exact Nat.zero_lt_succ _
  accept_held := by
    intro held length decision
    obtain ⟨len, rfl, complete⟩ := complete_of_accept decision
    exact complete.arrived
  accept_alone := by
    intro held length decision
    obtain ⟨len, rfl, complete⟩ := complete_of_accept decision
    exact complete.take.decision
  stable := frameDecision_stable

/-- Frames larger than the struct are never accepted. -/
theorem accept_le_sizeofFrame {held : Bytes} {length : Nat}
    (decision : frameDecision held = .accept length) : length ≤ sizeofFrame := by
  obtain ⟨len, rfl, complete⟩ := complete_of_accept decision
  have bounded := complete.bounded
  unfold sizeofFrame
  omega

/-- A parser that waits has room for another octet. -/
theorem wait_lt_sizeofFrame {held : Bytes} (decision : frameDecision held = .wait) :
    held.length < sizeofFrame := by
  unfold frameDecision at decision
  unfold sizeofFrame
  split at decision
  · omega
  · split at decision
    · cases decision
    · dsimp only at decision
      split at decision
      · cases decision
      · split at decision
        · omega
        · split at decision <;> cases decision

/-- An octet other than the magic one is dropped as soon as a header is there. -/
theorem decision_noise {held : Bytes} (header : sizeofHeader ≤ held.length)
    (noise : held[0]? ≠ some frameMagic) : frameDecision held = .discard := by
  rw [frameDecision, if_neg (Nat.not_lt.mpr header), if_pos noise]

/-! The content of an accepted block. -/

/-- What a block of octets says when read as a frame. -/
def contentOf (block : Bytes) : Content where
  type := (FrameHeader.ofBytes block).type
  sequence := (FrameHeader.ofBytes block).sequence
  timestampUs := (FrameHeader.ofBytes block).timestampUs
  payloadLen := (FrameHeader.ofBytes block).payloadLen
  payload := (block.drop sizeofHeader).take (FrameHeader.ofBytes block).payloadLen.toNat

theorem header_magic {held : Bytes} (magic : held[0]? = some frameMagic) :
    (FrameHeader.ofBytes held).magic = frameMagic := by
  cases held with
  | nil => cases magic
  | cons first rest =>
    simp only [List.getElem?_cons_zero, Option.some.injEq] at magic
    subst magic
    simp [FrameHeader.ofBytes, field, valueOf]

/-- Decoding then encoding an accepted block gives its octets back. -/
theorem Complete.frameBytes_content {block : Bytes} {len : Nat} (complete : Complete block len)
    (exact : block.length = sizeofHeader + len + 1) :
    frameBytes (contentOf block).header (contentOf block).payload = block := by
  have header : (contentOf block).header = FrameHeader.ofBytes block := by
    unfold contentOf Content.header
    rw [← header_magic complete.magic]
  have body : (FrameHeader.ofBytes block).toBytes ++ (block.drop sizeofHeader).take len =
      block.take (sizeofHeader + len) := by
    rw [FrameHeader.toBytes_ofBytes block (by omega), List.take_add]
  have payload : (contentOf block).payload = (block.drop sizeofHeader).take len := by
    unfold contentOf
    rw [complete.payloadLen]
  rw [frameBytes, header, payload, body]
  have last := complete.checksum
  have bound : sizeofHeader + len < block.length := by omega
  rw [List.getElem?_eq_getElem bound, Option.some.injEq] at last
  rw [← last, List.take_append_getElem, List.take_of_length_le (by omega)]

/-- An accepted block is what the encoder writes for its content, in any
buffer with room for a frame. -/
theorem encodeInto_accepted {size : Nat} {block : Bytes}
    (accepted : frameDecision block = .accept block.length) (buf : Block size) (outLen : UInt16)
    (room : sizeofFrame ≤ size) : encodeInto (contentOf block) buf outLen = some block := by
  obtain ⟨len, exact, complete⟩ := complete_of_accept accepted
  have bounded := complete.bounded
  have length : (contentOf block).payload.length = (contentOf block).payloadLen.toNat := by
    simp only [contentOf, List.length_take, List.length_drop, complete.payloadLen]
    omega
  have payloadLen : (contentOf block).payloadLen.toNat = len := complete.payloadLen
  unfold sizeofFrame at room
  rw [encodeInto_fits _ buf outLen (by omega) (by omega) (by omega),
    List.take_of_length_le (by omega), complete.frameBytes_content exact]

/-! Frames of messages. -/

namespace Message

variable (message : Message)

theorem header_bytes (later : Bytes) :
    FrameHeader.ofBytes (message.bytes ++ later) = message.content.header := by
  simp only [bytes, frameBytes, List.append_assoc]
  exact FrameHeader.ofBytes_toBytes _ _

theorem bytes_magic : message.bytes[0]? = some frameMagic := by
  simp [bytes, frameBytes, FrameHeader.toBytes, Content.header, littleEndian]

theorem complete : Complete message.bytes message.payload.length where
  magic := message.bytes_magic
  payloadLen := by
    rw [← List.append_nil message.bytes, message.header_bytes]
    exact message.payloadLen_toNat
  nonempty := message.nonempty
  bounded := message.bounded
  arrived := message.length_bytes.ge
  checksum := by
    have body : (message.content.header.toBytes ++ message.payload).length =
        sizeofHeader + message.payload.length := by
      rw [List.length_append, FrameHeader.length_toBytes]
    simp only [bytes, frameBytes, ← body, List.take_left', List.getElem?_concat_length]

theorem decision_bytes (later : Bytes) :
    frameDecision (message.bytes ++ later) = .accept message.bytes.length := by
  have decision := message.complete.decision
  rw [← message.length_bytes] at decision
  rw [frameDecision_stable later (by rw [decision]; simp), decision]

/-- Part of a frame is waited on, however little of it is there. -/
theorem decision_part {part : Bytes} (front : part <+: message.bytes)
    (short : part.length < message.bytes.length) : frameDecision part = .wait := by
  obtain ⟨later, whole⟩ := front
  by_cases header : part.length < sizeofHeader
  · exact if_pos header
  · have read : FrameHeader.ofBytes part = message.content.header := by
      rw [← FrameHeader.ofBytes_append part later (by omega), whole,
        ← List.append_nil message.bytes, message.header_bytes]
    have magic : part[0]? = some frameMagic := by
      rw [← message.bytes_magic, ← whole,
        List.getElem?_append_left (by unfold sizeofHeader at header; omega)]
    have len : (FrameHeader.ofBytes part).payloadLen.toNat = message.payload.length := by
      rw [read]
      exact message.payloadLen_toNat
    have nonempty := message.nonempty
    have bounded := message.bounded
    rw [message.length_bytes] at short
    simp only [frameDecision, magic, len]
    rw [if_neg header, if_neg (by simp), if_neg (by omega), if_pos short]

theorem content_bytes : contentOf message.bytes = message.content := by
  have header : FrameHeader.ofBytes message.bytes = message.content.header := by
    rw [← List.append_nil message.bytes, message.header_bytes]
  have payload : (message.bytes.drop sizeofHeader).take message.payload.length =
      message.payload := frameBytes_payload _ _
  unfold contentOf
  rw [header]
  simp only [Content.header, message.payloadLen_toNat, payload]
  rfl

end Message

end Simuless.Telemetry
