import Simuless.Telemetry.Frame

/-! The frame encoder.

The encoder writes into a buffer of the caller, whatever it held before. A
missing pointer is `none`; a call that would leave one of its objects has no
result.
-/

set_option autoImplicit false

namespace Simuless.Telemetry

open Foundation

variable {size payloadSize : Nat}

/-- The return code with the two objects of the caller afterwards. -/
structure EncodeResult (size : Nat) where
  ret : Int
  outBuf : Option (Block size)
  outLen : Option UInt16

/-- `smls_frame_checksum` of the encoder. -/
def smlsFrameChecksum (data : Block size) (len : UInt16) : Option UInt8 := xorChecksum data len

/-- The header fields, one store each through the packed struct pointer. -/
def writeHeader (header : FrameHeader) (buf : Block size) : Option (Block size) := do
  let buf ← buf.store 0 (littleEndian 1 header.magic.toNat)
  let buf ← buf.store 1 (littleEndian 1 header.type.toNat)
  let buf ← buf.store 2 (littleEndian 8 header.timestampUs.toNat)
  let buf ← buf.store 10 (littleEndian 4 header.sequence.toNat)
  buf.store 14 (littleEndian 2 header.payloadLen.toNat)

/-- The payload copy; a missing or empty payload leaves the buffer alone. -/
def copyPayload (payload : Option (Block payloadSize)) (len : UInt16) (buf : Block size) :
    Option (Block size) :=
  match payload with
  | some payload =>
      if 0 < len then do
        let data ← payload.load 0 len.toNat
        buf.store sizeofHeader data
      else some buf
  | none => some buf

/-- The header a call writes. -/
def encodedHeader (type : UInt8) (len : UInt16) (seq : UInt32) (timestamp : UInt64) : FrameHeader where
  magic := frameMagic
  type := type
  timestampUs := timestamp
  sequence := seq
  payloadLen := len

def frameEncode (type : UInt8) (payload : Option (Block payloadSize)) (len : UInt16) (seq : UInt32)
    (timestamp : UInt64) (outBuf : Option (Block size)) (outLen : Option UInt16) :
    Option (EncodeResult size) :=
  match outBuf, outLen with
  | some buf, some _ =>
      -- a length of zero passes this check
      if frameMaxPayload < len.toNat then some ⟨-2, outBuf, outLen⟩
      else do
        let buf ← writeHeader (encodedHeader type len seq timestamp) buf
        let buf ← copyPayload payload len buf
        -- the checksum covers what the buffer holds by now, with or without a payload
        let total := UInt16.ofNat (sizeofHeader + len.toNat + 1)
        let checksum ← smlsFrameChecksum buf (total - 1)
        let buf ← buf.store (total.toNat - 1) [checksum]
        return ⟨0, some buf, some total⟩
  | _, _ => some ⟨-1, outBuf, outLen⟩

/-- The octets a successful call reports to its caller. -/
def EncodeResult.bytes (result : EncodeResult size) : Option Bytes :=
  match result with
  | ⟨0, some out, some len⟩ => some (out.bytes.take len.toNat)
  | _ => none

/-- Encoding a content into a buffer: the octets sent, if the call succeeds. -/
def encodeInto (content : Content) (buf : Block size) (outLen : UInt16) : Option Bytes := do
  let result ← frameEncode content.type (some (Block.ofBytes content.payload)) content.payloadLen
    content.sequence content.timestampUs (some buf) (some outLen)
  result.bytes

theorem writeHeader_fits (header : FrameHeader) (buf : Block size) (room : sizeofHeader ≤ size) :
    ∃ next, writeHeader header buf = some next ∧
      next.bytes = header.toBytes ++ buf.bytes.drop sizeofHeader := by
  unfold sizeofHeader at room
  have whole := buf.length_bytes
  -- every store stands behind the fields already written
  obtain ⟨b₁, s₁, e₁⟩ := buf.store_append (List.nil_append _).symm
    (littleEndian 1 header.magic.toNat) (by simp; omega)
  obtain ⟨b₂, s₂, e₂⟩ := b₁.store_append e₁
    (littleEndian 1 header.type.toNat) (by simp; omega)
  obtain ⟨b₃, s₃, e₃⟩ := b₂.store_append e₂
    (littleEndian 8 header.timestampUs.toNat) (by simp; omega)
  obtain ⟨b₄, s₄, e₄⟩ := b₃.store_append e₃
    (littleEndian 4 header.sequence.toNat) (by simp; omega)
  obtain ⟨b₅, s₅, e₅⟩ := b₄.store_append e₄
    (littleEndian 2 header.payloadLen.toNat) (by simp; omega)
  simp only [List.length_nil, List.length_append, length_littleEndian] at s₁ s₂ s₃ s₄ s₅
  refine ⟨b₅, ?_, ?_⟩
  · simp only [writeHeader, s₁, Option.bind_eq_bind, Option.bind_some, s₂, s₃, s₄, s₅]
  · rw [e₅]
    simp only [FrameHeader.toBytes, sizeofHeader, List.nil_append, length_littleEndian,
      List.drop_drop, List.append_assoc]

/-- The total of a frame does not wrap around 16 bits. -/
theorem total_toNat (len : Nat) (bounded : len ≤ frameMaxPayload) :
    (UInt16.ofNat (sizeofHeader + len + 1)).toNat = sizeofHeader + len + 1 := by
  unfold frameMaxPayload at bounded
  simp only [UInt16.toNat_ofNat', sizeofHeader]
  omega

theorem total_pred_toNat (len : Nat) (bounded : len ≤ frameMaxPayload) :
    (UInt16.ofNat (sizeofHeader + len + 1) - 1).toNat = sizeofHeader + len := by
  have total := total_toNat len bounded
  have one : (1 : UInt16).toNat = 1 := rfl
  rw [UInt16.toNat_sub, total, one]
  unfold frameMaxPayload at bounded
  unfold sizeofHeader
  omega

section
variable {type : UInt8} (payload : Block payloadSize) {len : UInt16} {seq : UInt32}
  {timestamp : UInt64}

theorem length_payload_take (held : len.toNat ≤ payloadSize) :
    (payload.bytes.take len.toNat).length = len.toNat := by
  rw [List.length_take, payload.length_bytes]
  omega

theorem copyPayload_fits (buf : Block size) {done rest : Bytes} (bytes : buf.bytes = done ++ rest)
    (headed : done.length = sizeofHeader) (held : len.toNat ≤ payloadSize)
    (room : len.toNat ≤ rest.length) :
    ∃ next, copyPayload (some payload) len buf = some next ∧
      next.bytes = done ++ payload.bytes.take len.toNat ++ rest.drop len.toNat := by
  have data := length_payload_take payload held
  by_cases present : 0 < len
  · obtain ⟨next, stored, result⟩ := buf.store_append bytes (payload.bytes.take len.toNat) (by omega)
    refine ⟨next, ?_, by rw [result, data]⟩
    rw [headed] at stored
    simp only [copyPayload, present, if_true, payload.load_fits 0 len.toNat (by omega),
      List.drop_zero]
    exact stored
  · have zero : len.toNat = 0 := by
      have := (UInt16.lt_iff_toNat_lt (a := 0) (b := len)).not.mp present
      simpa using this
    refine ⟨buf, by simp only [copyPayload, present, if_false], ?_⟩
    simp only [zero, List.take_zero, List.append_nil, List.drop_zero, bytes]

variable (type seq timestamp) in
/-- With room for the frame the encoder writes it in front of what the buffer
held behind it, whatever the payload copy puts between header and checksum. -/
theorem frameEncode_copied (source : Option (Block payloadSize)) (buf : Block size) (before : UInt16)
    (bounded : len.toNat ≤ frameMaxPayload) (room : sizeofHeader + len.toNat + 1 ≤ size)
    {data : Bytes} (length : data.length = len.toNat)
    (copies : ∀ headed : Block size, headed.bytes =
        (encodedHeader type len seq timestamp).toBytes ++ buf.bytes.drop sizeofHeader →
      ∃ copied, copyPayload source len headed = some copied ∧ copied.bytes =
        (encodedHeader type len seq timestamp).toBytes ++ data ++
          (buf.bytes.drop sizeofHeader).drop len.toNat) :
    ∃ out, frameEncode type source len seq timestamp (some buf) (some before) =
        some ⟨0, some out, some (.ofNat (sizeofHeader + len.toNat + 1))⟩ ∧
      out.bytes = frameBytes (encodedHeader type len seq timestamp) data ++
        buf.bytes.drop (sizeofHeader + len.toNat + 1) := by
  let header := encodedHeader type len seq timestamp
  let body := header.toBytes ++ data
  have size_body : body.length = sizeofHeader + len.toNat := by
    rw [List.length_append, FrameHeader.length_toBytes, length]
  obtain ⟨b₁, headed, e₁⟩ := writeHeader_fits header buf (by omega)
  obtain ⟨b₂, copied, e₂⟩ := copies b₁ e₁
  have summed : smlsFrameChecksum b₂ (.ofNat (sizeofHeader + len.toNat + 1) - 1) =
      some (xorOf body) := by
    have pred := total_pred_toNat len.toNat bounded
    rw [smlsFrameChecksum, xorChecksum_fits b₂ _ (by omega), pred, e₂, List.take_left' size_body]
  obtain ⟨b₃, closed, e₃⟩ := b₂.store_append e₂ [xorOf body] (by
    rw [List.length_drop, List.length_drop, buf.length_bytes, List.length_singleton]
    omega)
  rw [show (header.toBytes ++ data).length = _ from size_body] at closed
  refine ⟨b₃, ?_, ?_⟩
  · have small : ¬ frameMaxPayload < len.toNat := Nat.not_lt.mpr bounded
    simp only [frameEncode, if_neg small, show writeHeader (encodedHeader type len seq timestamp) buf =
      some b₁ from headed, Option.bind_eq_bind, Option.bind_some, copied, summed,
      total_toNat len.toNat bounded, Nat.add_sub_cancel, closed]
    rfl
  · rw [e₃]
    simp only [frameBytes, body, header, List.drop_drop, List.length_singleton, Nat.add_assoc]

variable (type seq timestamp) in
theorem frameEncode_fits (buf : Block size) (before : UInt16) (bounded : len.toNat ≤ frameMaxPayload)
    (held : len.toNat ≤ payloadSize) (room : sizeofHeader + len.toNat + 1 ≤ size) :
    ∃ out, frameEncode type (some payload) len seq timestamp (some buf) (some before) =
        some ⟨0, some out, some (.ofNat (sizeofHeader + len.toNat + 1))⟩ ∧
      out.bytes = frameBytes (encodedHeader type len seq timestamp) (payload.bytes.take len.toNat) ++
        buf.bytes.drop (sizeofHeader + len.toNat + 1) := by
  apply frameEncode_copied type seq timestamp (some payload) buf before bounded room
    (length_payload_take payload held)
  intro headed bytes
  apply copyPayload_fits payload headed bytes (FrameHeader.length_toBytes _) held
  rw [List.length_drop, buf.length_bytes]
  omega

variable (type seq timestamp) in
/-- Without a payload the frame carries what the buffer held at its place. -/
theorem frameEncode_stale (buf : Block size) (before : UInt16) (bounded : len.toNat ≤ frameMaxPayload)
    (room : sizeofHeader + len.toNat + 1 ≤ size) :
    ∃ out, frameEncode type (none : Option (Block payloadSize)) len seq timestamp (some buf)
        (some before) = some ⟨0, some out, some (.ofNat (sizeofHeader + len.toNat + 1))⟩ ∧
      out.bytes = frameBytes (encodedHeader type len seq timestamp)
          ((buf.bytes.drop sizeofHeader).take len.toNat) ++
        buf.bytes.drop (sizeofHeader + len.toNat + 1) := by
  have length : ((buf.bytes.drop sizeofHeader).take len.toNat).length = len.toNat := by
    rw [List.length_take, List.length_drop, buf.length_bytes]
    omega
  apply frameEncode_copied type seq timestamp none buf before bounded room length
  intro headed bytes
  refine ⟨headed, rfl, ?_⟩
  rw [bytes, List.append_assoc, List.take_append_drop]

/-- A successful call was given a length in range and room for the whole frame. -/
theorem frameEncode_size {source : Option (Block payloadSize)} {buf out : Block size}
    {before after : UInt16}
    (encoded : frameEncode type source len seq timestamp (some buf) (some before) =
      some ⟨0, some out, some after⟩) :
    len.toNat ≤ frameMaxPayload ∧ sizeofHeader + len.toNat + 1 ≤ size ∧
      ∃ headed copied, copyPayload source len headed = some (copied : Block size) := by
  by_cases large : frameMaxPayload < len.toNat
  · simp [frameEncode, large] at encoded
  · have bounded : len.toNat ≤ frameMaxPayload := Nat.le_of_not_lt large
    simp only [frameEncode, if_neg large, Option.bind_eq_bind, Option.bind_eq_some_iff] at encoded
    obtain ⟨headed, -, copied, copies, _, -, _, stored, -⟩ := encoded
    -- the last store has found room for the checksum, hence for everything before it
    obtain ⟨fits, -⟩ := Block.store_eq_some stored
    rw [total_toNat _ bounded, List.length_singleton] at fits
    exact ⟨bounded, by omega, headed, copied, copies⟩

/-- A successful call was given as much payload as it says. -/
theorem frameEncode_room {payload : Block payloadSize} {buf out : Block size} {before after : UInt16}
    (encoded : frameEncode type (some payload) len seq timestamp (some buf) (some before) =
      some ⟨0, some out, some after⟩) :
    len.toNat ≤ frameMaxPayload ∧ len.toNat ≤ payloadSize ∧ sizeofHeader + len.toNat + 1 ≤ size := by
  obtain ⟨bounded, room, headed, copied, copies⟩ := frameEncode_size encoded
  refine ⟨bounded, ?_, room⟩
  by_cases present : 0 < len
  · simp only [copyPayload, present, if_true, Option.bind_eq_bind, Option.bind_eq_some_iff] at copies
    obtain ⟨_, loaded, -⟩ := copies
    simpa using (Block.load_eq_some loaded).1
  · have := (UInt16.lt_iff_toNat_lt (a := 0) (b := len)).not.mp present
    simp only [UInt16.toNat_zero] at this
    omega

end

/-- What goes on the wire depends on the content alone, not on the buffer. -/
theorem encodeInto_fits (content : Content) (buf : Block size) (outLen : UInt16)
    (bounded : content.payloadLen.toNat ≤ frameMaxPayload)
    (held : content.payloadLen.toNat ≤ content.payload.length)
    (room : sizeofHeader + content.payloadLen.toNat + 1 ≤ size) :
    encodeInto content buf outLen =
      some (frameBytes content.header (content.payload.take content.payloadLen.toNat)) := by
  obtain ⟨out, encoded, bytes⟩ := frameEncode_fits content.type (Block.ofBytes content.payload)
    content.sequence content.timestampUs buf outLen bounded held room
  have length : (frameBytes content.header
      (content.payload.take content.payloadLen.toNat)).length =
        sizeofHeader + content.payloadLen.toNat + 1 := by
    rw [length_frameBytes, List.length_take, Nat.min_eq_left held]
  simp only [encodeInto, encoded, Option.bind_eq_bind, Option.bind_some, EncodeResult.bytes,
    total_toNat _ bounded, bytes]
  exact congrArg some (List.take_left' length)

/-- Whenever a message is encoded, its frame is what was sent. -/
theorem encodeInto_message {message : Message} {buf : Block size} {outLen : UInt16} {sent : Bytes}
    (encoded : encodeInto message.content buf outLen = some sent) : sent = message.bytes := by
  have payloadLen := message.payloadLen_toNat
  simp only [encodeInto, Option.bind_eq_bind, Option.bind_eq_some_iff] at encoded
  obtain ⟨⟨ret, outBuf, after⟩, ran, bytes⟩ := encoded
  unfold EncodeResult.bytes at bytes
  split at bytes
  · next out len same =>
    cases same
    obtain ⟨bounded, held, room⟩ := frameEncode_room ran
    have fits := encodeInto_fits message.content buf outLen bounded (Nat.le_of_eq payloadLen) room
    simp only [encodeInto, ran, Option.bind_eq_bind, Option.bind_some, EncodeResult.bytes, bytes,
      Option.some.injEq, payloadLen] at fits
    rw [fits, Message.bytes, List.take_of_length_le]
    · rfl
    · exact Nat.le_refl _
  · cases bytes

theorem Message.encoded_fits (message : Message) (buf : Block size) (outLen : UInt16)
    (room : sizeofFrame ≤ size) :
    encodeInto message.content buf outLen = some message.bytes := by
  have payloadLen := message.payloadLen_toNat
  have bounded := message.bounded
  unfold sizeofFrame at room
  rw [encodeInto_fits message.content buf outLen (by omega) (Nat.le_of_eq payloadLen) (by omega),
    payloadLen, Message.bytes]
  exact congrArg (fun payload => some (frameBytes _ payload)) (List.take_of_length_le (Nat.le_refl _))

end Simuless.Telemetry
