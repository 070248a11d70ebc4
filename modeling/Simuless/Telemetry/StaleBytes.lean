import Simuless.Telemetry.Encoder

/-! What the encoder's output depends on.

The payload copy depends on the payload pointer, while the length field, the
checksum and the reported length do not. Without a payload the frame is closed
over whatever the output buffer held before.
-/

set_option autoImplicit false

namespace Simuless.Telemetry

open Foundation

section
variable {size payloadSize : Nat} {type : UInt8} {payload : Option (Block payloadSize)} {len : UInt16}
  {seq : UInt32} {timestamp : UInt64}

/-- A call fails on its arguments alone and then leaves them alone. -/
theorem frameEncode_cases {outBuf : Option (Block size)} {outLen : Option UInt16}
    {result : EncodeResult size}
    (encoded : frameEncode type payload len seq timestamp outBuf outLen = some result) :
    (result.ret < 0 ∧ result.outBuf = outBuf ∧ result.outLen = outLen ∧
      (frameMaxPayload < len.toNat ∨ outBuf = none ∨ outLen = none)) ∨
    ∃ out, result = ⟨0, some out, some (.ofNat (sizeofHeader + len.toNat + 1))⟩ := by
  cases outBuf with
  | none =>
    cases encoded
    exact .inl ⟨Int.negSucc_lt_zero _, rfl, rfl, .inr (.inl rfl)⟩
  | some buf =>
    cases outLen with
    | none =>
      cases encoded
      exact .inl ⟨Int.negSucc_lt_zero _, rfl, rfl, .inr (.inr rfl)⟩
    | some before =>
      by_cases large : frameMaxPayload < len.toNat
      · simp only [frameEncode, if_pos large, Option.some.injEq] at encoded
        subst encoded
        exact .inl ⟨Int.negSucc_lt_zero _, rfl, rfl, .inl large⟩
      · simp only [frameEncode, if_neg large, Option.bind_eq_bind, Option.bind_eq_some_iff] at encoded
        obtain ⟨_, -, _, -, _, -, out, -, same⟩ := encoded
        exact .inr ⟨out, (Option.some.inj same).symm⟩

/-- The octets between header and checksum. -/
def encodedPayload (payload : Option (Block payloadSize)) (len : UInt16) (buf : Block size) : Bytes :=
  match payload with
  | some payload => payload.bytes.take len.toNat
  | none => (buf.bytes.drop sizeofHeader).take len.toNat

/-- A successful call writes one frame and nothing behind it. -/
theorem frameEncode_bytes {buf out : Block size} {before after : UInt16}
    (encoded : frameEncode type payload len seq timestamp (some buf) (some before) =
      some ⟨0, some out, some after⟩) :
    after = .ofNat (sizeofHeader + len.toNat + 1) ∧
      after.toNat = sizeofHeader + len.toNat + 1 ∧
      out.bytes.take after.toNat =
        frameBytes (encodedHeader type len seq timestamp) (encodedPayload payload len buf) ∧
      out.bytes.drop after.toNat = buf.bytes.drop after.toNat := by
  obtain ⟨bounded, room, -⟩ := frameEncode_size encoded
  have total := total_toNat len.toNat bounded
  -- the frame is as long as the encoder reports
  have written : ∃ out' : Block size, frameEncode type payload len seq timestamp (some buf)
        (some before) = some ⟨0, some out', some (.ofNat (sizeofHeader + len.toNat + 1))⟩ ∧
      out'.bytes = frameBytes (encodedHeader type len seq timestamp) (encodedPayload payload len buf) ++
        buf.bytes.drop (sizeofHeader + len.toNat + 1) ∧
      (encodedPayload payload len buf).length = len.toNat := by
    cases payload with
    | some payload =>
      have held := (frameEncode_room encoded).2.1
      obtain ⟨out', ran, bytes⟩ :=
        frameEncode_fits type payload seq timestamp buf before bounded held room
      exact ⟨out', ran, bytes, length_payload_take payload held⟩
    | none =>
      obtain ⟨out', ran, bytes⟩ := frameEncode_stale type seq timestamp buf before bounded room
      refine ⟨out', ran, bytes, ?_⟩
      rw [encodedPayload, List.length_take, List.length_drop, buf.length_bytes]
      omega
  obtain ⟨out', ran, bytes, length⟩ := written
  rw [encoded] at ran
  cases ran
  have frame : (frameBytes (encodedHeader type len seq timestamp)
      (encodedPayload payload len buf)).length = sizeofHeader + len.toNat + 1 := by
    rw [length_frameBytes, length]
  refine ⟨rfl, total, ?_, ?_⟩
  · rw [total, bytes, List.take_left' frame]
  · rw [total, bytes, List.drop_left' frame]

end

section
variable {payloadSize : Nat} (type : UInt8) (payload : Option (Block payloadSize)) (len : UInt16)
  (seq : UInt32) (timestamp : UInt64)

/-- For these arguments two calls on any two buffers report the same octets, a
call leaves the rest of its buffer alone, and a failing one all of it. -/
structure OutputDetermined : Prop where
  same : ∀ (size : Nat) (buf buf' : Block size) (before before' : UInt16)
    (result result' : EncodeResult size),
    frameEncode type payload len seq timestamp (some buf) (some before) = some result →
    frameEncode type payload len seq timestamp (some buf') (some before') = some result' →
    result.ret = 0 →
      result'.ret = 0 ∧ result.outLen = result'.outLen ∧ result.bytes = result'.bytes
  behind : ∀ (size : Nat) (buf : Block size) (before : UInt16) (result : EncodeResult size),
    frameEncode type payload len seq timestamp (some buf) (some before) = some result →
    result.ret = 0 → ∃ out after, result = ⟨0, some out, some after⟩ ∧
      out.bytes.drop after.toNat = buf.bytes.drop after.toNat
  failed : ∀ (size : Nat) (outBuf : Option (Block size)) (outLen : Option UInt16)
    (result : EncodeResult size),
    frameEncode type payload len seq timestamp outBuf outLen = some result →
    result.ret < 0 → result.outBuf = outBuf ∧ result.outLen = outLen

variable {type payload len seq timestamp}

/-- Buffers of zeros and of ones, with room for any frame, tell two calls apart. -/
theorem stale_different (positive : 0 < len.toNat) (bounded : len.toNat ≤ frameMaxPayload) :
    ¬ OutputDetermined type (none : Option (Block payloadSize)) len seq timestamp := by
  intro determined
  let zeros : Block sizeofFrame := .replicate sizeofFrame 0
  let ones : Block sizeofFrame := .replicate sizeofFrame 1
  have room : sizeofHeader + len.toNat + 1 ≤ sizeofFrame := by
    unfold sizeofFrame
    omega
  have stale (value : UInt8) : ((Block.replicate sizeofFrame value).bytes.drop sizeofHeader).take
      len.toNat = List.replicate len.toNat value := by
    simp only [Block.replicate, List.drop_replicate, List.take_replicate]
    congr 1
    unfold sizeofFrame
    omega
  obtain ⟨out, ran, -⟩ := frameEncode_stale type seq timestamp zeros 0 bounded room
  obtain ⟨out', ran', -⟩ := frameEncode_stale type seq timestamp ones 0 bounded room
  obtain ⟨-, -, same⟩ := determined.same sizeofFrame zeros ones 0 0 _ _ ran ran' rfl
  obtain ⟨-, -, frame, -⟩ := frameEncode_bytes ran
  obtain ⟨-, -, frame', -⟩ := frameEncode_bytes ran'
  -- both frames are reported, so their payloads are the same
  rw [EncodeResult.bytes, EncodeResult.bytes, Option.some.injEq, frame, frame'] at same
  simp only [encodedPayload, zeros, ones, stale] at same
  have payloads := congrArg (fun bytes => (bytes.drop sizeofHeader).take len.toNat) same
  have read (value : UInt8) : ((frameBytes (encodedHeader type len seq timestamp)
      (List.replicate len.toNat value)).drop sizeofHeader).take len.toNat =
        List.replicate len.toNat value := by
    have payload := frameBytes_payload (encodedHeader type len seq timestamp)
      (List.replicate len.toNat value)
    rwa [List.length_replicate] at payload
  simp only [read] at payloads
  rcases (List.replicate_inj.mp payloads).2 with empty | first
  · omega
  · exact absurd first (by decide)

/-- The output depends on the arguments alone if and only if there is a payload
to copy, nothing to copy, or a length out of range. -/
theorem frameEncode_determined_iff : OutputDetermined type payload len seq timestamp ↔
    payload.isSome ∨ len = 0 ∨ frameMaxPayload < len.toNat := by
  constructor
  · intro determined
    cases payload with
    | some payload => exact .inl rfl
    | none =>
      by_cases zero : len = 0
      · exact .inr (.inl zero)
      by_cases large : frameMaxPayload < len.toNat
      · exact .inr (.inr large)
      have positive : 0 < len.toNat := Nat.pos_of_ne_zero fun none => zero (UInt16.toNat_inj.mp none)
      exact absurd determined (stale_different positive (Nat.le_of_not_lt large))
  · intro given
    -- the payload sent is then the same over every buffer
    have payloads (size : Nat) (buf buf' : Block size) (bounded : len.toNat ≤ frameMaxPayload) :
        encodedPayload payload len buf = encodedPayload payload len buf' := by
      rcases given with present | zero | large
      · obtain ⟨payload, rfl⟩ := Option.isSome_iff_exists.mp present
        rfl
      · subst zero
        cases payload <;> simp [encodedPayload]
      · exact absurd bounded (Nat.not_le.mpr large)
    constructor
    · intro size buf buf' before before' result result' ran ran' success
      rcases frameEncode_cases ran with ⟨failed, -⟩ | ⟨out, rfl⟩
      · omega
      obtain ⟨bounded, -⟩ := frameEncode_size ran
      rcases frameEncode_cases ran' with ⟨-, -, -, large | null | null⟩ | ⟨out', rfl⟩
      · exact absurd bounded (Nat.not_le.mpr large)
      · cases null
      · cases null
      refine ⟨rfl, rfl, ?_⟩
      rw [EncodeResult.bytes, EncodeResult.bytes, (frameEncode_bytes ran).2.2.1,
        (frameEncode_bytes ran').2.2.1, payloads size buf buf' bounded]
    · intro size buf before result ran success
      rcases frameEncode_cases ran with ⟨failed, -⟩ | ⟨out, rfl⟩
      · omega
      · exact ⟨out, _, rfl, (frameEncode_bytes ran).2.2.2⟩
    · intro size outBuf outLen result ran failed
      rcases frameEncode_cases ran with ⟨-, kept, keptLen, -⟩ | ⟨out, rfl⟩
      · exact ⟨kept, keptLen⟩
      · exact absurd failed (Int.lt_irrefl 0)

/-- Four payload octets announced, none given. -/
theorem missing_payload_sent : ¬ OutputDetermined 1 (none : Option (Block 0)) 4 0 0 :=
  stale_different (by decide) (by decide)

end

end Simuless.Telemetry
