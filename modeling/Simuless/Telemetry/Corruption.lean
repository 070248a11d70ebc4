import Simuless.Foundation.Spoiled
import Simuless.Telemetry.Delivery

/-! Delivery of frames some of which are corrupted on their way.

One changed octet is found by the checksum as long as the header still says which
octets it covers. A rejected frame is searched octet by octet for the next one,
and there the payload, or a frame of another length, may pass for a frame.
-/

set_option autoImplicit false

namespace Simuless.Telemetry

open Foundation

/-- The change of one octet behind the first. -/
structure Corruption where
  offset : Nat
  mask : UInt8
  behind : 1 ≤ offset
  changes : mask ≠ 0

def Corruption.apply (corruption : Corruption) (frame : Bytes) : Bytes :=
  frame.modify corruption.offset (· ^^^ corruption.mask)

/-- One of the two octets of `payload_len` is changed. -/
def Corruption.HitsLength (corruption : Corruption) : Prop :=
  corruption.offset = 14 ∨ corruption.offset = 15

/-- A frame sent, and what happens to it. -/
structure Transmission where
  sent : Sent
  corruption : Option Corruption
  inside : ∀ change ∈ corruption, change.offset < sent.frame.length

def Transmission.received (transmission : Transmission) : Bytes :=
  match transmission.corruption with
  | none => transmission.sent.frame
  | some corruption => corruption.apply transmission.sent.frame

def receivedStream : List Transmission → (tail : Bytes) → Bytes
  | [], tail => tail
  | first :: rest, tail => first.sent.noise ++ (first.received ++ receivedStream rest tail)

/-- The messages of the frames that were not corrupted, in sending order. -/
def uncorrupted (transmissions : List Transmission) : List Message :=
  (transmissions.filter (·.corruption.isNone)).map (·.sent.message)

/-! The checksum. -/

theorem foldl_xor (octets : Bytes) (start mask : UInt8) :
    octets.foldl (· ^^^ ·) (start ^^^ mask) = octets.foldl (· ^^^ ·) start ^^^ mask := by
  induction octets generalizing start with
  | nil => rfl
  | cons octet rest ih =>
      rw [List.foldl_cons, List.foldl_cons, ← ih, UInt8.xor_assoc, UInt8.xor_comm mask, UInt8.xor_assoc]

/-- A change of one octet changes the checksum by the same. -/
theorem xorOf_modify {octets : Bytes} {offset : Nat} (inside : offset < octets.length) (mask : UInt8) :
    xorOf (octets.modify offset (· ^^^ mask)) = xorOf octets ^^^ mask := by
  have general : ∀ start, (octets.modify offset (· ^^^ mask)).foldl (· ^^^ ·) start =
      octets.foldl (· ^^^ ·) start ^^^ mask := by
    induction octets generalizing offset with
    | nil => exact absurd inside (Nat.not_lt_zero offset)
    | cons octet rest ih =>
        intro start
        cases offset with
        | zero =>
            rw [List.modify_zero_cons, List.foldl_cons, List.foldl_cons, ← UInt8.xor_assoc, foldl_xor]
        | succ offset =>
            rw [List.modify_succ_cons, List.foldl_cons, List.foldl_cons]
            exact ih (Nat.lt_of_succ_lt_succ inside) _
  exact general 0

/-- The octets of a complete frame cancel out. -/
theorem Complete.xorOf_zero {held : Bytes} {len : Nat} (complete : Complete held len) :
    xorOf (held.take (sizeofHeader + len + 1)) = 0 := by
  rw [List.take_add_one, complete.checksum]
  simp only [xorOf, Option.toList_some, List.foldl_append, List.foldl_cons, List.foldl_nil, UInt8.xor_self]

/-- A field that the change does not hit is read as before. -/
theorem field_modify (octets : Bytes) {offset start width : Nat} (change : UInt8 → UInt8)
    (outside : offset < start ∨ start + width ≤ offset) :
    field (octets.modify offset change) start width = field octets start width := by
  have same : ((octets.modify offset change).drop start).take width = (octets.drop start).take width := by
    apply List.ext_getElem?
    intro i
    simp only [List.getElem?_take, List.getElem?_drop, List.getElem?_modify]
    grind
  rw [field, same, field]

/-- Where the length is intact, the corrupted frame is rejected, whatever follows it. -/
theorem Corruption.rejected (corruption : Corruption) {message : Message}
    (inside : corruption.offset < message.bytes.length) (sound : ¬ corruption.HitsLength) (later : Bytes)
    (len : Nat) : ¬ Complete (corruption.apply message.bytes ++ later) len := by
  intro complete
  have size := message.length_bytes
  have length : (corruption.apply message.bytes).length = message.bytes.length := List.length_modify _ _ _
  have same : len = message.payload.length := by
    have read := complete.payloadLen
    rw [FrameHeader.ofBytes_append _ _ (by omega)] at read
    have outside : corruption.offset < 14 ∨ 14 + 2 ≤ corruption.offset := by
      unfold HitsLength at sound
      omega
    have payloadLen : (FrameHeader.ofBytes (corruption.apply message.bytes)).payloadLen =
        (FrameHeader.ofBytes message.bytes).payloadLen :=
      congrArg UInt16.ofNat (field_modify message.bytes _ outside)
    rw [← read, payloadLen, message.complete.payloadLen]
  -- both frames cover the same octets, but only one of them changed
  have zero := message.complete.xorOf_zero
  have changed := complete.xorOf_zero
  rw [same, ← size, ← length, List.take_left, apply, xorOf_modify inside] at changed
  rw [← size, List.take_length] at zero
  rw [zero, UInt8.zero_xor] at changed
  exact corruption.changes changed

/-! Streams. -/

/-- A frame stands inside a corrupted one: behind its first octet, or at it if the
length was hit. In front of it the parser discards all octets of corrupted frames. -/
inductive Deceived (tail : Bytes) : List Transmission → Prop where
  | here {first : Transmission} {back : List Transmission} {corruption : Corruption} {position len : Nat} :
      first.corruption = some corruption → position < first.received.length →
      (position = 0 → corruption.HitsLength) →
      (∀ earlier < position,
        frameDecision ((first.received ++ receivedStream back tail).drop earlier) = .discard) →
      Complete ((first.received ++ receivedStream back tail).drop position) len →
        Deceived tail (first :: back)
  | later {first : Transmission} {back : List Transmission} :
      (first.corruption ≠ none → ∀ earlier < first.received.length,
        frameDecision ((first.received ++ receivedStream back tail).drop earlier) = .discard) →
      Deceived tail back → Deceived tail (first :: back)

def Transmission.arrival (transmission : Transmission) : Arrival frameMagic IsFrame where
  quiet := transmission.sent.noise
  body := transmission.received
  silent := transmission.sent.silent
  intact := transmission.corruption.isNone
  isWord intact := by
    rw [received, Option.isNone_iff_eq_none.mp intact]
    exact transmission.sent.segment.isWord

theorem receivedStream_arrivals (transmissions : List Transmission) (tail : Bytes) :
    arrivalStream (transmissions.map Transmission.arrival) tail = receivedStream transmissions tail := by
  induction transmissions with
  | nil => rfl
  | cons first rest ih =>
      rw [receivedStream, ← ih]
      rfl

theorem Sent.frame_eq (sent : Sent) : sent.frame = sent.message.bytes := encodeInto_message sent.encoded

theorem Transmission.received_intact {transmission : Transmission}
    (intact : transmission.corruption = none) :
    transmission.received = transmission.sent.message.bytes := by
  rw [received, intact]
  exact transmission.sent.frame_eq

theorem intactWords_arrivals (transmissions : List Transmission) :
    intactWords (transmissions.map Transmission.arrival) =
      (uncorrupted transmissions).map Message.bytes := by
  induction transmissions with
  | nil => rfl
  | cons first rest ih =>
      cases whole : first.corruption.isNone with
      | true =>
          have body : first.arrival.body = first.sent.message.bytes :=
            Transmission.received_intact (Option.isNone_iff_eq_none.mp whole)
          have sent : uncorrupted (first :: rest) = first.sent.message :: uncorrupted rest := by
            simp [uncorrupted, whole]
          rw [List.map_cons, intactWords_intact whole, ih, sent, body]
          rfl
      | false =>
          have lost : uncorrupted (first :: rest) = uncorrupted rest := by
            simp [uncorrupted, whole]
          rw [List.map_cons, intactWords_spoiled whole, ih, lost]

/-- A corrupted frame passes as a whole only if its length was hit. -/
theorem Transmission.incomplete (transmission : Transmission) {corruption : Corruption}
    (corrupted : transmission.corruption = some corruption) (sound : ¬ corruption.HitsLength)
    (later : Bytes) (len : Nat) : ¬ Complete (transmission.received ++ later) len := by
  have inside := transmission.inside corruption corrupted
  rw [transmission.sent.frame_eq] at inside
  rw [received, corrupted, transmission.sent.frame_eq]
  exact corruption.rejected inside sound later len

theorem deceived_iff (transmissions : List Transmission) (tail : Bytes) :
    Deceived tail transmissions ↔ Faked frameScanner tail (transmissions.map Transmission.arrival) := by
  induction transmissions with
  | nil => exact ⟨nofun, nofun⟩
  | cons first back ih =>
      have stream := receivedStream_arrivals back tail
      constructor
      · intro deceived
        cases deceived with
        | here corrupted inside _ discards complete =>
            rw [← stream] at discards complete
            have spoiled : first.arrival.intact = false := by simp [Transmission.arrival, corrupted]
            exact .here spoiled inside discards complete.decision
        | later passes deceived =>
            rw [← stream] at passes
            refine .later (fun spoiled => passes ?_) (ih.mp deceived)
            intro intact
            simp [Transmission.arrival, intact] at spoiled
      · intro faked
        cases faked with
        | @here _ _ position _ spoiled inside passes accepts =>
            obtain ⟨len, -, complete⟩ := complete_of_accept accepts
            rw [stream] at passes complete
            cases corrupted : first.corruption with
            | none => simp [Transmission.arrival, corrupted] at spoiled
            | some corruption =>
                refine .here corrupted inside (fun start => ?_) passes complete
                subst start
                by_contra sound
                exact first.incomplete corrupted sound _ _ complete
        | later passes faked =>
            rw [stream] at passes
            refine .later (fun corrupted => passes ?_) (ih.mpr faked)
            exact Bool.eq_false_iff.mpr fun intact => corrupted (Option.isNone_iff_eq_none.mp intact)

/-- What the parser accepts is the frame of some message. -/
theorem accepted_isFrame (block : Bytes) (accepted : frameDecision block = .accept block.length) :
    IsFrame block := by
  obtain ⟨len, exact, complete⟩ := complete_of_accept accepted
  have payloadLen : (contentOf block).payloadLen.toNat = len := complete.payloadLen
  have length : (contentOf block).payload.length = len := by
    simp only [contentOf, List.length_take, List.length_drop, complete.payloadLen]
    omega
  let message : Message := {
    type := (contentOf block).type
    sequence := (contentOf block).sequence
    timestampUs := (contentOf block).timestampUs
    payload := (contentOf block).payload
    nonempty := length.symm ▸ complete.nonempty
    bounded := length.symm ▸ complete.bounded }
  have same : message.content.payloadLen = (contentOf block).payloadLen := by
    apply UInt16.toNat_inj.mp
    rw [message.payloadLen_toNat, payloadLen]
    exact length
  have content : message.content = contentOf block := by
    show { contentOf block with payloadLen := message.content.payloadLen } = contentOf block
    rw [same]
  refine ⟨message, ?_⟩
  rw [Message.bytes, content]
  exact complete.frameBytes_content exact

/-- Fed octet by octet, the parser gives what a scan of the whole stream gives. -/
theorem pump_octets (memory : FrameParser) (out : Frame) (octets : Bytes) :
    ∃ frames rest, pump (frameParserInit memory) out (octets.map ([·])) = some (frames, rest) ∧
      List.Forall₂ Frame.Carries frames (frameScanner.scan octets).1 := by
  have valid := FrameParser.init_valid memory
  obtain ⟨spacious, small⟩ := (pumpFits_octets valid rfl out octets).small valid
  obtain ⟨frames, rest, pumped, -, -, carried⟩ := pump_scan valid out (octets.map ([·])) small
  have whole : (octets.map ([·])).flatten = octets := List.flatMap_singleton' octets
  rw [FrameParser.init_window] at spacious carried
  rw [Session.pump_spacious frameScanner.decide_nil _ spacious, whole, List.nil_append] at carried
  exact ⟨frames, rest, pumped, carried⟩

theorem map_contentOf_bytes (messages : List Message) :
    (messages.map Message.bytes).map contentOf = messages.map Message.content := by
  rw [List.map_map]
  exact List.map_congr_left fun message _ => message.content_bytes

/-- Fed octet by octet, the parser delivers uncorrupted frames only, in sending
order, unless a frame stands inside a corrupted one. That frame is delivered
right behind the uncorrupted frames in front of it. -/
theorem delivers_uncorrupted (memory : FrameParser) (out : Frame) (transmissions : List Transmission)
    (tail : Bytes) (silent : Quiet frameMagic tail) :
    ∃ frames rest,
      pump (frameParserInit memory) out ((receivedStream transmissions tail).map ([·])) =
        some (frames, rest) ∧
      (¬ Deceived tail transmissions →
        (frames.map Frame.content).Sublist ((uncorrupted transmissions).map Message.content)) ∧
      (Deceived tail transmissions → ∃ front first back position block more,
        transmissions = front ++ first :: back ∧ first.corruption ≠ none ∧
        position < first.received.length ∧
        block <+: (first.received ++ receivedStream back tail).drop position ∧
        frames.map Frame.content = (uncorrupted front).map Message.content ++ contentOf block :: more) := by
  obtain ⟨frames, rest, pumped, carried⟩ := pump_octets memory out (receivedStream transmissions tail)
  refine ⟨frames, rest, pumped, fun sound => ?_, fun deceived => ?_⟩
  · rw [deceived_iff] at sound
    have delivered := frameScanner_framing.scan_unfaked silent sound
    rw [receivedStream_arrivals, intactWords_arrivals] at delivered
    rw [map_content carried, ← map_contentOf_bytes]
    exact delivered.sublist.map contentOf
  · have faked := (deceived_iff transmissions tail).mp deceived
    obtain ⟨arrived, block, more, fake, scanned⟩ := frameScanner_framing.scan_faked accepted_isFrame faked
    obtain ⟨-, first, back, position, split, spoiled, inside, place⟩ := fake
    obtain ⟨front, others, rfl, rfl, behind⟩ := List.map_eq_append_iff.mp split
    obtain ⟨first, back, rfl, rfl, rfl⟩ := List.map_eq_cons_iff.mp behind
    rw [receivedStream_arrivals] at place
    refine ⟨front, first, back, position, block, more.map contentOf, rfl, ?_, inside, place, ?_⟩
    · intro intact
      simp [Transmission.arrival, intact] at spoiled
    · rw [receivedStream_arrivals, intactWords_arrivals] at scanned
      rw [map_content carried, scanned, List.map_append, List.map_cons, map_contentOf_bytes]

/-- The `ping` with its checksum changed. -/
def spoiledPing : Transmission where
  sent := sentPing
  corruption := some ⟨17, 1, by decide, by decide⟩
  inside := by
    intro change member
    cases member
    decide

theorem delivers_uncorrupted_ping : ∃ frames rest,
    pump (frameParserInit blankParser) blankFrame ((receivedStream [spoiledPing] []).map ([·])) =
        some (frames, rest) ∧ frames.map Frame.content = [] := by
  obtain ⟨frames, rest, pumped, sound, -⟩ :=
    delivers_uncorrupted blankParser blankFrame [spoiledPing] [] (by unfold Quiet; simp)
  refine ⟨frames, rest, pumped, List.sublist_nil.mp (sound ?_)⟩
  -- no other octet of the frame is a magic one
  have noise : ∀ position < spoiledPing.received.length, 0 < position →
      (spoiledPing.received.drop position)[0]? ≠ some frameMagic := by decide +kernel
  intro deceived
  cases deceived with
  | @here _ _ corruption position _ corrupted inside start _ complete =>
      cases corrupted
      rcases Nat.eq_zero_or_pos position with first | behind
      · exact absurd (start first) (by unfold Corruption.HitsLength; decide)
      · have magic := complete.magic
        rw [receivedStream, List.append_nil] at magic
        exact noise position inside behind magic
  | later _ deceived => cases deceived

/-- A frame whose payload is another frame. -/
def carrier : Message := ⟨1, 0, 0, ping.bytes, by decide +kernel, by decide +kernel⟩

def spoiledCarrier : Transmission where
  sent := {
    noise := []
    silent := by unfold Quiet; simp
    message := carrier
    size := sizeofFrame
    buf := blankFrame
    outLen := 0
    frame := carrier.bytes
    encoded := carrier.encoded_fits blankFrame 0 (Nat.le_refl _) }
  corruption := some ⟨34, 1, by decide, by decide⟩
  inside := by
    intro change member
    cases member
    decide +kernel

/-- With the checksum of the outer frame changed, the inner one is delivered. -/
theorem carried_frame_delivered :
    ¬ ∀ (memory : FrameParser) (out : Frame) (transmissions : List Transmission) (tail : Bytes),
      Quiet frameMagic tail → ∃ frames rest,
        pump (frameParserInit memory) out ((receivedStream transmissions tail).map ([·])) =
            some (frames, rest) ∧
          (frames.map Frame.content).Sublist ((uncorrupted transmissions).map Message.content) := by
  intro sound
  obtain ⟨frames, rest, pumped, delivered⟩ :=
    sound blankParser blankFrame [spoiledCarrier] [] (by unfold Quiet; simp)
  obtain ⟨frames', rest', pumped', carried⟩ :=
    pump_octets blankParser blankFrame (receivedStream [spoiledCarrier] [])
  rw [pumped] at pumped'
  cases pumped'
  have passes : frameScanner.Passes (receivedStream [spoiledCarrier] []) 16 := by
    unfold Scanner.Passes
    decide +kernel
  have accepts : frameScanner.decide ((receivedStream [spoiledCarrier] []).drop 16) = .accept 18 := by
    decide +kernel
  rw [Scanner.scan_passes passes, Scanner.scan_accept accepts] at carried
  have none : frames.map Frame.content = [] := List.sublist_nil.mp delivered
  rw [List.map_eq_nil_iff.mp none] at carried
  cases carried

end Simuless.Telemetry
