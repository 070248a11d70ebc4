import Simuless.Foundation.Session
import Simuless.Telemetry.Decision

/-! The streaming frame parser.

The parser owns one buffer of the size of `frame_t` and the number of octets
held in it. Input only appends, shifting out the oldest octet when the buffer
is full; `frameParserGet` discards octets until it can return a frame or has
to wait. A call that leaves the buffer or the caller's frame has no result.
-/

set_option autoImplicit false

namespace Simuless.Telemetry

open Foundation

inductive ParseResult where
  | ok
  | incomplete
  | error
  deriving DecidableEq, Repr

structure FrameParser where
  buffer : Block sizeofFrame
  index : UInt16

/-- `frame_checksum` of the parser. -/
def frameChecksum {size : Nat} (data : Block size) (len : UInt16) : Option UInt8 :=
  xorChecksum data len

def frameParserInit (parser : FrameParser) : FrameParser := { parser with index := 0 }

/-- Drop the oldest octet: `memmove(buffer, &buffer[1], index - 1); index--`. -/
def discardOldest (parser : FrameParser) : Option FrameParser := do
  let buffer ← parser.buffer.memmove 0 1 (toSize ((parser.index.toNat : Int) - 1))
  return ⟨buffer, parser.index - 1⟩

/-- One turn of the input loop. -/
def inputOctet (data : Bytes) (parser : FrameParser) (i : Nat) : Option FrameParser := do
  let parser ← if sizeofFrame ≤ parser.index.toNat then discardOldest parser else some parser
  let octet ← data[i]?
  let buffer ← parser.buffer.store parser.index.toNat [octet]
  return ⟨buffer, parser.index + 1⟩

def frameParserInput (parser : FrameParser) (data : Bytes) (len : UInt16) :
    Option (ParseResult × FrameParser) := do
  let parser ← (List.range len.toNat).foldlM (inputOctet data) parser
  return (.incomplete, parser)

/-- Steps 6 and 7: copy the frame out and remove it from the buffer. -/
def consumeFrame (parser : FrameParser) (out : Frame) (total : UInt16) :
    Option (Int × FrameParser × Frame) := do
  let frame ← parser.buffer.load 0 total.toNat
  let out ← out.store 0 frame
  let buffer ← parser.buffer.memmove 0 total.toNat
    (toSize ((parser.index.toNat : Int) - total.toNat))
  return (1, ⟨buffer, parser.index - total⟩, out)

/-- The loop of `smls_frame_parser_get`, one turn for each unit of fuel. -/
def getLoop : (fuel : Nat) → FrameParser → Frame → Option (Int × FrameParser × Frame)
  | 0, _, _ => none
  | fuel + 1, parser, out =>
      -- steps 1 and 2: a header is there and starts with the magic octet
      if parser.index.toNat < sizeofHeader then some (0, parser, out)
      else if parser.buffer.bytes[0]? ≠ some frameMagic then do
        let parser ← discardOldest parser
        getLoop fuel parser out
      else
        -- step 3: the payload length is in range
        let len := (FrameHeader.ofBytes parser.buffer.bytes).payloadLen
        if len = 0 ∨ frameMaxPayload < len.toNat then do
          let parser ← discardOldest parser
          getLoop fuel parser out
        else
          -- steps 4 and 5: the whole frame is there and its checksum holds
          let total := UInt16.ofNat (sizeofHeader + len.toNat + 1)
          if parser.index < total then some (0, parser, out)
          else do
            let expected ← frameChecksum parser.buffer (total - 1)
            let received ← parser.buffer.bytes[total.toNat - 1]?
            if expected ≠ received then do
              let parser ← discardOldest parser
              getLoop fuel parser out
            else consumeFrame parser out total

/-- Every turn that continues has dropped an octet, so `index + 1` turns suffice. -/
def frameParserGet (parser : FrameParser) (out : Frame) : Option (Int × FrameParser × Frame) :=
  getLoop (parser.index.toNat + 1) parser out

/-! The octets held, and the parser as a scanner of them. -/

namespace FrameParser

def window (parser : FrameParser) : Bytes := parser.buffer.bytes.take parser.index.toNat

def Valid (parser : FrameParser) : Prop := parser.index.toNat ≤ sizeofFrame

theorem init_valid (parser : FrameParser) : (frameParserInit parser).Valid := Nat.zero_le _

theorem init_window (parser : FrameParser) : (frameParserInit parser).window = [] := rfl

variable {parser : FrameParser}

theorem length_window (valid : parser.Valid) : parser.window.length = parser.index.toNat := by
  unfold window Valid at *
  rw [List.length_take, parser.buffer.length_bytes]
  omega

/-- The buffer starts with the window. -/
theorem buffer_window (parser : FrameParser) :
    ∃ stale, parser.buffer.bytes = parser.window ++ stale :=
  ⟨_, (List.take_append_drop _ _).symm⟩

theorem index_lt (parser : FrameParser) : parser.index.toNat < 2 ^ 64 :=
  parser.index.toNat_lt.trans (by decide)

/-- Moving the octets behind `count` to the front drops `count` of the window. -/
theorem shift (valid : parser.Valid) (count : UInt16) (held : count.toNat ≤ parser.index.toNat) :
    ∃ buffer, parser.buffer.memmove 0 count.toNat
        (toSize ((parser.index.toNat : Int) - count.toNat)) = some buffer ∧
      (⟨buffer, parser.index - count⟩ : FrameParser).window = parser.window.drop count.toNat ∧
      (⟨buffer, parser.index - count⟩ : FrameParser).Valid := by
  have size := toSize_sub parser.index.toNat count.toNat held parser.index_lt
  have index : (parser.index - count).toNat = parser.index.toNat - count.toNat :=
    UInt16.toNat_sub_of_le _ _ (UInt16.le_iff_toNat_le.mpr held)
  unfold Valid at valid
  obtain ⟨buffer, moved, bytes⟩ := parser.buffer.memmove_front count.toNat
    (parser.index.toNat - count.toNat) (by omega)
  refine ⟨buffer, by rw [size, moved], ?_, ?_⟩
  · simp only [window, index, bytes, List.drop_take]
  · simp only [Valid, index]
    omega

theorem discardOldest_window (valid : parser.Valid) (held : 0 < parser.index.toNat) :
    ∃ next, discardOldest parser = some next ∧ next.window = parser.window.drop 1 ∧
      next.Valid ∧ next.index.toNat = parser.index.toNat - 1 := by
  obtain ⟨buffer, moved, bytes, kept⟩ := shift valid 1 held
  refine ⟨⟨buffer, parser.index - 1⟩, ?_, bytes, kept, ?_⟩
  · simp only [discardOldest]
    rw [show (1 : UInt16).toNat = 1 from rfl] at moved
    rw [show ((1 : Nat) : Int) = 1 from rfl] at moved
    rw [moved]
    rfl
  · exact UInt16.toNat_sub_of_le _ _ (UInt16.le_iff_toNat_le.mpr held)

/-! Input appends and keeps the newest octets. -/

theorem append_window (valid : parser.Valid) (room : parser.index.toNat < sizeofFrame) (octet : UInt8) :
    ∃ buffer, parser.buffer.store parser.index.toNat [octet] = some buffer ∧
      (⟨buffer, parser.index + 1⟩ : FrameParser).window = parser.window ++ [octet] ∧
      (⟨buffer, parser.index + 1⟩ : FrameParser).Valid := by
  obtain ⟨stale, bytes⟩ := parser.buffer_window
  have length := length_window valid
  have whole := parser.buffer.length_bytes
  rw [bytes, List.length_append, length] at whole
  obtain ⟨buffer, stored, result⟩ := parser.buffer.store_append bytes [octet] (by
    rw [List.length_singleton]
    omega)
  have index : (parser.index + 1).toNat = parser.index.toNat + 1 := by
    have bound : sizeofFrame = 273 := rfl
    have one : (1 : UInt16).toNat = 1 := rfl
    rw [UInt16.toNat_add, one]
    omega
  rw [length] at stored
  refine ⟨buffer, stored, ?_, ?_⟩
  · have front : (parser.window ++ [octet]).length = parser.index.toNat + 1 := by
      rw [List.length_append, length, List.length_singleton]
    simp only [window, index, result]
    exact List.take_left' front
  · simp only [Valid, index]
    omega

theorem inputOctet_window (valid : parser.Valid) {data : Bytes} {i : Nat} {octet : UInt8}
    (read : data[i]? = some octet) :
    ∃ next, inputOctet data parser i = some next ∧
      next.window = (parser.window ++ [octet]).rtake sizeofFrame ∧ next.Valid := by
  have length := length_window valid
  have bound : sizeofFrame = 273 := rfl
  have newest : (parser.window ++ [octet]).rtake sizeofFrame =
      parser.window.drop (parser.window.length - 272) ++ [octet] :=
    List.rtake_concat_succ parser.window 272 octet
  by_cases full : sizeofFrame ≤ parser.index.toNat
  · obtain ⟨emptied, discarded, window, kept, index⟩ := discardOldest_window valid
      (Nat.lt_of_lt_of_le (by decide) full)
    obtain ⟨buffer, stored, appended, next⟩ := append_window kept (by
      unfold Valid at valid
      omega) octet
    refine ⟨⟨buffer, emptied.index + 1⟩, ?_, ?_, next⟩
    · simp only [inputOctet, if_pos full, discarded, read, Option.bind_eq_bind, Option.bind_some,
        stored]
      rfl
    · have one : parser.window.length - 272 = 1 := by
        unfold Valid at valid
        omega
      rw [appended, window, newest, one]
  · obtain ⟨buffer, stored, appended, next⟩ := append_window valid (Nat.lt_of_not_le full) octet
    refine ⟨⟨buffer, parser.index + 1⟩, ?_, ?_, next⟩
    · simp only [inputOctet, if_neg full, read, Option.bind_eq_bind, Option.bind_some, stored]
      rfl
    · have zero : parser.window.length - 272 = 0 := by
        omega
      rw [appended, newest, zero, List.drop_zero]

/-- The input loop after `count` turns. -/
theorem inputLoop_window (valid : parser.Valid) (data : Bytes) (count : Nat)
    (inside : count ≤ data.length) :
    ∃ next, (List.range count).foldlM (inputOctet data) parser = some next ∧
      next.window = (parser.window ++ data.take count).rtake sizeofFrame ∧ next.Valid := by
  induction count with
  | zero =>
    refine ⟨parser, rfl, ?_, valid⟩
    rw [List.take_zero, List.append_nil, Session.rtake_of_le]
    exact (length_window valid).le.trans valid
  | succ count ih =>
    obtain ⟨middle, ran, window, kept⟩ := ih (Nat.le_of_succ_le inside)
    have read : data[count]? = some data[count] := List.getElem?_eq_getElem inside
    obtain ⟨next, step, appended, done⟩ := inputOctet_window kept read
    refine ⟨next, ?_, ?_, done⟩
    · rw [List.range_succ, List.foldlM_append, ran]
      simp only [List.foldlM_cons, List.foldlM_nil, Option.bind_eq_bind, Option.bind_some, step]
      rfl
    · rw [appended, window, Session.rtake_rtake_append, List.append_assoc, List.take_append_getElem]

/-- Input never fails, and keeps the newest octets of what was held and fed. -/
theorem frameParserInput_window (valid : parser.Valid) (data : Bytes) (len : UInt16)
    (inside : len.toNat ≤ data.length) :
    ∃ next, frameParserInput parser data len = some (.incomplete, next) ∧
      next.window = (parser.window ++ data.take len.toNat).rtake sizeofFrame ∧ next.Valid := by
  obtain ⟨next, ran, window, kept⟩ := inputLoop_window valid data len.toNat inside
  refine ⟨next, ?_, window, kept⟩
  simp only [frameParserInput, ran]
  rfl

/-! One turn of the get loop follows the decision on the window. -/

theorem getLoop_turn (valid : parser.Valid) (fuel : Nat) (out : Frame) :
    getLoop (fuel + 1) parser out = match frameDecision parser.window with
      | .wait => some (0, parser, out)
      | .discard => (discardOldest parser).bind fun next => getLoop fuel next out
      | .accept length => consumeFrame parser out (.ofNat length) := by
  have length := length_window valid
  have whole := parser.buffer.length_bytes
  obtain ⟨stale, bytes⟩ := parser.buffer_window
  by_cases short : parser.window.length < sizeofHeader
  · simp only [getLoop, frameDecision, ← length, short, if_true]
  · -- from here on the loop reads the header, which lies wholly in the window
    have header : sizeofHeader ≤ parser.window.length := Nat.le_of_not_lt short
    have first : parser.buffer.bytes[0]? = parser.window[0]? := by
      rw [bytes, List.getElem?_append_left (by unfold sizeofHeader at header; omega)]
    have read : FrameHeader.ofBytes parser.buffer.bytes = FrameHeader.ofBytes parser.window := by
      rw [bytes, FrameHeader.ofBytes_append _ _ header]
    simp only [getLoop, frameDecision, ← length, if_neg short, first, read]
    by_cases magic : parser.window[0]? = some frameMagic
    · let len := (FrameHeader.ofBytes parser.window).payloadLen
      have zero : len = 0 ↔ len.toNat = 0 := UInt16.toNat_inj.symm
      simp only [magic, ne_eq, not_true_eq_false, if_false]
      by_cases range : len.toNat = 0 ∨ frameMaxPayload < len.toNat
      · rw [if_pos (range.imp_left zero.mpr), if_pos range]
        rfl
      · have bounded : len.toNat ≤ frameMaxPayload := by omega
        have total := total_toNat len.toNat bounded
        have arrived : parser.index < .ofNat (sizeofHeader + len.toNat + 1) ↔
            parser.window.length < sizeofHeader + len.toNat + 1 := by
          rw [UInt16.lt_iff_toNat_lt, total, length]
        rw [if_neg (mt (Or.imp_left zero.mp) range), if_neg range]
        by_cases part : parser.window.length < sizeofHeader + len.toNat + 1
        · rw [if_pos (arrived.mpr part), if_pos part]
        · have inside : sizeofHeader + len.toNat < parser.window.length := by omega
          have expected : frameChecksum parser.buffer (.ofNat (sizeofHeader + len.toNat + 1) - 1) =
              some (xorOf (parser.window.take (sizeofHeader + len.toNat))) := by
            have pred := total_pred_toNat len.toNat bounded
            rw [bytes, List.length_append] at whole
            rw [frameChecksum, xorChecksum_fits _ _ (by omega), pred, bytes,
              List.take_append_of_le_length inside.le]
          have received : parser.buffer.bytes[sizeofHeader + len.toNat]? =
              some parser.window[sizeofHeader + len.toNat] := by
            rw [bytes, List.getElem?_append_left inside, List.getElem?_eq_getElem inside]
          rw [if_neg (mt arrived.mp part), if_neg part, List.getElem?_eq_getElem inside]
          simp only [len] at expected received total ⊢
          simp only [expected, total, Nat.add_sub_cancel, received, Option.bind_eq_bind,
            Option.bind_some, Option.some.injEq, eq_comm]
          split <;> rfl
    · simp only [ne_eq, magic, not_false_eq_true, if_true]
      rfl

theorem consumeFrame_window (valid : parser.Valid) (out : Frame) {length : Nat}
    (held : length ≤ parser.window.length) :
    ∃ next frame, consumeFrame parser out (.ofNat length) = some (1, next, frame) ∧
      next.window = parser.window.drop length ∧ next.Valid ∧
      frame.bytes = parser.window.take length ++ out.bytes.drop length := by
  have index := length_window valid
  have small : length ≤ sizeofFrame := held.trans (index.le.trans valid)
  have total : (UInt16.ofNat length).toNat = length := by
    have bound : sizeofFrame = 273 := rfl
    rw [UInt16.toNat_ofNat']
    omega
  obtain ⟨stale, bytes⟩ := parser.buffer_window
  have front : (parser.buffer.bytes.drop 0).take length = parser.window.take length := by
    rw [List.drop_zero, bytes, List.take_append_of_le_length held]
  have loaded := parser.buffer.load_fits 0 length (by omega)
  have size : (parser.window.take length).length = length := List.length_take_of_le held
  have room : (parser.window.take length).length ≤ out.bytes.length := by
    rw [size, out.length_bytes]
    exact small
  obtain ⟨frame, stored, copied⟩ := out.store_append (List.nil_append _).symm _ room
  obtain ⟨buffer, moved, window, kept⟩ := shift valid (.ofNat length) (by omega)
  rw [total] at moved window
  refine ⟨⟨buffer, parser.index - UInt16.ofNat length⟩, frame, ?_, window, kept, ?_⟩
  · simp only [consumeFrame, total, loaded, front, Option.bind_eq_bind, Option.bind_some, moved]
    rw [show out.store 0 (parser.window.take length) = some frame from stored]
    rfl
  · rw [copied, size, List.nil_append]

/-- The get loop takes what a pull takes: with more turns than octets held it
ends, and outside the frame it returns nothing of the caller's changes. -/
theorem getLoop_pull (valid : parser.Valid) {fuel : Nat} (enough : parser.index.toNat < fuel)
    (out : Frame) :
    (∃ next, getLoop fuel parser out = some (0, next, out) ∧ next.Valid ∧
      frameScanner.pull parser.window = (none, next.window)) ∨
    (∃ next frame block, getLoop fuel parser out = some (1, next, frame) ∧ next.Valid ∧
      frameScanner.pull parser.window = (some block, next.window) ∧
      frame.bytes = block ++ out.bytes.drop block.length) := by
  induction fuel generalizing parser with
  | zero => exact absurd enough (Nat.not_lt_zero _)
  | succ fuel ih =>
    have turn := getLoop_turn valid fuel out
    cases decision : frameDecision parser.window with
    | wait =>
      rw [decision] at turn
      exact .inl ⟨parser, turn, valid, Scanner.pull_wait decision⟩
    | discard =>
      rw [decision] at turn
      -- the fuel covers one more octet than there are, and each turn drops one
      have nonempty := frameScanner.discard_nonempty decision
      rw [length_window valid] at nonempty
      obtain ⟨next, discarded, window, kept, index⟩ := discardOldest_window valid nonempty
      have step : getLoop (fuel + 1) parser out = getLoop fuel next out := by
        rw [turn, discarded]
        rfl
      have pulled : frameScanner.pull parser.window = frameScanner.pull next.window := by
        rw [window]
        exact Scanner.pull_discard decision
      rw [step, pulled]
      exact ih kept (by omega)
    | accept length =>
      rw [decision] at turn
      have held := frameScanner.accept_held decision
      obtain ⟨next, frame, consumed, window, kept, bytes⟩ := consumeFrame_window valid out held
      refine .inr ⟨next, frame, parser.window.take length, turn.trans consumed, kept, ?_, ?_⟩
      · rw [window]
        exact Scanner.pull_accept decision
      · rw [bytes, List.length_take_of_le held]

theorem frameParserGet_pull (valid : parser.Valid) (out : Frame) :
    (∃ next, frameParserGet parser out = some (0, next, out) ∧ next.Valid ∧
      frameScanner.pull parser.window = (none, next.window)) ∨
    (∃ next frame block, frameParserGet parser out = some (1, next, frame) ∧ next.Valid ∧
      frameScanner.pull parser.window = (some block, next.window) ∧
      frame.bytes = block ++ out.bytes.drop block.length) :=
  getLoop_pull valid (Nat.lt_succ_self _) out

end FrameParser

end Simuless.Telemetry
