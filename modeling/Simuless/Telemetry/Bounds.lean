import Simuless.Telemetry.Stream

/-! Bounds of the parser's accesses and of its 16-bit arithmetic.

The parser is written down once more with everything checked: besides the
accesses to buffer and frame, every 16-bit expression must not wrap, and get
counts the octets it discards. The checks never fail, so both are the same
parser.
-/

set_option autoImplicit false

namespace Simuless.Telemetry

open Foundation

namespace Checked

/-! 16-bit arithmetic that has no result when it wraps. -/

def add (left right : UInt16) : Option UInt16 :=
  if left.toNat + right.toNat < 2 ^ 16 then some (left + right) else none

def sub (left right : UInt16) : Option UInt16 :=
  if right ≤ left then some (left - right) else none

def ofSize (size : Nat) : Option UInt16 := if size < 2 ^ 16 then some (.ofNat size) else none

def discardOldest (parser : FrameParser) : Option FrameParser := do
  let count ← sub parser.index 1
  let buffer ← parser.buffer.memmove 0 1 count.toNat
  let index ← sub parser.index 1
  return ⟨buffer, index⟩

def inputOctet (data : Bytes) (parser : FrameParser) (i : Nat) : Option FrameParser := do
  let parser ← if sizeofFrame ≤ parser.index.toNat then discardOldest parser else some parser
  let octet ← data[i]?
  let buffer ← parser.buffer.store parser.index.toNat [octet]
  let index ← add parser.index 1
  return ⟨buffer, index⟩

def frameParserInput (parser : FrameParser) (data : Bytes) (len : UInt16) :
    Option (ParseResult × FrameParser) := do
  let parser ← (List.range len.toNat).foldlM (inputOctet data) parser
  return (.incomplete, parser)

def consumeFrame (parser : FrameParser) (out : Frame) (total : UInt16) :
    Option (Int × FrameParser × Frame) := do
  let frame ← parser.buffer.load 0 total.toNat
  let out ← out.store 0 frame
  let count ← sub parser.index total
  let buffer ← parser.buffer.memmove 0 total.toNat count.toNat
  let index ← sub parser.index total
  return (1, ⟨buffer, index⟩, out)

/-- The call's result behind the number of octets it has discarded. -/
abbrev Counted := Nat × Int × FrameParser × Frame

/-- Discard the oldest octet and go on. -/
def discarding (parser : FrameParser) (rest : FrameParser → Option Counted) : Option Counted := do
  let parser ← discardOldest parser
  let (discards, result) ← rest parser
  return (discards + 1, result)

def getLoop : (fuel : Nat) → FrameParser → Frame → Option Counted
  | 0, _, _ => none
  | fuel + 1, parser, out =>
      if parser.index.toNat < sizeofHeader then some (0, 0, parser, out)
      else do
        let header ← parser.buffer.load 0 sizeofHeader
        if header[0]? ≠ some frameMagic then discarding parser fun parser => getLoop fuel parser out
        else
          let len := (FrameHeader.ofBytes header).payloadLen
          if len = 0 ∨ frameMaxPayload < len.toNat then
            discarding parser fun parser => getLoop fuel parser out
          else do
            let total ← ofSize (sizeofHeader + len.toNat + 1)
            if parser.index < total then some (0, 0, parser, out)
            else do
              let covered ← sub total 1
              let expected ← frameChecksum parser.buffer covered
              let received ← parser.buffer.bytes[covered.toNat]?
              if expected ≠ received then discarding parser fun parser => getLoop fuel parser out
              else do
                let result ← consumeFrame parser out total
                return (0, result)

def frameParserGet (parser : FrameParser) (out : Frame) : Option Counted :=
  getLoop (parser.index.toNat + 1) parser out

def callStep (progress : Progress) : Call → Option Progress
  | .input data _ => do
      let (_, parser) ← frameParserInput progress.parser data (.ofNat data.length)
      return { progress with parser }
  | .get out => do
      let (_, ret, parser, out) ← frameParserGet progress.parser out
      return ⟨parser, if ret = 1 then progress.delivered ++ [out] else progress.delivered⟩

def runCalls (progress : Progress) (calls : List Call) : Option Progress :=
  calls.foldlM callStep progress

/-! The checks change nothing. -/

variable {parser : FrameParser} {out : Frame}

theorem sub_of_le {left right : UInt16} (below : right.toNat ≤ left.toNat) :
    sub left right = some (left - right) ∧ (left - right).toNat = left.toNat - right.toNat ∧
      toSize ((left.toNat : Int) - right.toNat) = left.toNat - right.toNat := by
  have ordered : right ≤ left := UInt16.le_iff_toNat_le.mpr below
  refine ⟨if_pos ordered, UInt16.toNat_sub_of_le _ _ ordered, ?_⟩
  exact toSize_sub _ _ below (left.toNat_lt.trans (by decide))

theorem discardOldest_eq (held : 0 < parser.index.toNat) :
    discardOldest parser = Telemetry.discardOldest parser := by
  have one : (1 : UInt16).toNat ≤ parser.index.toNat := held
  obtain ⟨exact, count, size⟩ := sub_of_le one
  simp only [discardOldest, Telemetry.discardOldest, exact, Option.bind_eq_bind, Option.bind_some,
    count]
  change (parser.buffer.memmove 0 1 (parser.index.toNat - (1 : UInt16).toNat)).bind _ =
    (parser.buffer.memmove 0 1 (toSize ((parser.index.toNat : Int) - (1 : UInt16).toNat))).bind _
  rw [size]

/-- Where an octet is stored, the index has room to grow. -/
theorem add_of_stored {index : UInt16} {octet : UInt8} {buffer stored : Block sizeofFrame}
    (done : buffer.store index.toNat [octet] = some stored) : add index 1 = some (index + 1) := by
  obtain ⟨fits, -⟩ := Block.store_eq_some done
  have bound : sizeofFrame = 273 := rfl
  have one : (1 : UInt16).toNat = 1 := rfl
  rw [List.length_singleton] at fits
  apply if_pos
  omega

theorem inputOctet_eq (data : Bytes) (parser : FrameParser) (i : Nat) :
    inputOctet data parser i = Telemetry.inputOctet data parser i := by
  have append (parser : FrameParser) : (data[i]?.bind fun octet =>
        (parser.buffer.store parser.index.toNat [octet]).bind fun buffer =>
          (add parser.index 1).bind fun index => some (⟨buffer, index⟩ : FrameParser)) =
      data[i]?.bind fun octet =>
        (parser.buffer.store parser.index.toNat [octet]).bind fun buffer =>
          some ⟨buffer, parser.index + 1⟩ := by
    apply Option.bind_congr
    intro octet _
    apply Option.bind_congr
    intro stored done
    rw [add_of_stored done, Option.bind_some]
  by_cases full : sizeofFrame ≤ parser.index.toNat
  · have held : 0 < parser.index.toNat := Nat.lt_of_lt_of_le (by decide) full
    simp only [inputOctet, Telemetry.inputOctet, if_pos full, Option.bind_eq_bind,
      discardOldest_eq held]
    exact Option.bind_congr fun next _ => append next
  · simp only [inputOctet, Telemetry.inputOctet, if_neg full]
    exact append parser

theorem frameParserInput_eq (data : Bytes) (len : UInt16) :
    frameParserInput parser data len = Telemetry.frameParserInput parser data len := by
  have octet : inputOctet data = Telemetry.inputOctet data := by
    funext parser i
    exact inputOctet_eq data parser i
  rw [frameParserInput, octet]
  rfl

theorem consumeFrame_eq {total : UInt16} (arrived : total.toNat ≤ parser.index.toNat) :
    consumeFrame parser out total = Telemetry.consumeFrame parser out total := by
  obtain ⟨exact, count, size⟩ := sub_of_le arrived
  simp only [consumeFrame, Telemetry.consumeFrame, exact, count, size, Option.bind_eq_bind,
    Option.bind_some]

/-! Get is compared together with the number of discards. -/

/-- A counted result gives the same as the parser, with no more discards than this. -/
def Matches (limit : Nat) (counted : Option Counted) (plain : Option (Int × FrameParser × Frame)) :
    Prop :=
  counted.map Prod.snd = plain ∧ ∀ discards result, counted = some (discards, result) →
    discards ≤ limit

theorem Matches.undiscarded (limit : Nat) (plain : Option (Int × FrameParser × Frame)) :
    Matches limit (plain.bind fun result => pure (0, result)) plain := by
  cases plain with
  | none => exact ⟨rfl, fun _ _ counted => by cases counted⟩
  | some result => exact ⟨rfl, fun _ _ counted => by cases counted; exact Nat.zero_le limit⟩

/-- A discard shortens what is held, so the limit is met by what the rest discards. -/
theorem Matches.discarding {rest : FrameParser → Option Counted}
    {plain : FrameParser → Option (Int × FrameParser × Frame)} (held : 0 < parser.index.toNat)
    (later : ∀ next : FrameParser, Matches next.index.toNat (rest next) (plain next)) :
    Matches parser.index.toNat (discarding parser rest)
      ((Telemetry.discardOldest parser).bind plain) := by
  have one : (1 : UInt16).toNat ≤ parser.index.toNat := held
  simp only [Checked.discarding, discardOldest_eq held]
  cases discarded : Telemetry.discardOldest parser with
  | none => exact ⟨rfl, fun _ _ counted => by cases counted⟩
  | some next =>
    have index : next.index.toNat = parser.index.toNat - 1 := by
      simp only [Telemetry.discardOldest, Option.bind_eq_bind, Option.bind_eq_some_iff] at discarded
      obtain ⟨moved, -, same⟩ := discarded
      cases same
      exact (sub_of_le one).2.1
    obtain ⟨same, fewer⟩ := later next
    cases ran : rest next with
    | none =>
      rw [ran] at same
      simp only [Option.bind_eq_bind, Option.bind_some, ran, Option.bind_none, ← same]
      exact ⟨rfl, fun _ _ counted => by cases counted⟩
    | some counted =>
      obtain ⟨discards, result⟩ := counted
      rw [ran] at same
      simp only [Option.bind_eq_bind, Option.bind_some, ran, ← same]
      refine ⟨rfl, ?_⟩
      intro _ _ counted
      cases counted
      have below := fewer discards result ran
      omega

/-- The checked loop reads the header on its own, and finds what is in the buffer. -/
theorem load_header (buffer : Block sizeofFrame) :
    ∃ header, buffer.load 0 sizeofHeader = some header ∧ header[0]? = buffer.bytes[0]? ∧
      FrameHeader.ofBytes header = FrameHeader.ofBytes buffer.bytes := by
  refine ⟨_, buffer.load_fits 0 sizeofHeader (by decide), ?_, ?_⟩
  · rw [List.drop_zero]
    exact List.getElem?_take_of_lt (by decide)
  · rw [List.drop_zero]
    apply FrameHeader.ofBytes_take _ _ (Nat.le_refl _)
    rw [buffer.length_bytes]
    decide

/-- With a payload length in range, neither the size of the frame nor the number of
octets under its checksum wraps. -/
theorem ofSize_total {len : UInt16} (bounded : len.toNat ≤ frameMaxPayload) :
    let total := UInt16.ofNat (sizeofHeader + len.toNat + 1)
    ofSize (sizeofHeader + len.toNat + 1) = some total ∧ sub total 1 = some (total - 1) ∧
      (total - 1).toNat = total.toNat - 1 := by
  intro total
  have size : total.toNat = sizeofHeader + len.toNat + 1 := total_toNat len.toNat bounded
  have one : (1 : UInt16).toNat ≤ total.toNat := by
    rw [size]
    exact Nat.le_add_left _ _
  obtain ⟨exact, before, -⟩ := sub_of_le one
  refine ⟨?_, exact, before⟩
  apply if_pos
  rw [← size]
  exact UInt16.toNat_lt _

theorem getLoop_matches (fuel : Nat) (parser : FrameParser) (out : Frame) :
    Matches parser.index.toNat (getLoop fuel parser out) (Telemetry.getLoop fuel parser out) := by
  induction fuel generalizing parser with
  | zero => exact Matches.undiscarded _ none
  | succ fuel ih =>
    by_cases short : parser.index.toNat < sizeofHeader
    · simp only [getLoop, Telemetry.getLoop, if_pos short]
      exact Matches.undiscarded _ (some (0, parser, out))
    have held : 0 < parser.index.toNat := by
      unfold sizeofHeader at short
      omega
    have discards := Matches.discarding held fun next => ih next
    obtain ⟨header, loaded, first, read⟩ := load_header parser.buffer
    simp only [getLoop, Telemetry.getLoop, if_neg short, loaded, first, read, Option.bind_eq_bind,
      Option.bind_some]
    by_cases magic : parser.buffer.bytes[0]? ≠ some frameMagic
    · simp only [if_pos magic]
      exact discards
    simp only [if_neg magic]
    generalize (FrameHeader.ofBytes parser.buffer.bytes).payloadLen = len
    by_cases range : len = 0 ∨ frameMaxPayload < len.toNat
    · rw [if_pos range, if_pos range]
      exact discards
    rw [if_neg range, if_neg range]
    have bounded : len.toNat ≤ frameMaxPayload := by omega
    obtain ⟨sized, covered, before⟩ := ofSize_total bounded
    generalize UInt16.ofNat (sizeofHeader + len.toNat + 1) = total at sized covered before
    simp only [sized, covered, before, Option.bind_some]
    by_cases part : parser.index < total
    · rw [if_pos part, if_pos part]
      exact Matches.undiscarded _ (some (0, parser, out))
    rw [if_neg part, if_neg part]
    have arrived : total.toNat ≤ parser.index.toNat := by
      rw [UInt16.lt_iff_toNat_lt] at part
      omega
    cases frameChecksum parser.buffer (total - 1) with
    | none => exact Matches.undiscarded _ none
    | some expected =>
      simp only [Option.bind_some]
      cases parser.buffer.bytes[total.toNat - 1]? with
      | none => exact Matches.undiscarded _ none
      | some received =>
        simp only [Option.bind_some]
        by_cases mismatch : expected ≠ received
        · rw [if_pos mismatch, if_pos mismatch]
          exact discards
        · rw [if_neg mismatch, if_neg mismatch, consumeFrame_eq arrived]
          exact Matches.undiscarded _ _

theorem frameParserGet_matches (parser : FrameParser) (out : Frame) :
    Matches parser.index.toNat (frameParserGet parser out) (Telemetry.frameParserGet parser out) :=
  getLoop_matches _ parser out

theorem callStep_eq (progress : Progress) (call : Call) :
    callStep progress call = Telemetry.callStep progress call := by
  cases call with
  | input data fits => simp only [callStep, Telemetry.callStep, frameParserInput_eq]
  | get out =>
    obtain ⟨same, -⟩ := frameParserGet_matches progress.parser out
    simp only [callStep, Telemetry.callStep, ← same]
    cases frameParserGet progress.parser out <;> rfl

theorem runCalls_eq (progress : Progress) (calls : List Call) :
    runCalls progress calls = Telemetry.runCalls progress calls := by
  have step : callStep = Telemetry.callStep := by
    funext progress call
    exact callStep_eq progress call
  rw [runCalls, step]
  rfl

end Checked

/-- Every run of calls stays within its objects and within 16 bits; the index is
never larger than the buffer, and a call of get discards at most as many octets
as the parser holds. -/
theorem calls_bounded (memory : FrameParser) (calls : List Call) :
    ∃ progress, Checked.runCalls (started memory) calls = some progress ∧
      runCalls (started memory) calls = some progress ∧
      progress.parser.index.toNat ≤ sizeofFrame ∧
      ∀ out, ∃ discards result, Checked.frameParserGet progress.parser out = some (discards, result) ∧
        frameParserGet progress.parser out = some result ∧
        discards ≤ progress.parser.index.toNat := by
  obtain ⟨progress, ran, tracks⟩ := (started_tracks memory).run calls
  refine ⟨progress, (Checked.runCalls_eq _ _).trans ran, ran, tracks.valid, ?_⟩
  intro out
  obtain ⟨same, fewer⟩ := Checked.frameParserGet_matches progress.parser out
  have returns : ∃ result, frameParserGet progress.parser out = some result := by
    rcases FrameParser.frameParserGet_pull tracks.valid out with
      ⟨next, got, -⟩ | ⟨next, frame, block, got, -⟩
    all_goals exact ⟨_, got⟩
  obtain ⟨result, got⟩ := returns
  rw [got] at same
  obtain ⟨⟨discards, result'⟩, counted, same⟩ := Option.map_eq_some_iff.mp same
  cases same
  exact ⟨discards, result', counted, got, fewer discards result' counted⟩

end Simuless.Telemetry
