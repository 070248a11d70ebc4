import Mathlib.Data.List.Forall2
import Simuless.Telemetry.Parser

/-! Runs of calls on one parser.

A run is any sequence of input and get calls. Every run has a result and is
tracked by a session of the frame scanner over a window of `sizeof(frame_t)`
octets, so what holds of sessions holds of the parser.
-/

set_option autoImplicit false

namespace Simuless.Telemetry

open Foundation

/-- The octets of a delivered frame as they were received. -/
def Frame.wireBytes (frame : Frame) : Bytes :=
  frame.bytes.take (sizeofHeader + frame.header.payloadLen.toNat + 1)

/-- A call: input of at most 65535 octets, or get with the caller's `frame_t`. -/
inductive Call where
  | input (data : Bytes) (fits : data.length < 2 ^ 16)
  | get (out : Frame)

def Call.event : Call → Event UInt8
  | .input data _ => .feed data
  | .get _ => .pull

/-- A parser together with the frames it has delivered. -/
structure Progress where
  parser : FrameParser
  delivered : List Frame

def callStep (progress : Progress) : Call → Option Progress
  | .input data _ => do
      let (_, parser) ← frameParserInput progress.parser data (.ofNat data.length)
      return { progress with parser }
  | .get out => do
      let (ret, parser, out) ← frameParserGet progress.parser out
      return ⟨parser, if ret = 1 then progress.delivered ++ [out] else progress.delivered⟩

def runCalls (progress : Progress) (calls : List Call) : Option Progress :=
  calls.foldlM callStep progress

/-- A parser just initialised, over whatever memory it was given. -/
def started (memory : FrameParser) : Progress := ⟨frameParserInit memory, []⟩

/-- All octets fed by a sequence of calls. -/
def fedBytes (calls : List Call) : Bytes := (Session.chunks (calls.map Call.event)).flatten

/-- Call `smls_frame_parser_get` until it returns 0. Each frame takes octets
off the buffer, so `index + 1` calls suffice. -/
def drainLoop : (fuel : Nat) → FrameParser → Frame → Option (List Frame × FrameParser)
  | 0, _, _ => none
  | fuel + 1, parser, out => do
      let (ret, parser, out) ← frameParserGet parser out
      if ret = 0 then return ([], parser)
      else
        let (frames, parser) ← drainLoop fuel parser out
        return (out :: frames, parser)

def drain (parser : FrameParser) (out : Frame) : Option (List Frame × FrameParser) :=
  drainLoop (parser.index.toNat + 1) parser out

/-- Feed chunk after chunk, draining the parser after each. -/
def pump (parser : FrameParser) (out : Frame) : List Bytes → Option (List Frame × FrameParser)
  | [] => some ([], parser)
  | chunk :: rest => do
      let (_, parser) ← frameParserInput parser chunk (.ofNat chunk.length)
      let (frames, parser) ← drain parser out
      let (more, parser) ← pump parser out rest
      return (frames ++ more, parser)

/-- No chunk finds less room in the drained buffer than it feeds. -/
def PumpFits (parser : FrameParser) (out : Frame) : List Bytes → Prop
  | [] => True
  | chunk :: rest =>
      parser.index.toNat + chunk.length ≤ sizeofFrame ∧
      ∀ result fed frames next,
        frameParserInput parser chunk (.ofNat chunk.length) = some (result, fed) →
        drain fed out = some (frames, next) → PumpFits next out rest

/-- A parser and a frame over zeroed memory, and a message of one octet. -/
def blankParser : FrameParser := ⟨.replicate sizeofFrame 0, 0⟩

def blankFrame : Frame := .replicate sizeofFrame 0

def ping : Message := ⟨1, 2, 3, [0x55], by decide, by decide⟩

/-! What is read from a delivered frame. -/

theorem Frame.header_of_bytes {frame : Frame} {block rest : Bytes}
    (accepted : frameDecision block = .accept block.length) (bytes : frame.bytes = block ++ rest) :
    frame.header = .ofBytes block := by
  obtain ⟨len, exact, -⟩ := complete_of_accept accepted
  rw [header, bytes, FrameHeader.ofBytes_append _ _ (by omega)]

theorem Frame.wireBytes_of_bytes {frame : Frame} {block rest : Bytes}
    (accepted : frameDecision block = .accept block.length) (bytes : frame.bytes = block ++ rest) :
    frame.wireBytes = block := by
  have header := frame.header_of_bytes accepted bytes
  obtain ⟨len, exact, complete⟩ := complete_of_accept accepted
  rw [wireBytes, header, complete.payloadLen, ← exact, bytes, List.take_left]

theorem Frame.content_of_bytes {frame : Frame} {block rest : Bytes}
    (accepted : frameDecision block = .accept block.length) (bytes : frame.bytes = block ++ rest) :
    frame.content = contentOf block := by
  have header := frame.header_of_bytes accepted bytes
  obtain ⟨len, exact, complete⟩ := complete_of_accept accepted
  have bounded := complete.bounded
  have payload : frame.payload.take len = (block.drop sizeofHeader).take len := by
    rw [Frame.payload, bytes, List.take_take, Nat.min_eq_left bounded,
      List.drop_append_of_le_length (by omega), List.take_append_of_le_length]
    rw [List.length_drop]
    omega
  simp only [content, contentOf, header, complete.payloadLen, payload]

/-- A frame holds the block it was delivered for. -/
structure Frame.Carries (frame : Frame) (block : Bytes) : Prop where
  accepted : frameDecision block = .accept block.length
  wireBytes : frame.wireBytes = block
  content : frame.content = contentOf block

theorem Frame.carries_of_bytes {frame : Frame} {block rest : Bytes}
    (accepted : frameDecision block = .accept block.length) (bytes : frame.bytes = block ++ rest) :
    frame.Carries block :=
  ⟨accepted, wireBytes_of_bytes accepted bytes, content_of_bytes accepted bytes⟩

theorem map_wireBytes {frames : List Frame} {blocks : List Bytes}
    (carried : List.Forall₂ Frame.Carries frames blocks) : frames.map Frame.wireBytes = blocks := by
  induction carried with
  | nil => rfl
  | cons first _ ih => rw [List.map_cons, first.wireBytes, ih]

theorem map_content {frames : List Frame} {blocks : List Bytes}
    (carried : List.Forall₂ Frame.Carries frames blocks) :
    frames.map Frame.content = blocks.map contentOf := by
  induction carried with
  | nil => rfl
  | cons first _ ih => rw [List.map_cons, List.map_cons, first.content, ih]

/-! The parser is tracked by a session. -/

structure Tracks (progress : Progress) (session : Session UInt8) : Prop where
  valid : progress.parser.Valid
  window : progress.parser.window = session.window
  carried : List.Forall₂ Frame.Carries progress.delivered session.blocks

theorem started_tracks (memory : FrameParser) : Tracks (started memory) Session.fresh :=
  ⟨FrameParser.init_valid memory, FrameParser.init_window memory, .nil⟩

theorem length_toNat {count : Nat} (fits : count < 2 ^ 16) : (UInt16.ofNat count).toNat = count := by
  rw [UInt16.toNat_ofNat']
  exact Nat.mod_eq_of_lt fits

/-- Every call succeeds and is one step of the session. -/
theorem Tracks.step {progress : Progress} {session : Session UInt8} (tracks : Tracks progress session)
    (call : Call) :
    ∃ next, callStep progress call = some next ∧
      Tracks next (Session.step frameScanner sizeofFrame session call.event) := by
  cases call with
  | input data fits =>
    have len := length_toNat fits
    obtain ⟨next, ran, window, valid⟩ :=
      FrameParser.frameParserInput_window tracks.valid data (.ofNat data.length) len.le
    refine ⟨⟨next, progress.delivered⟩, ?_, valid, ?_, tracks.carried⟩
    · simp only [callStep, ran]
      rfl
    · rw [len, List.take_length, tracks.window] at window
      simp only [Call.event, Session.step]
      exact window
  | get out =>
    rcases FrameParser.frameParserGet_pull tracks.valid out with
      ⟨next, got, valid, pulled⟩ | ⟨next, frame, block, got, valid, pulled, bytes⟩
    all_goals rw [tracks.window] at pulled
    · refine ⟨⟨next, progress.delivered⟩, by simp only [callStep, got]; rfl, valid, ?_, ?_⟩
      all_goals simp only [Call.event, Session.step, pulled]
      exact tracks.carried
    · refine ⟨⟨next, progress.delivered ++ [frame]⟩, by simp only [callStep, got]; rfl, valid, ?_, ?_⟩
      all_goals simp only [Call.event, Session.step, pulled, Session.blocks, List.map_append,
        List.map_cons, List.map_nil]
      have accepted := (frameScanner.pull_accepted pulled).1
      exact List.rel_append tracks.carried (.cons (Frame.carries_of_bytes accepted bytes) .nil)

theorem Tracks.run {progress : Progress} {session : Session UInt8} (tracks : Tracks progress session)
    (calls : List Call) :
    ∃ final, runCalls progress calls = some final ∧
      Tracks final (Session.run frameScanner sizeofFrame session (calls.map Call.event)) := by
  induction calls generalizing progress session with
  | nil => exact ⟨progress, rfl, tracks⟩
  | cons call rest ih =>
    obtain ⟨next, stepped, tracks⟩ := tracks.step call
    obtain ⟨final, ran, tracks⟩ := ih tracks
    refine ⟨final, ?_, tracks⟩
    rw [runCalls, List.foldlM_cons, stepped]
    exact ran

/-! Draining and pumping are scanning. -/

theorem drainLoop_scan {parser : FrameParser} (valid : parser.Valid) {fuel : Nat}
    (enough : parser.index.toNat < fuel) (out : Frame) :
    ∃ frames next, drainLoop fuel parser out = some (frames, next) ∧ next.Valid ∧
      next.window = (frameScanner.scan parser.window).2 ∧
      List.Forall₂ Frame.Carries frames (frameScanner.scan parser.window).1 := by
  induction fuel generalizing parser out with
  | zero => exact absurd enough (Nat.not_lt_zero _)
  | succ fuel ih =>
    rcases FrameParser.frameParserGet_pull valid out with
      ⟨next, got, kept, pulled⟩ | ⟨next, frame, block, got, kept, pulled, bytes⟩
    · rw [frameScanner.scan_pull_none pulled]
      exact ⟨[], next, by simp only [drainLoop, got]; rfl, kept, rfl, .nil⟩
    · -- a frame has been taken off, so less fuel is enough for the rest
      obtain ⟨accepted, shorter⟩ := frameScanner.pull_accepted pulled
      rw [FrameParser.length_window valid, FrameParser.length_window kept] at shorter
      obtain ⟨frames, last, drained, done, window, carried⟩ := ih kept (by omega) frame
      rw [frameScanner.scan_pull_some pulled]
      refine ⟨frame :: frames, last, ?_, done, window,
        .cons (Frame.carries_of_bytes accepted bytes) carried⟩
      simp only [drainLoop, got, Option.bind_eq_bind, Option.bind_some, drained]
      rfl

theorem drain_scan {parser : FrameParser} (valid : parser.Valid) (out : Frame) :
    ∃ frames next, drain parser out = some (frames, next) ∧ next.Valid ∧
      next.window = (frameScanner.scan parser.window).2 ∧
      List.Forall₂ Frame.Carries frames (frameScanner.scan parser.window).1 :=
  drainLoop_scan valid (Nat.lt_succ_self _) out

theorem pump_scan {parser : FrameParser} (valid : parser.Valid) (out : Frame) (pieces : List Bytes)
    (small : ∀ piece ∈ pieces, piece.length < 2 ^ 16) :
    ∃ frames next, pump parser out pieces = some (frames, next) ∧ next.Valid ∧
      next.window = (Session.pump frameScanner sizeofFrame parser.window pieces).2 ∧
      List.Forall₂ Frame.Carries frames
        (Session.pump frameScanner sizeofFrame parser.window pieces).1 := by
  induction pieces generalizing parser with
  | nil => exact ⟨[], parser, rfl, valid, rfl, .nil⟩
  | cons piece rest ih =>
    have len := length_toNat (small piece (by simp))
    obtain ⟨fed, ran, held, kept⟩ :=
      FrameParser.frameParserInput_window valid piece (.ofNat piece.length) len.le
    obtain ⟨frames, drained, emptied, clean, left, carried⟩ := drain_scan kept out
    obtain ⟨more, last, pumped, done, window, rested⟩ :=
      ih clean (fun piece member => small piece (by simp [member]))
    rw [len, List.take_length] at held
    rw [held] at left carried
    rw [left] at window rested
    refine ⟨frames ++ more, last, ?_, done, window, List.rel_append carried rested⟩
    simp only [pump, ran, Option.bind_eq_bind, Option.bind_some, emptied, pumped]
    rfl

theorem PumpFits.small {parser : FrameParser} {out : Frame} {pieces : List Bytes}
    (valid : parser.Valid) (fits : PumpFits parser out pieces) :
    Session.Spacious frameScanner sizeofFrame parser.window pieces ∧
      ∀ piece ∈ pieces, piece.length < 2 ^ 16 := by
  induction pieces generalizing parser with
  | nil => exact ⟨trivial, by simp⟩
  | cons piece rest ih =>
    have length := FrameParser.length_window valid
    have room := fits.1
    rw [← length] at room
    have bound : sizeofFrame = 273 := rfl
    have small : piece.length < 2 ^ 16 := by omega
    have len := length_toNat small
    obtain ⟨fed, ran, held, kept⟩ :=
      FrameParser.frameParserInput_window valid piece (.ofNat piece.length) len.le
    obtain ⟨frames, next, drained, clean, left, -⟩ := drain_scan kept out
    rw [len, List.take_length, Session.rtake_of_le _ _ (by rw [List.length_append]; exact room)] at held
    obtain ⟨spacious, smaller⟩ := ih clean (fits.2 _ _ _ _ ran drained)
    rw [left, held] at spacious
    refine ⟨⟨room, spacious⟩, ?_⟩
    intro other member
    rcases List.mem_cons.mp member with same | member
    · exact same ▸ small
    · exact smaller other member

/-- A drained parser never overflows when octets come one at a time. -/
theorem pumpFits_octets {parser : FrameParser} (valid : parser.Valid)
    (waits : frameDecision parser.window = .wait) (out : Frame) (octets : Bytes) :
    PumpFits parser out (octets.map ([·])) := by
  induction octets generalizing parser with
  | nil => trivial
  | cons octet rest ih =>
    have room := wait_lt_sizeofFrame waits
    rw [FrameParser.length_window valid] at room
    refine ⟨room, ?_⟩
    intro result fed frames next ran drained
    -- both calls are functions, so any result of them is this one
    obtain ⟨fed', ran', -, kept⟩ :=
      FrameParser.frameParserInput_window valid [octet] (.ofNat 1) (Nat.le_refl 1)
    have same : fed' = fed := by
      have := ran'.symm.trans ran
      simp_all
    subst same
    obtain ⟨frames', next', drained', clean, left, -⟩ := drain_scan kept out
    have same : next' = next := by
      have := drained'.symm.trans drained
      simp_all
    subst same
    exact ih clean (left ▸ frameScanner.scan_remainder _)

end Simuless.Telemetry
