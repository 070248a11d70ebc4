import Simuless.Foundation.Framing
import Simuless.Telemetry.Stream

/-! Resynchronisation after arbitrary octets.

A false header claims at most `sizeof(frame_t)` octets. Once as many octets but
one have passed without a magic octet, every candidate from before is decided
and the parser stands at the next frame.
-/

set_option autoImplicit false

namespace Simuless.Telemetry

open Foundation

section
variable (message : Message)

/-- Silence in front of a frame is discarded octet by octet. -/
theorem scan_silent {quiet : Bytes} (silent : Quiet frameMagic quiet) :
    frameScanner.scan (quiet ++ message.bytes) = ([message.bytes], []) := by
  induction quiet with
  | nil =>
    have decision := message.decision_bytes []
    rw [List.append_nil] at decision
    rw [List.nil_append, Scanner.scan_accept decision, List.take_length, List.drop_length,
      Scanner.scan_wait rfl]
  | cons octet rest ih =>
    have length := message.length_bytes
    have decision : frameDecision (octet :: rest ++ message.bytes) = .discard := by
      apply decision_noise
      · simp only [List.cons_append, List.length_cons, List.length_append]
        omega
      · intro magic
        exact silent octet (by simp) (by simpa using magic)
    rw [Scanner.scan_discard decision]
    exact ih fun octet member => silent octet (by simp [member])

/-- Whatever is held, 272 silent octets later the scan stands at the frame. -/
theorem scan_resync (held : Bytes) {quiet : Bytes} (silent : Quiet frameMagic quiet)
    (long : sizeofFrame ≤ quiet.length + 1) :
    ∃ early, frameScanner.scan (held ++ (quiet ++ message.bytes)) = (early ++ [message.bytes], []) := by
  induction size : held.length using Nat.strong_induction_on generalizing held with
  | _ size ih =>
    subst size
    cases held with
    | nil => exact ⟨[], scan_silent message silent⟩
    | cons first rest =>
      cases decision : frameDecision (first :: rest ++ (quiet ++ message.bytes)) with
      | wait =>
        have short := wait_lt_sizeofFrame decision
        simp only [List.cons_append, List.length_cons, List.length_append] at short
        omega
      | discard =>
        obtain ⟨early, found⟩ := ih rest.length (Nat.lt_succ_self _) rest rfl
        exact ⟨early, (Scanner.scan_discard decision).trans found⟩
      | accept length =>
        have bounded := accept_le_sizeofFrame decision
        have positive := frameScanner.accept_nonempty decision
        rw [Scanner.scan_accept decision]
        by_cases inside : length ≤ (first :: rest).length
        · -- the candidate ends in what was held
          obtain ⟨early, found⟩ := ih ((first :: rest).drop length).length
            (by rw [List.length_drop]; simp only [List.length_cons]; omega) _ rfl
          rw [List.drop_append_of_le_length inside, found]
          exact ⟨_ :: early, rfl⟩
        · -- it reaches into the silence, but not beyond
          have outside : (first :: rest ++ (quiet ++ message.bytes)).drop length =
              quiet.drop (length - (first :: rest).length) ++ message.bytes := by
            rw [List.drop_append, List.drop_eq_nil_of_le (by omega), List.nil_append,
              List.drop_append_of_le_length]
            simp only [List.length_cons] at inside ⊢
            omega
          rw [outside, scan_silent message (silent.drop _)]
          exact ⟨[_], rfl⟩

end

theorem last_of_forall₂ {First Second : Type} {relation : First → Second → Prop}
    {firsts : List First} {seconds : List Second} {second : Second}
    (related : List.Forall₂ relation firsts (seconds ++ [second])) :
    ∃ last, relation last second ∧ firsts = firsts.take seconds.length ++ [last] := by
  have tail := List.forall₂_drop_append _ _ _ related
  cases same : firsts.drop seconds.length with
  | nil =>
    rw [same] at tail
    cases tail
  | cons last rest =>
    rw [same] at tail
    cases tail with
    | cons holds none =>
      cases none
      refine ⟨last, holds, ?_⟩
      rw [← same, List.take_append_drop]

/-- From every reachable state a frame behind 272 silent octets is delivered,
and it is the last one. -/
theorem resync (memory : FrameParser) (calls : List Call) (final : Progress)
    (reached : runCalls (started memory) calls = some final) (quiet : Bytes)
    (long : 272 ≤ quiet.length) (silent : Quiet frameMagic quiet) (message : Message)
    {size : Nat} (buf : Block size) (outLen : UInt16) (frame : Bytes)
    (sent : encodeInto message.content buf outLen = some frame) (chunks : List Bytes)
    (cut : chunks.flatten = quiet ++ frame) (out : Frame) :
    ∃ early idle, drain final.parser out = some (early, idle) ∧
      (PumpFits idle out chunks →
        ∃ between last rest, pump idle out chunks = some (between ++ [last], rest) ∧
          last.wireBytes = frame ∧ last.content = message.content) := by
  have same := encodeInto_message sent
  subst same
  obtain ⟨final', ran, tracks⟩ := (started_tracks memory).run calls
  rw [reached] at ran
  cases ran
  obtain ⟨early, idle, drained, valid, left, -⟩ := drain_scan tracks.valid out
  refine ⟨early, idle, drained, ?_⟩
  intro fits
  have waits : frameDecision idle.window = .wait := left ▸ frameScanner.scan_remainder _
  obtain ⟨spacious, small⟩ := fits.small valid
  obtain ⟨frames, rest, pumped, -, -, carried⟩ := pump_scan valid out chunks small
  obtain ⟨before, scanned⟩ := scan_resync message idle.window silent
    (by unfold sizeofFrame sizeofHeader frameMaxPayload; omega)
  rw [Session.pump_spacious waits chunks spacious, cut, scanned] at carried
  obtain ⟨last, carries, split⟩ := last_of_forall₂ carried
  refine ⟨_, last, rest, split ▸ pumped, carries.wireBytes, ?_⟩
  rw [carries.content, message.content_bytes]

theorem resync_octets : ∃ between last rest,
    pump (started blankParser).parser blankFrame
        ((List.replicate 272 0 ++ ping.bytes).map ([·])) = some (between ++ [last], rest) ∧
      last.wireBytes = ping.bytes ∧ last.content = ping.content := by
  have silent : Quiet frameMagic (List.replicate 272 0) := by
    intro octet member
    rw [List.eq_of_mem_replicate member]
    decide
  have cut : ((List.replicate 272 0 ++ ping.bytes).map ([·])).flatten =
      List.replicate 272 0 ++ ping.bytes := List.flatMap_singleton' _
  obtain ⟨early, idle, drained, delivered⟩ := resync blankParser [] (started blankParser) rfl
    (List.replicate 272 0) (Nat.le_of_eq List.length_replicate.symm) silent ping blankFrame 0 ping.bytes
    (ping.encoded_fits blankFrame 0 (Nat.le_refl _)) _ cut blankFrame
  have empty : drain (started blankParser).parser blankFrame =
      some ([], (started blankParser).parser) := rfl
  rw [empty] at drained
  cases drained
  exact delivered (pumpFits_octets (FrameParser.init_valid blankParser) rfl blankFrame _)

end Simuless.Telemetry
