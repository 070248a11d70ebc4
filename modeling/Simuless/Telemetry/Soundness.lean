import Simuless.Telemetry.Stream

/-! Nothing the parser delivers is made up.

Whatever octets arrive, in whatever calls and with whatever loss, the buffer
holds the newest octets of the stream, and the delivered frames stand in the
stream one behind the other, each as the encoder would have written it.
-/

set_option autoImplicit false

namespace Simuless.Telemetry

open Foundation

/-- The frames stand in the stream at these positions, none overlapping. -/
structure StandsIn (stream : Bytes) (placed : List (Nat × Frame)) : Prop where
  inside : ∀ place ∈ placed, place.1 + place.2.wireBytes.length ≤ stream.length
  occurs : ∀ place ∈ placed,
    (stream.drop place.1).take place.2.wireBytes.length = place.2.wireBytes
  ordered : placed.Pairwise fun first later => first.1 + first.2.wireBytes.length ≤ later.1

/-- Frames delivered for a list of blocks take over the positions of the blocks. -/
theorem place_frames {deliveries : List (Delivery UInt8)} {frames : List Frame}
    (carried : List.Forall₂ Frame.Carries frames (deliveries.map (·.block))) :
    ∃ placed : List (Nat × Frame), placed.map Prod.snd = frames ∧
      placed.map (fun place => (place.1, place.2.wireBytes)) =
        deliveries.map fun delivery => (delivery.start, delivery.block) := by
  induction deliveries generalizing frames with
  | nil =>
    cases carried
    exact ⟨[], rfl, rfl⟩
  | cons delivery rest ih =>
    cases carried with
    | cons first carried =>
      rename_i frame frames
      obtain ⟨placed, same, positions⟩ := ih carried
      refine ⟨(delivery.start, frame) :: placed, by rw [List.map_cons, same], ?_⟩
      rw [List.map_cons, List.map_cons, positions, first.wireBytes]

theorem sound_standsIn {session : Session UInt8} {capacity : Nat}
    (sound : Session.Sound frameScanner capacity session) {placed : List (Nat × Frame)}
    (positions : placed.map (fun place => (place.1, place.2.wireBytes)) =
      session.deliveries.map fun delivery => (delivery.start, delivery.block)) :
    StandsIn session.stream placed := by
  have source (place : Nat × Frame) (member : place ∈ placed) :
      ∃ delivery ∈ session.deliveries, delivery.start = place.1 ∧
        delivery.block = place.2.wireBytes := by
    have image : (place.1, place.2.wireBytes) ∈
        session.deliveries.map fun delivery => (delivery.start, delivery.block) := by
      rw [← positions]
      exact List.mem_map.mpr ⟨place, member, rfl⟩
    obtain ⟨delivery, present, same⟩ := List.mem_map.mp image
    exact ⟨delivery, present, congrArg Prod.fst same, congrArg Prod.snd same⟩
  exact {
    inside := by
      intro place member
      obtain ⟨delivery, present, start, block⟩ := source place member
      have consumed := sound.consumed delivery present
      rw [← start, ← block]
      exact (Nat.le_add_right _ _).trans consumed
    occurs := by
      intro place member
      obtain ⟨delivery, present, start, block⟩ := source place member
      rw [← start, ← block]
      exact sound.occurs delivery present
    ordered := by
      have ordered := sound.ordered
      have apart : (session.deliveries.map fun delivery =>
          (delivery.start, delivery.block)).Pairwise
            fun first later => first.1 + first.2.length ≤ later.1 :=
        List.pairwise_map.mpr ordered
      rw [← positions] at apart
      exact List.pairwise_map.mp apart }

/-- In every run the buffer is the end of the stream, and the deliveries are
blocks of the stream that the encoder writes for what they say. -/
theorem deliveries_sound (memory : FrameParser) (calls : List Call) :
    ∃ final placed, runCalls (started memory) calls = some final ∧
      final.parser.buffer.bytes.take final.parser.index.toNat =
        (fedBytes calls).drop ((fedBytes calls).length - final.parser.index.toNat) ∧
      final.parser.index.toNat ≤ (fedBytes calls).length ∧
      placed.map Prod.snd = final.delivered ∧ StandsIn (fedBytes calls) placed ∧
      ∀ frame ∈ final.delivered, ∀ {size : Nat} (buf : Block size) (outLen : UInt16),
        sizeofFrame ≤ size → encodeInto frame.content buf outLen = some frame.wireBytes := by
  obtain ⟨final, ran, tracks⟩ := (started_tracks memory).run calls
  have sound := (Session.fresh_sound frameScanner sizeofFrame).run (calls.map Call.event)
  have stream : (Session.run frameScanner sizeofFrame Session.fresh (calls.map Call.event)).stream =
      fedBytes calls := Session.run_stream _ _ _ _
  obtain ⟨placed, frames, positions⟩ := place_frames tracks.carried
  have held := sound.held
  rw [stream, ← tracks.window] at held
  have length := FrameParser.length_window tracks.valid
  refine ⟨final, placed, ran, ?_, ?_, frames, ?_, ?_⟩
  · have newest := List.suffix_iff_eq_drop.mp held
    rw [length] at newest
    exact newest
  · rw [← length]
    exact held.length_le
  · rw [← stream]
    exact sound_standsIn sound positions
  · intro frame member size buf outLen room
    obtain ⟨index, bound, rfl⟩ := List.getElem_of_mem member
    have carries := tracks.carried.get bound (tracks.carried.length_eq ▸ bound)
    rw [List.get_eq_getElem] at carries
    rw [carries.content, carries.wireBytes]
    exact encodeInto_accepted carries.accepted buf outLen room

/-! Without loss the parser is the scanner of the whole stream. -/

/-- No input call finds less room in the buffer than it feeds. -/
def NoOverflow (progress : Progress) : List Call → Prop
  | [] => True
  | call :: rest =>
      (match call with
        | .input data _ => progress.parser.index.toNat + data.length ≤ sizeofFrame
        | .get _ => True) ∧
      ∀ next, callStep progress call = some next → NoOverflow next rest

theorem Tracks.lossless {progress : Progress} {session : Session UInt8}
    (tracks : Tracks progress session) (calls : List Call) (fits : NoOverflow progress calls) :
    Session.Lossless frameScanner sizeofFrame session (calls.map Call.event) := by
  induction calls generalizing progress session with
  | nil => trivial
  | cons call rest ih =>
    obtain ⟨next, stepped, after⟩ := tracks.step call
    refine ⟨?_, ih after (fits.2 next stepped)⟩
    cases call with
    | input data small =>
      have length := FrameParser.length_window tracks.valid
      rw [tracks.window] at length
      simp only [Call.event, Session.Fits, length]
      exact fits.1
    | get out => trivial

/-- However the calls interleave, the frames delivered so far and those a
drain still gives are the scan of everything fed, and so is what is left. -/
theorem incremental_scan (memory : FrameParser) (calls : List Call) (out : Frame)
    (fits : NoOverflow (started memory) calls) :
    ∃ final frames rest, runCalls (started memory) calls = some final ∧
      drain final.parser out = some (frames, rest) ∧
      (final.delivered ++ frames).map Frame.wireBytes = (frameScanner.scan (fedBytes calls)).1 ∧
      rest.window = (frameScanner.scan (fedBytes calls)).2 := by
  obtain ⟨final, ran, tracks⟩ := (started_tracks memory).run calls
  have agrees := Session.fresh_agrees.run _ ((started_tracks memory).lossless calls fits)
  have stream : (Session.run frameScanner sizeofFrame Session.fresh (calls.map Call.event)).stream =
      fedBytes calls := Session.run_stream _ _ _ _
  rw [Session.Agrees, stream, ← tracks.window] at agrees
  obtain ⟨frames, rest, drained, -, window, carried⟩ := drain_scan tracks.valid out
  refine ⟨final, frames, rest, ran, drained, ?_, ?_⟩
  · rw [List.map_append, map_wireBytes tracks.carried, map_wireBytes carried, agrees]
  · rw [window, agrees]

/-- A frame in two pieces, with noise before and behind it. -/
theorem incremental_scan_ping :
    let calls : List Call := [.get blankFrame, .input (0xFF :: ping.bytes.take 7) (by decide),
      .get blankFrame, .input (ping.bytes.drop 7 ++ [0, 0xAA]) (by decide), .get blankFrame]
    (frameScanner.scan (fedBytes calls)).1 = [ping.bytes] ∧
      ∃ final frames rest, runCalls (started blankParser) calls = some final ∧
        drain final.parser blankFrame = some (frames, rest) ∧
        (final.delivered ++ frames).map Frame.wireBytes = (frameScanner.scan (fedBytes calls)).1 ∧
        rest.window = (frameScanner.scan (fedBytes calls)).2 := by
  intro calls
  refine ⟨by decide +kernel, incremental_scan blankParser calls blankFrame ?_⟩
  refine ⟨trivial, fun first got => ⟨?_, fun second fed => ⟨trivial, fun third got' => ⟨?_, ?_⟩⟩⟩⟩
  · cases got
    decide +kernel
  · cases got
    cases fed
    cases got'
    decide +kernel
  · exact fun _ _ => ⟨trivial, fun _ _ => trivial⟩

end Simuless.Telemetry
