import Simuless.Runtime.RingBuffer

/-! Plotting ring buffers.

Both functions write a buffer's samples into a pipe, and they compute the cells
differently: one counts from the tail within the capacity, the other from the
head within the size. The second counts in 32 bits.
-/

set_option autoImplicit false

namespace Simuless.Runtime

open Foundation

variable {Sample : Type}

structure Gnuplotter where
  /-- The stream to gnuplot; `none` is a null pointer. -/
  pipe : Option Nat
  initialized : Bool

/-- What is written into the pipe. -/
inductive PlotLine (Sample : Type) where
  | text (chars : String)
  | point (index : Nat) (value : Sample)
  /-- The line `e` behind inline data. -/
  | finish
  deriving DecidableEq

/-- The lines written; a run outside the storage or without an end has no result. -/
def gnuplotterPlotRingbuf (gp : Option Gnuplotter) (rb : Option (Ringbuf Sample)) :
    Option (List (PlotLine Sample)) :=
  match gp, rb with
  | some gp, some rb =>
      if gp.initialized then do
        let _pipe ← gp.pipe
        let points ← (List.range rb.size).mapM fun (i : Nat) => do
          let idx ← wrap (rb.tail + i) rb.capacity
          let value ← rb.data.read idx
          return .point i value
        return [.text ("set xrange [0:" ++ toString rb.size ++ "]\n"),
          .text "plot '-' with lines notitle\n"] ++ points ++ [.finish]
      else some []
  | _, _ => some []

/-- `for (uint32_t i = 0; i < rb->size; i++)`, where `turns` limits the turns. -/
def plotSamples (rb : Ringbuf Sample) : (turns : Nat) → UInt32 → Option (List (PlotLine Sample))
  | 0, _ => none
  | turns + 1, i =>
      if i.toNat < rb.size then do
        let idx ← wrap (rb.head + i.toNat) rb.size
        let value ← rb.data.read idx.toUInt32.toNat
        let rest ← plotSamples rb turns (i + 1)
        return .point i.toNat value :: rest
      else some []

/-- One channel. A loop that is not over after `size` turns has no end. -/
def plotChannel (rb : Option (Ringbuf Sample)) : Option (List (PlotLine Sample)) :=
  match rb with
  | none => some [.finish]
  | some rb => do
      let points ← plotSamples rb (rb.size + 1) 0
      return points ++ [.finish]

def plotTitle (labels : Option (Nat → String)) (count : UInt32) (ch : Nat) : List (PlotLine Sample) :=
  let label := match labels with
    | some labels => labels ch
    | none => "signal"
  .text ("'-' with lines title '" ++ label ++ "'") ::
    if ch ≠ (count - 1).toNat then [.text ", "] else []

def gnuplotterPlotRingbufN (gp : Option Gnuplotter) (rbs : Option (Nat → Option (Ringbuf Sample)))
    (labels : Option (Nat → String)) (count : UInt32) : Option (List (PlotLine Sample)) :=
  match gp, rbs with
  | some gp, some rbs =>
      if gp.pipe.isNone ∨ count = 0 then some []
      else do
        let titles := (List.range count.toNat).flatMap (plotTitle labels count)
        let channels ← (List.range count.toNat).mapM fun ch => plotChannel (rbs ch)
        return [.text "plot "] ++ titles ++ [.text "\n"] ++ channels.flatten
  | _, _ => some []

/-! What is drawn. -/

/-- The values before each end of inline data, one list a channel. -/
def sectionsFrom (drawn : List Sample) : List (PlotLine Sample) → List (List Sample)
  | [] => []
  | .text _ :: rest => sectionsFrom drawn rest
  | .point _ value :: rest => sectionsFrom (drawn ++ [value]) rest
  | .finish :: rest => drawn :: sectionsFrom [] rest

def sections (lines : List (PlotLine Sample)) : List (List Sample) := sectionsFrom [] lines

/-- Points for these values, numbered from `i` on. -/
def points (i : Nat) : List Sample → List (PlotLine Sample)
  | [] => []
  | value :: rest => .point i value :: points (i + 1) rest

theorem sectionsFrom_points (drawn values : List Sample) (i : Nat) (rest : List (PlotLine Sample)) :
    sectionsFrom drawn (points i values ++ rest) = sectionsFrom (drawn ++ values) rest := by
  induction values generalizing drawn i with
  | nil => rw [points, List.nil_append, List.append_nil]
  | cons value later ih =>
    rw [points, List.cons_append, sectionsFrom, ih, List.append_assoc]
    rfl

/-- A channel that draws these values. -/
theorem sections_channel (values : List Sample) (rest : List (PlotLine Sample)) :
    sections (points 0 values ++ [.finish] ++ rest) = values :: sections rest := by
  rw [sections, List.append_assoc, sectionsFrom_points, List.nil_append]
  rfl

theorem sections_single (values : List Sample) : sections (points 0 values ++ [.finish]) = [values] := by
  have channel := sections_channel values []
  rw [List.append_nil] at channel
  exact channel

theorem sections_channels (channels : List (List Sample)) :
    sections (channels.map fun values => points 0 values ++ [.finish]).flatten = channels := by
  induction channels with
  | nil => rfl
  | cons values rest ih => rw [List.map_cons, List.flatten_cons, sections_channel, ih]

/-- Text draws nothing. -/
theorem sections_text (texts : List (PlotLine Sample)) (only : ∀ line ∈ texts, ∃ chars, line = .text chars)
    (rest : List (PlotLine Sample)) : sections (texts ++ rest) = sections rest := by
  induction texts with
  | nil => rfl
  | cons line texts ih =>
    obtain ⟨chars, rfl⟩ := only line List.mem_cons_self
    exact ih fun line member => only line (List.mem_cons_of_mem _ member)

/-! The loops. -/

/-- A loop that writes these values from turn `i` on. -/
theorem mapM_points (turn : Nat → Option (PlotLine Sample)) (values : List Sample) (i : Nat)
    (each : ∀ j < values.length, turn (i + j) = values[j]?.map (.point (i + j))) :
    (List.range' i values.length).mapM turn = some (points i values) := by
  induction values generalizing i with
  | nil => rfl
  | cons value rest ih =>
    have first : turn i = some (.point i value) := each 0 (Nat.zero_lt_succ _)
    have later : ∀ j < rest.length, turn (i + 1 + j) = rest[j]?.map (.point (i + 1 + j)) := by
      intro j below
      rw [Nat.add_assoc, Nat.add_comm 1 j]
      exact each (j + 1) (Nat.succ_lt_succ below)
    rw [List.length_cons, List.range'_succ, List.mapM_cons, ih (i + 1) later, first]
    rfl

/-- The same for a loop that counts in 32 bits, if the size fits in. -/
theorem plotSamples_points {rb : Ringbuf Sample} (small : rb.size < 2 ^ 32) (values : List Sample)
    (i : Nat) (whole : i + values.length = rb.size)
    (holds : ∀ j < values.length, ∃ idx, wrap (rb.head + (i + j : Nat)) rb.size = some idx ∧
      rb.data.read idx.toUInt32.toNat = values[j]?) :
    plotSamples rb (values.length + 1) (UInt32.ofNat i) = some (points i values) := by
  have counter (j : Nat) (below : j ≤ rb.size) : (UInt32.ofNat j).toNat = j := by
    rw [UInt32.toNat_ofNat', Nat.mod_eq_of_lt (by omega)]
  induction values generalizing i with
  | nil =>
    rw [List.length_nil] at whole
    rw [List.length_nil, plotSamples, counter i (by omega), if_neg (by omega)]
    rfl
  | cons value rest ih =>
    rw [List.length_cons] at whole
    obtain ⟨idx, index, read⟩ := holds 0 (Nat.zero_lt_succ _)
    have later : ∀ j < rest.length, ∃ idx, wrap (rb.head + (i + 1 + j : Nat)) rb.size = some idx ∧
        rb.data.read idx.toUInt32.toNat = rest[j]? := by
      intro j below
      rw [Nat.add_assoc, Nat.add_comm 1 j]
      exact holds (j + 1) (Nat.succ_lt_succ below)
    have next : UInt32.ofNat i + 1 = UInt32.ofNat (i + 1) := (UInt32.ofNat_add i 1).symm
    rw [List.length_cons, plotSamples, counter i (by omega), if_pos (by omega), next,
      ih (i + 1) (by omega) later]
    simp only [Nat.add_zero] at index
    simp only [index, read, Option.bind_eq_bind, Option.bind_some]
    rfl

/-- A counter of 32 bits never passes such a size. -/
theorem plotSamples_endless {rb : Ringbuf Sample} (large : 2 ^ 32 ≤ rb.size) (turns : Nat) (i : UInt32) :
    plotSamples rb turns i = none := by
  induction turns generalizing i with
  | zero => rfl
  | succ turns ih =>
    have below : i.toNat < rb.size := i.toNat_lt.trans_le large
    rw [plotSamples, if_pos below, ih]
    cases wrap (rb.head + i.toNat) rb.size with
    | none => rfl
    | some idx =>
      cases rb.data.read idx.toUInt32.toNat <;> simp

/-! Which cells are read. -/

/-- The counters of a buffer that the loop over channels draws in order. -/
def Plottable (rb : Ringbuf Sample) : Prop :=
  rb.size < 2 ^ 32 ∧ (rb.size = 0 ∨ rb.size = rb.capacity ∨ rb.tail = 0)

section
variable {rb : Ringbuf Sample} {bound : Nat} {items : List Sample}

theorem Represents.cell (held : Represents rb bound items) {i : Nat} (below : i < items.length) :
    rb.data.read ((rb.tail + i) % rb.capacity) = items[i]? := by
  rw [held.capacity]
  exact held.contents i below

/-- A buffer that is full, or was never popped, has the same cell in both formulas. -/
theorem Represents.same_cell (held : Represents rb bound items) (plottable : Plottable rb) {i : Nat}
    (below : i < rb.size) : (rb.head + i) % rb.size = (rb.tail + i) % rb.capacity := by
  have head := held.head
  have within := held.within
  have tail := held.tail
  rw [← held.size] at head within
  rw [← held.capacity] at head within tail
  rcases plottable.2 with empty | full | untouched
  · omega
  · rw [full, Nat.add_mod_right, Nat.mod_eq_of_lt tail] at head
    rw [head, full]
  · rw [untouched, Nat.zero_add] at head ⊢
    rw [Nat.mod_eq_of_lt (show i < rb.capacity by omega)]
    by_cases full : rb.size = rb.capacity
    · rw [head, full, Nat.mod_self, Nat.zero_add, Nat.mod_eq_of_lt (by omega)]
    · rw [head, Nat.mod_eq_of_lt (show rb.size < rb.capacity by omega), Nat.add_mod_left,
        Nat.mod_eq_of_lt below]

/-- Otherwise some position is drawn from another cell. -/
theorem Represents.other_cell (held : Represents rb bound items)
    (uneven : ¬ (rb.size = 0 ∨ rb.size = rb.capacity ∨ rb.tail = 0)) :
    ∃ i < rb.size, (rb.head + i) % rb.size ≠ (rb.tail + i) % rb.capacity := by
  have within := held.within
  have tail := held.tail
  rw [← held.size, ← held.capacity] at within
  rw [← held.capacity] at tail
  have nonempty : 0 < rb.size := by omega
  -- the last cell before the end of the storage or of the samples lies behind the first `size` cells
  have behind (i : Nat) (inside : rb.tail + i < rb.capacity) (far : rb.size ≤ rb.tail + i) :
      (rb.head + i) % rb.size ≠ (rb.tail + i) % rb.capacity := by
    rw [Nat.mod_eq_of_lt inside]
    exact Nat.ne_of_lt ((Nat.mod_lt _ nonempty).trans_le far)
  by_cases wraps : rb.tail + (rb.size - 1) < rb.capacity
  · exact ⟨rb.size - 1, by omega, behind _ wraps (by omega)⟩
  · exact ⟨rb.capacity - 1 - rb.tail, by omega, behind _ (by omega) (by omega)⟩

theorem Represents.plotted (held : Represents rb bound items) {gp : Gnuplotter}
    (ready : gp.initialized = true ∧ gp.pipe.isSome) :
    ∃ lines, gnuplotterPlotRingbuf (some gp) (some rb) = some lines ∧ sections lines = [items] := by
  obtain ⟨initialized, opened⟩ := ready
  obtain ⟨pipe, piped⟩ := Option.isSome_iff_exists.mp opened
  have small := held.bound_lt
  have within := held.within
  have tail := held.tail
  have positive : 0 < rb.capacity := held.capacity ▸ held.positive
  have loop := mapM_points (fun i : Nat => do
      let idx ← wrap (rb.tail + i) rb.capacity
      let value ← rb.data.read idx
      return PlotLine.point i value) items 0 (by
    intro j below
    have index : wrap (rb.tail + j) rb.capacity = some ((rb.tail + j) % rb.capacity) :=
      wrap_ofNat (rb.tail + j) positive (by omega)
    rw [Nat.zero_add]
    simp only [index, Option.bind_eq_bind, Option.bind_some, held.cell below]
    cases items[j]? <;> rfl)
  rw [← List.range_eq_range', ← held.size] at loop
  simp only [gnuplotterPlotRingbuf, initialized, if_true, piped, Option.bind_eq_bind,
    Option.bind_some] at loop ⊢
  rw [loop]
  refine ⟨_, rfl, ?_⟩
  rw [List.append_assoc, sections_text]
  · exact sections_single items
  · intro line member
    simp only [List.mem_cons, List.not_mem_nil, or_false] at member
    rcases member with rfl | rfl
    · exact ⟨_, rfl⟩
    · exact ⟨_, rfl⟩

/-- The channel of a buffer that holds these values in the cells it is drawn from. -/
theorem Represents.channel_of (held : Represents rb bound items) (small : rb.size < 2 ^ 32)
    {values : List Sample} (count : values.length = rb.size)
    (cells : ∀ i < values.length, rb.data.read ((rb.head + i) % rb.size) = values[i]?) :
    plotChannel (some rb) = some (points 0 values ++ [.finish]) := by
  have bounded := held.bound_lt
  have head := held.head_lt
  have samples := plotSamples_points small values 0 (by rw [count, Nat.zero_add]) (by
    intro j below
    rw [Nat.zero_add]
    have turned : (rb.head + j) % rb.size < rb.size := Nat.mod_lt _ (by omega)
    refine ⟨(rb.head + j) % rb.size, wrap_ofNat (rb.head + j) (by omega) (by omega), ?_⟩
    have whole : ((rb.head + j) % rb.size).toUInt32.toNat = (rb.head + j) % rb.size := by
      rw [Nat.toUInt32, UInt32.toNat_ofNat', Nat.mod_eq_of_lt (by omega)]
    rw [whole]
    exact cells j below)
  rw [count] at samples
  simp only [plotChannel]
  rw [show (0 : UInt32) = UInt32.ofNat 0 from rfl, samples]
  rfl

theorem Represents.channel (held : Represents rb bound items) (plottable : Plottable rb) :
    plotChannel (some rb) = some (points 0 items ++ [.finish]) := by
  refine held.channel_of plottable.1 held.size.symm ?_
  intro i below
  rw [held.same_cell plottable (held.size ▸ below)]
  exact held.cell below

/-- A buffer whose size fits in 32 bits is drawn from cells inside its storage, if perhaps
not from those of the queue. -/
theorem Represents.channel_some (held : Represents rb bound items) (small : rb.size < 2 ^ 32) :
    ∃ values, plotChannel (some rb) = some (points 0 values ++ [.finish]) := by
  have within := held.within
  have inside := held.inside
  rw [← held.size] at within
  have cell (i : Fin rb.size) : (rb.head + i) % rb.size < rb.data.cells.length :=
    (Nat.mod_lt _ i.pos).trans_le (within.trans inside)
  refine ⟨List.ofFn fun i => rb.data.cells.get ⟨_, cell i⟩,
    held.channel_of small (List.length_ofFn) ?_⟩
  intro i below
  rw [List.length_ofFn] at below
  rw [Storage.read, List.getElem?_eq_getElem (cell ⟨i, below⟩), List.getElem?_ofFn, dif_pos below]
  rfl

end

/-! Calls over several channels. -/

/-- A buffer that a caller got from init by pushing and popping. -/
def Reached [Zero Sample] (capacity : Nat) (ops : List (QueueOp Sample)) (rb : Ringbuf Sample) : Prop :=
  ∃ (storage : Storage Sample) (initial : Ringbuf Sample) (out : Sample) (popped : List (Option Sample)),
    1 ≤ capacity ∧ capacity ≤ storage.cells.length ∧ ringbufInit storage capacity = some initial ∧
      runRingbuf initial out ops = some (popped, rb)

theorem Reached.represents [Zero Sample] {capacity : Nat} {ops : List (QueueOp Sample)}
    {rb : Ringbuf Sample} (reached : Reached capacity ops rb) :
    Represents rb capacity (runQueue capacity [] ops).2 := by
  obtain ⟨storage, initial, out, popped, positive, inside, initialised, ran⟩ := reached
  obtain ⟨initial', initialised', held⟩ := ringbufInit_represents storage positive inside
  cases initialised.symm.trans initialised'
  obtain ⟨final, ran', held⟩ := held.run out ops
  cases ran.symm.trans ran'
  exact held

theorem mapM_channels {channel : Nat → Option (List (PlotLine Sample))} {contents : Nat → List Sample}
    (list : List Nat) (each : ∀ ch ∈ list, channel ch = some (points 0 (contents ch) ++ [.finish])) :
    list.mapM channel = some (list.map fun ch => points 0 (contents ch) ++ [.finish]) := by
  induction list with
  | nil => rfl
  | cons ch rest ih =>
    rw [List.mapM_cons, each ch List.mem_cons_self,
      ih fun other member => each other (List.mem_cons_of_mem ch member)]
    rfl

/-- If every channel is drawn, the lines show them one after the other. -/
theorem plotted_channels {gp : Gnuplotter} (opened : gp.pipe.isSome) {rbs : Nat → Option (Ringbuf Sample)}
    {contents : Nat → List Sample} (labels : Option (Nat → String)) {count : UInt32} (nonzero : count ≠ 0)
    (each : ∀ ch < count.toNat, plotChannel (rbs ch) = some (points 0 (contents ch) ++ [.finish])) :
    ∃ lines, gnuplotterPlotRingbufN (some gp) (some rbs) labels count = some lines ∧
      sections lines = (List.range count.toNat).map contents := by
  have channels := mapM_channels (List.range count.toNat) fun ch member =>
    each ch (List.mem_range.mp member)
  have present : ¬ (gp.pipe.isNone ∨ count = 0) := by
    rw [not_or]
    exact ⟨by simp [Option.isNone_iff_eq_none, Option.isSome_iff_ne_none.mp opened], nonzero⟩
  simp only [gnuplotterPlotRingbufN, if_neg present, channels, Option.bind_eq_bind, Option.bind_some]
  refine ⟨_, rfl, ?_⟩
  have drawn := sections_channels ((List.range count.toNat).map contents)
  rw [List.map_map] at drawn
  rw [sections_text]
  · exact drawn
  · intro line member
    simp only [List.mem_append, List.mem_flatMap, plotTitle, List.mem_cons, List.not_mem_nil,
      or_false] at member
    rcases member with (rfl | ⟨ch, -, rfl | comma⟩) | rfl
    · exact ⟨_, rfl⟩
    · exact ⟨_, rfl⟩
    · split at comma
      · exact ⟨_, List.mem_singleton.mp comma⟩
      · cases comma
    · exact ⟨_, rfl⟩

/-- Plotting one buffer draws the queue, oldest sample first. Plotting several
draws the same for a buffer that is full, empty or has its tail at zero and
counts in 32 bits, beside any buffers of which the loop over them ends; other
buffers have a sample drawn from another cell, or the loop does not end. -/
theorem plots_alike_when [Zero Sample] (gp : Gnuplotter) (ready : gp.initialized = true ∧ gp.pipe.isSome)
    {capacity : Nat} {ops : List (QueueOp Sample)} {rb : Ringbuf Sample}
    (reached : Reached capacity ops rb) :
    (∃ lines, gnuplotterPlotRingbuf (some gp) (some rb) = some lines ∧
      sections lines = [(runQueue capacity [] ops).2]) ∧
    (Plottable rb → ∀ (rbs : Nat → Option (Ringbuf Sample)) (labels : Option (Nat → String))
      (count : UInt32), (∀ ch < count.toNat, ∀ other, rbs ch = some other →
        other.size < 2 ^ 32 ∧ ∃ capacity ops, Reached capacity ops other) →
      ∀ ch < count.toNat, rbs ch = some rb →
        ∃ lines, gnuplotterPlotRingbufN (some gp) (some rbs) labels count = some lines ∧
          (sections lines)[ch]? = some (runQueue capacity [] ops).2) ∧
    (¬ Plottable rb → plotChannel (some rb) = none ∨
      ∃ i < rb.size, (rb.head + i) % rb.size ≠ (rb.tail + i) % rb.capacity) := by
  have held := reached.represents
  refine ⟨held.plotted ready, ?_, ?_⟩
  · intro plottable rbs labels count others ch below channel
    -- what each channel holds
    have holds (ch : Nat) : ∃ contents, ch < count.toNat →
        plotChannel (rbs ch) = some (points 0 contents ++ [.finish]) := by
      by_cases inside : ch < count.toNat
      case neg => exact ⟨[], fun below => absurd below inside⟩
      cases present : rbs ch with
      | none => exact ⟨[], fun _ => rfl⟩
      | some other =>
        obtain ⟨small, bound, ops, reached⟩ := others ch inside other present
        obtain ⟨values, drawn⟩ := reached.represents.channel_some small
        exact ⟨values, fun _ => drawn⟩
    choose contents drawn using holds
    have nonzero : count ≠ 0 := by
      rintro rfl
      exact Nat.not_lt_zero ch below
    obtain ⟨lines, plotted, shows⟩ := plotted_channels ready.2 labels nonzero drawn
    have same := drawn ch below
    rw [channel, held.channel plottable, Option.some.injEq] at same
    have values := congrArg sections same
    rw [sections_single, sections_single, List.singleton_inj] at values
    refine ⟨lines, plotted, ?_⟩
    rw [shows, List.getElem?_map, List.getElem?_range below, Option.map_some, ← values]
  · intro unplottable
    by_cases small : rb.size < 2 ^ 32
    · right
      apply held.other_cell
      intro even
      exact unplottable ⟨small, even⟩
    · left
      rw [plotChannel, plotSamples_endless (Nat.le_of_not_lt small)]
      rfl

/-- A full buffer in the second channel, behind one that was popped. -/
theorem full_buffer_alike : ∃ (popped full : Ringbuf Nat) (lines : List (PlotLine Nat)),
    Reached 4 [.push 1, .push 2, .push 3, .pop] popped ∧ ¬ Plottable popped ∧
      Reached 2 [.push 1, .push 2, .push 3] full ∧
      gnuplotterPlotRingbufN (some ⟨some 0, true⟩) (some fun ch => some (if ch = 0 then popped else full))
        none 2 = some lines ∧
      (sections lines)[1]? = some [2, 3] := by
  have first : Reached 4 [.push 1, .push 2, .push 3, .pop]
      (⟨⟨[1, 2, 3, 0], by decide⟩, 4, 3, 1, 2⟩ : Ringbuf Nat) :=
    ⟨⟨[7, 7, 7, 7], by decide⟩, _, 0, _, by decide, by decide, rfl, rfl⟩
  have second : Reached 2 [.push 1, .push 2, .push 3]
      (⟨⟨[3, 2], by decide⟩, 2, 1, 1, 2⟩ : Ringbuf Nat) :=
    ⟨⟨[7, 7], by decide⟩, _, 0, _, by decide, by decide, rfl, rfl⟩
  have uneven : ¬ Plottable (⟨⟨[1, 2, 3, 0], by decide⟩, 4, 3, 1, 2⟩ : Ringbuf Nat) := by
    rintro ⟨-, empty | full | untouched⟩
    · cases empty
    · cases full
    · cases untouched
  have alike := plots_alike_when ⟨some 0, true⟩ ⟨rfl, rfl⟩ second
  obtain ⟨lines, plotted, shows⟩ := alike.2.1 ⟨by decide, Or.inr (Or.inl rfl)⟩
    (fun ch => some (if ch = 0 then _ else _)) none 2 (by
      rintro ch - other ⟨⟩
      split
      · exact ⟨by decide, 4, _, first⟩
      · exact ⟨by decide, 2, _, second⟩) 1 (by decide) rfl
  exact ⟨_, _, lines, first, uneven, second, plotted, shows⟩

/-- Three samples are pushed into four cells and the first is popped: the queue is
`2, 3`, and plotted as a channel it shows `2, 1`. -/
theorem popped_buffer_differs : ∃ (rb : Ringbuf Nat) (lines lines' : List (PlotLine Nat)),
    Reached 4 [.push 1, .push 2, .push 3, .pop] rb ∧
      (runQueue 4 [] [.push 1, .push 2, .push 3, .pop]).2 = [2, 3] ∧
      gnuplotterPlotRingbuf (some ⟨some 0, true⟩) (some rb) = some lines ∧ sections lines = [[2, 3]] ∧
      gnuplotterPlotRingbufN (some ⟨some 0, true⟩) (some fun _ => some rb) none 1 = some lines' ∧
      sections lines' = [[2, 1]] := by
  refine ⟨⟨⟨[1, 2, 3, 0], by decide⟩, 4, 3, 1, 2⟩, _, _, ?_, by decide, rfl, by decide, rfl, by decide⟩
  exact ⟨⟨[7, 7, 7, 7], by decide⟩, _, 0, _, by decide, by decide, rfl, rfl⟩

end Simuless.Runtime
