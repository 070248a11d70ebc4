import Simuless.Linalg.MatOps

/-! Hankel matrices of a signal.

A block of rows is the signal from some sample on, and a row is copied with one
call of `memcpy`. How much it copies is counted in 16 bits and corrected by one
entry at most, so that it may leave samples out or reach beyond an array.
-/

set_option autoImplicit false

namespace Simuless.Linalg

open Foundation

variable {Item : Type} [Zero Item]

/-- How many entries of a row would be copied without the correction. -/
def hankelLoad (columnV columnH : UInt16) (i : Nat) : UInt16 :=
  if columnH.toNat + i < columnV.toNat then columnV - columnH else columnH - .ofNat i

/-- Where the last channel would then end in the signal. -/
def hankelReach (rowV columnV columnH shift : UInt16) (i : Nat) : Nat :=
  (rowV.toNat - 1) * columnV.toNat + i + shift.toNat + (hankelLoad columnV columnH i).toNat

/-- How many entries of a row are copied. -/
def hankelDelta (rowV columnV columnH shift : UInt16) (i : Nat) : UInt16 :=
  let delta := hankelLoad columnV columnH i
  if rowV.toNat * columnV.toNat < hankelReach rowV columnV columnH shift i then delta - 1 else delta

/-- Both sides of the comparison behind the count are `int`s, and so are both offsets. -/
def hankelRow (V : Buffer Item) (rowV columnV columnH shift : UInt16) (i : Nat) (H : Buffer Item)
    (j : Nat) : Option (Buffer Item) := do
  let _ ← asInt (rowV.toNat * columnV.toNat)
  let _ ← asInt (hankelReach rowV columnV columnH shift i)
  let target ← asInt ((i * rowV.toNat + j) * columnH.toNat)
  let source ← asInt (j * columnV.toNat)
  H.copyAt target V (source + i + shift.toNat) (hankelDelta rowV columnV columnH shift i).toNat

def hankelBlock (V : Buffer Item) (rowV columnV columnH shift : UInt16) (H : Buffer Item) (i : Nat) :
    Option (Buffer Item) :=
  (upTo 0 rowV.toNat).foldlM (hankelRow V rowV columnV columnH shift i) H

/-- The return value and `H`; a remainder by zero has no value. -/
def smlsMatHankel (V H : Buffer Item) (rowV columnV rowH columnH shift : UInt16) :
    Option (Int × Buffer Item) := do
  guard (rowV ≠ 0)
  if rowH % rowV ≠ 0 then return (-einval, H)
  let H ← H.clearInt (rowH.toNat * columnH.toNat)
  let H ← (upTo 0 (rowH.toNat / rowV.toNat)).foldlM (hankelBlock V rowV columnV columnH shift) H
  return (0, H)

/-! How much is copied. -/

/-- What a block copies is there. -/
def BlockInside (columnV columnH shift i : Nat) : Prop :=
  columnH + i < columnV ∧ (i + shift ≤ columnH + 1 ∨ i = 0 ∧ columnV = columnH + 1) ∨
    columnV ≤ columnH + i ∧ i ≤ columnH ∧ (columnH + shift ≤ columnV ∨
      i < columnH ∧ (columnH + shift = columnV + 1 ∨ i + 1 = columnH))

instance (columnV columnH shift i : Nat) : Decidable (BlockInside columnV columnH shift i) :=
  inferInstanceAs (Decidable (_ ∨ _))

/-- What the last row copies fits into it. -/
def LastInside (columnV columnH shift last : Nat) : Prop := columnH + last < columnV →
  columnV ≤ 2 * columnH ∨ columnV = 2 * columnH + 1 ∧ columnH < last + shift

instance (columnV columnH shift last : Nat) : Decidable (LastInside columnV columnH shift last) :=
  inferInstanceAs (Decidable (_ → _))

/-- A block copies nothing into this column. -/
def LeftOut (columnV columnH i c : Nat) : Prop :=
  if columnH + i < columnV then columnV ≤ columnH + c else columnH ≤ c + i

instance (columnV columnH i c : Nat) : Decidable (LeftOut columnV columnH i c) :=
  inferInstanceAs (Decidable (if columnH + i < columnV then columnV ≤ columnH + c else columnH ≤ c + i))

section
variable {rowV columnV columnH shift : UInt16} {i : Nat}

/-- The count before the correction. -/
theorem hankelLoad_toNat (octets : i < 65536) : (hankelLoad columnV columnH i).toNat =
    if columnH.toNat + i < columnV.toNat then columnV.toNat - columnH.toNat
    else if i ≤ columnH.toNat then columnH.toNat - i else 65536 + columnH.toNat - i := by
  have rangeV := columnV.toNat_lt
  have rangeH := columnH.toNat_lt
  rw [hankelLoad]
  split
  · rw [UInt16.toNat_sub]
    omega
  · rw [UInt16.toNat_sub, UInt16.toNat_ofNat']
    split <;> omega

/-- The count behind the correction. -/
theorem hankelDelta_toNat (channels : rowV ≠ 0) (octets : i < 65536) :
    (hankelDelta rowV columnV columnH shift i).toNat =
      let count := if columnH.toNat + i < columnV.toNat then columnV.toNat - columnH.toNat
        else if i ≤ columnH.toNat then columnH.toNat - i else 65536 + columnH.toNat - i
      if i + shift.toNat + count ≤ columnV.toNat then count
      else if count = 0 then 65535 else count - 1 := by
  have lowered (delta : UInt16) :
      (delta - 1).toNat = if delta.toNat = 0 then 65535 else delta.toNat - 1 := by
    have range := delta.toNat_lt
    have one : (1 : UInt16).toNat = 1 := rfl
    rw [UInt16.toNat_sub, one]
    split <;> omega
  have check (delta : Nat) : rowV.toNat * columnV.toNat <
      (rowV.toNat - 1) * columnV.toNat + i + shift.toNat + delta ↔
        ¬ i + shift.toNat + delta ≤ columnV.toNat := by
    obtain ⟨rest, count⟩ := Nat.exists_eq_succ_of_ne_zero fun zero => channels (UInt16.toNat_inj.mp zero)
    rw [count, Nat.succ_sub_one, Nat.succ_mul]
    omega
  simp only [hankelDelta, hankelReach, check, hankelLoad_toNat octets, ite_not, apply_ite UInt16.toNat,
    lowered]

/-- The copied samples are there in the blocks that say so. -/
theorem hankelDelta_inside (channels : rowV ≠ 0) (columns : columnH ≠ 0) (octets : i < 65536) :
    (hankelDelta rowV columnV columnH shift i).toNat = 0 ∨
      i + shift.toNat + (hankelDelta rowV columnV columnH shift i).toNat ≤ columnV.toNat ↔
        BlockInside columnV.toNat columnH.toNat shift.toNat i := by
  have rangeV := columnV.toNat_lt
  have rangeH := columnH.toNat_lt
  have rangeS := shift.toNat_lt
  have positive : columnH.toNat ≠ 0 := fun zero => columns (UInt16.toNat_inj.mp zero)
  rw [hankelDelta_toNat channels octets, BlockInside]
  dsimp only
  split
  · split
    · omega
    · split <;> omega
  · split
    · split
      · omega
      · split <;> omega
    · split
      · omega
      · split <;> omega

/-- Where that holds, the correction says whether the last sample is missing. -/
theorem hankelDelta_of_inside (channels : rowV ≠ 0) (columns : columnH ≠ 0) (octets : i < 65536)
    (inside : BlockInside columnV.toNat columnH.toNat shift.toNat i) :
    (hankelDelta rowV columnV columnH shift i).toNat =
      if columnH.toNat + i < columnV.toNat then
        if columnH.toNat < i + shift.toNat then columnV.toNat - columnH.toNat - 1
        else columnV.toNat - columnH.toNat
      else if columnV.toNat < columnH.toNat + shift.toNat then columnH.toNat - i - 1
      else columnH.toNat - i := by
  have positive : columnH.toNat ≠ 0 := fun zero => columns (UInt16.toNat_inj.mp zero)
  rw [hankelDelta_toNat channels octets]
  rw [BlockInside] at inside
  by_cases wide : columnH.toNat + i < columnV.toNat
  · simp only [if_pos wide]
    split_ifs <;> omega
  · have within : i ≤ columnH.toNat := by omega
    simp only [if_neg wide, if_pos within]
    split_ifs <;> omega

end

/-! Copying strips of a signal. -/

section
variable {V : Buffer Item} {rowV columnV blocks columnH shift : Nat} {count : Nat → Nat} {i j : Nat}

/-- A row of a block, with so many entries for each block. -/
def copyRow (V : Buffer Item) (rowV columnV columnH shift : Nat) (count : Nat → Nat) (i : Nat)
    (H : Buffer Item) (j : Nat) : Option (Buffer Item) :=
  H.copyAt ((i * rowV + j) * columnH) V (j * columnV + i + shift) (count i)

/-- What is copied is there. A row spills over by one entry at most, which the next row
copies over, and the last row does not. -/
structure Strips (columnV blocks columnH shift : Nat) (count : Nat → Nat) : Prop where
  inside : ∀ i < blocks, count i = 0 ∨ i + shift + count i ≤ columnV
  spill : ∀ i < blocks, count i ≤ columnH + 1
  spilled : ∀ i < blocks, count i = columnH + 1 → 2 * columnH < columnV
  full : 2 * columnH < columnV → ∀ i < blocks, count i ≠ 0
  last : ∀ i, i + 1 = blocks → count i ≤ columnH

/-- The rows before this one are in place, and those behind it are clear but for a spilled
entry. -/
structure StripsTo (V : Buffer Item) (rowV columnV blocks columnH shift : Nat) (count : Nat → Nat)
    (i j : Nat) (H : Buffer Item) : Prop where
  size : H.size = blocks * rowV * columnH
  rows : ∀ t, ∀ s < rowV, t < i ∨ t = i ∧ s < j → ∀ c < columnH, H.entry columnH (t * rowV + s) c =
    if c < count t then V.entry columnV s (c + t + shift) else 0
  rest : ∀ r, i * rowV + j ≤ r → r < blocks * rowV → ∀ c < columnH,
    (r = i * rowV + j → c = 0 → columnV ≤ 2 * columnH) → H.entry columnH r c = 0

omit [Zero Item] in
/-- Which entries a copy of a row covers. -/
theorem covered_iff {row r c length : Nat} (inColumn : c < columnH) (short : length ≤ columnH + 1) :
    row * columnH ≤ columnH * r + c ∧ columnH * r + c < row * columnH + length ↔
      r = row ∧ c < length ∨ r = row + 1 ∧ c = 0 ∧ length = columnH + 1 := by
  rw [Nat.mul_comm row columnH]
  rcases Nat.lt_trichotomy r row with before | rfl | behind
  · obtain ⟨gap, rfl⟩ := Nat.exists_eq_add_of_lt before
    have wider : columnH * (r + gap + 1) = columnH * r + columnH * gap + columnH := by ring
    omega
  · omega
  · obtain ⟨gap, rfl⟩ := Nat.exists_eq_add_of_lt behind
    have wider : columnH * (row + gap + 1) = columnH * row + columnH * gap + columnH := by ring
    rcases Nat.eq_zero_or_pos gap with rfl | positive
    · omega
    · have more : columnH ≤ columnH * gap := Nat.le_mul_of_pos_right columnH positive
      omega

omit [Zero Item] in
/-- Where the counts are right, a row is copied inside both arrays. -/
theorem Strips.room {H : Buffer Item} (strips : Strips columnV blocks columnH shift count)
    (sizeV : V.size = rowV * columnV) (sizeH : H.size = blocks * rowV * columnH) (columns : 0 < columnH)
    (inBlock : i < blocks) (inRow : j < rowV) : count i = 0 ∨
      (i * rowV + j) * columnH + count i ≤ H.size ∧ j * columnV + i + shift + count i ≤ V.size := by
  refine (strips.inside i inBlock).imp_right fun there => ⟨?_, ?_⟩
  · have short := strips.spill i inBlock
    have before : i * rowV + j + 1 ≤ blocks * rowV := by
      rw [Nat.mul_comm i]
      exact flat_lt_product inBlock inRow
    rw [sizeH]
    by_cases last : i * rowV + j + 1 = blocks * rowV
    · have final : i + 1 = blocks := by
        by_contra other
        have more : i + 2 ≤ blocks := by omega
        have rows := Nat.mul_le_mul_right rowV more
        rw [Nat.add_mul] at rows
        omega
      have fits := strips.last i final
      rw [← last, Nat.succ_mul]
      omega
    · have further : (i * rowV + j + 2) * columnH ≤ blocks * rowV * columnH :=
        Nat.mul_le_mul_right columnH (by omega)
      rw [Nat.add_mul] at further
      omega
  · have row : (j + 1) * columnV ≤ rowV * columnV := Nat.mul_le_mul_right columnV inRow
    rw [Nat.succ_mul] at row
    omega

theorem StripsTo.next {H : Buffer Item}
    (part : StripsTo V rowV columnV blocks columnH shift count i j H)
    (strips : Strips columnV blocks columnH shift count) (sizeV : V.size = rowV * columnV)
    (columns : 0 < columnH) (inBlock : i < blocks) (inRow : j < rowV) :
    Returns (copyRow V rowV columnV columnH shift count i H j)
      (StripsTo V rowV columnV blocks columnH shift count i (j + 1)) := by
  have short := strips.spill i inBlock
  have room := strips.room sizeV part.size columns inBlock inRow
  let copied : Buffer Item :=
    H.paste ((i * rowV + j) * columnH) V (j * columnV + i + shift) (count i)
  have entry (r c : Nat) (inColumn : c < columnH) : copied.entry columnH r c =
      if r = i * rowV + j ∧ c < count i ∨ r = i * rowV + j + 1 ∧ c = 0 ∧ count i = columnH + 1 then
        V.cells (j * columnV + i + shift + (columnH * r + c - (i * rowV + j) * columnH))
      else H.entry columnH r c := if_congr (covered_iff inColumn short) rfl rfl
  refine ⟨copied, if_pos room, part.size, fun t s inRow' order c inColumn => ?_,
    fun r behind below c inColumn spared => ?_⟩
  · rw [entry _ _ inColumn]
    by_cases here : t = i ∧ s = j
    · obtain ⟨rfl, rfl⟩ := here
      by_cases loaded : c < count t
      · have index : s * columnV + t + shift + (columnH * (t * rowV + s) + c - (t * rowV + s) * columnH) =
            columnV * s + (c + t + shift) := by
          rw [Nat.mul_comm columnH, Nat.mul_comm columnV]
          omega
        rw [if_pos (Or.inl ⟨rfl, loaded⟩), if_pos loaded, index]
        rfl
      · rw [if_neg (by omega), if_neg loaded]
        apply part.rest _ (Nat.le_refl _) _ c inColumn
        · intro _ first
          by_contra longer
          exact strips.full (Nat.lt_of_not_le longer) t inBlock (by omega)
        · rw [Nat.mul_comm t]
          exact flat_lt_product inBlock inRow
    · have earlier : t < i ∨ t = i ∧ s < j := by omega
      have before : t * rowV + s < i * rowV + j := by
        rcases earlier with above | ⟨rfl, left⟩
        · have rows : (t + 1) * rowV ≤ i * rowV := Nat.mul_le_mul_right rowV above
          rw [Nat.succ_mul] at rows
          omega
        · exact Nat.add_lt_add_left left _
      rw [if_neg (by omega)]
      exact part.rows t s inRow' earlier c inColumn
  · have uncovered : ¬ (r = i * rowV + j ∧ c < count i ∨
        r = i * rowV + j + 1 ∧ c = 0 ∧ count i = columnH + 1) := by
      rintro (⟨rfl, -⟩ | ⟨rfl, first, spill⟩)
      · omega
      · have narrow := spared rfl first
        have wide := strips.spilled i inBlock spill
        omega
    rw [entry _ _ inColumn, if_neg uncovered]
    exact part.rest r (by omega) below c inColumn fun same => by omega

/-- All rows of all blocks. -/
theorem strips_loop {H : Buffer Item} (strips : Strips columnV blocks columnH shift count)
    (sizeV : V.size = rowV * columnV) (sizeH : H.size = blocks * rowV * columnH) (columns : 0 < columnH)
    (cleared : ∀ r < blocks * rowV, ∀ c < columnH, H.entry columnH r c = 0) :
    Returns ((upTo 0 blocks).foldlM (fun H i =>
      (upTo 0 rowV).foldlM (copyRow V rowV columnV columnH shift count i) H) H) fun H' =>
        ∀ i < blocks, ∀ j < rowV, ∀ c < columnH, H'.entry columnH (i * rowV + j) c =
          if c < count i then V.entry columnV j (c + i + shift) else 0 := by
  have start : StripsTo V rowV columnV blocks columnH shift count 0 0 H :=
    ⟨sizeH, fun t s _ order => by omega, fun r _ below c inColumn _ => cleared r below c inColumn⟩
  refine (Returns.loop (fun i => StripsTo V rowV columnV blocks columnH shift count i 0)
    (Nat.zero_le blocks) start ?_).weaken fun H' part i inBlock j inRow c inColumn =>
      part.rows i j inRow (Or.inl inBlock) c inColumn
  intro i H _ inBlock part
  refine (Returns.loop (fun j => StripsTo V rowV columnV blocks columnH shift count i j)
    (Nat.zero_le rowV) part fun j H _ inRow part =>
      part.next strips sizeV columns inBlock inRow).weaken fun H part => ?_
  refine ⟨part.size, fun t s inRow order => part.rows t s inRow (by omega), ?_⟩
  intro r behind below c inColumn spared
  rw [Nat.succ_mul] at behind spared
  exact part.rest r behind below c inColumn spared

omit [Zero Item] in
/-- If all rows are copied, they are copied inside both arrays. -/
theorem strips_inside {H result : Buffer Item} (sizeH : H.size = blocks * rowV * columnH)
    (ran : (upTo 0 blocks).foldlM (fun H i =>
      (upTo 0 rowV).foldlM (copyRow V rowV columnV columnH shift count i) H) H = some result)
    (inBlock : i < blocks) (inRow : j < rowV) : count i = 0 ∨
      (i * rowV + j) * columnH + count i ≤ blocks * rowV * columnH ∧
        j * columnV + i + shift + count i ≤ V.size := by
  let sized (H : Buffer Item) : Prop := H.size = blocks * rowV * columnH
  have kept (i j : Nat) (H next : Buffer Item) (size : sized H)
      (copied : copyRow V rowV columnV columnH shift count i H j = some next) : sized next := by
    rw [copyRow, Buffer.copyAt] at copied
    split at copied
    · obtain rfl := Option.some.inj copied
      exact size
    · cases copied
  obtain ⟨-, turns⟩ := Returns.loop_turns sized (Nat.zero_le blocks) sizeH
    (fun i H next size block => (Returns.loop_turns sized (Nat.zero_le rowV) size (kept i) block).1) ran
  obtain ⟨H, next, size, block⟩ := turns i (Nat.zero_le i) inBlock
  obtain ⟨-, turns⟩ := Returns.loop_turns sized (Nat.zero_le rowV) size (kept i) block
  obtain ⟨H, next, size, copied⟩ := turns j (Nat.zero_le j) inRow
  change H.size = blocks * rowV * columnH at size
  rw [copyRow, Buffer.copyAt, size] at copied
  by_contra outside
  rw [if_neg outside] at copied
  cases copied

end

/-! The whole call. -/

/-- Every block copies samples that are there, the last row fits into the matrix, and the
samples that are left out are zero. -/
structure HankelFits (V : Buffer Item) (rowV columnV blocks columnH shift : Nat) : Prop where
  inside : ∀ i < blocks, BlockInside columnV columnH shift i
  last : ∀ i, i + 1 = blocks → LastInside columnV columnH shift i
  zero : ∀ i < blocks, ∀ j < rowV, ∀ c < columnH, LeftOut columnV columnH i c →
    c + i + shift < columnV → V.entry columnV j (c + i + shift) = 0

/-- The sizes of both arrays and the reach of every block are `int`s. -/
structure HankelInts (rowV columnV rowH columnH shift : Nat) : Prop where
  target : rowH * columnH ≤ intMax
  source : ∀ i < rowH / rowV, rowV * columnV ≤ intMax
  reach : ∀ i < rowH / rowV, (rowV - 1) * columnV + i + shift +
    (if columnH + i < columnV then columnV - columnH else columnH - i) ≤ intMax

/-- A call succeeds inside both arrays, and every row of a block is the signal from a sample on. -/
def HankelBuilt (V H : Buffer Item) (rowV columnV rowH columnH shift : UInt16) : Prop :=
  ∃ H', smlsMatHankel V H rowV columnV rowH columnH shift = some (0, H') ∧
    ∀ i < rowH.toNat / rowV.toNat, ∀ j < rowV.toNat, ∀ c < columnH.toNat,
      H'.entry columnH.toNat (i * rowV.toNat + j) c =
        if c + i + shift.toNat < columnV.toNat then V.entry columnV.toNat j (c + i + shift.toNat) else 0

section
variable {V H : Buffer Item} {rowV columnV rowH columnH shift : UInt16} {blocks i : Nat}

/-- The counts are right if the blocks and the last row are. -/
theorem hankelDelta_strips (channels : rowV ≠ 0) (columns : columnH ≠ 0) (few : blocks < 65536)
    (inside : ∀ i < blocks, BlockInside columnV.toNat columnH.toNat shift.toNat i)
    (last : ∀ i, i + 1 = blocks → LastInside columnV.toNat columnH.toNat shift.toNat i) :
    Strips columnV.toNat blocks columnH.toNat shift.toNat
      fun i => (hankelDelta rowV columnV columnH shift i).toNat := by
  have positive : columnH.toNat ≠ 0 := fun zero => columns (UInt16.toNat_inj.mp zero)
  have counted (i : Nat) (inBlock : i < blocks) :=
    hankelDelta_of_inside channels columns (inBlock.trans few) (inside i inBlock)
  have narrow (i : Nat) (inBlock : i < blocks) : columnV.toNat ≤ 2 * columnH.toNat + 1 := by
    obtain ⟨final, rfl⟩ : ∃ final, blocks = final + 1 := ⟨blocks - 1, by omega⟩
    have there := inside final (Nat.lt_succ_self final)
    have fits := last final rfl
    rw [BlockInside] at there
    rw [LastInside] at fits
    omega
  refine ⟨fun i inBlock => ?_, fun i inBlock => ?_, fun i inBlock => ?_, fun wide i inBlock => ?_,
    fun i final => ?_⟩
  · exact (hankelDelta_inside channels columns (inBlock.trans few)).mpr (inside i inBlock)
  · have bound := narrow i inBlock
    simp only [counted i inBlock]
    split_ifs <;> omega
  · have bound := narrow i inBlock
    simp only [counted i inBlock]
    split_ifs <;> omega
  · have bound := narrow i inBlock
    have there := inside i inBlock
    rw [BlockInside] at there
    simp only [counted i inBlock]
    split_ifs <;> omega
  · have inBlock : i < blocks := by omega
    have fits := last i final
    rw [LastInside] at fits
    simp only [counted i inBlock]
    split_ifs <;> omega

/-- Of the samples that are there, those in the columns behind the count are left out. -/
theorem leftOut_iff (channels : rowV ≠ 0) (columns : columnH ≠ 0) (few : i < 65536)
    (inside : BlockInside columnV.toNat columnH.toNat shift.toNat i) {c : Nat}
    (there : c + i + shift.toNat < columnV.toNat) :
    (hankelDelta rowV columnV columnH shift i).toNat ≤ c ↔
      LeftOut columnV.toNat columnH.toNat i c := by
  rw [hankelDelta_of_inside channels columns few inside, LeftOut]
  rw [BlockInside] at inside
  split_ifs <;> omega

/-- What a call computes is in range. -/
structure HankelComputes (rowV columnV rowH columnH shift : UInt16) : Prop where
  target : rowH.toNat * columnH.toNat ≤ intMax
  source : ∀ i < rowH.toNat / rowV.toNat, rowV.toNat * columnV.toNat ≤ intMax
  reach : ∀ i < rowH.toNat / rowV.toNat, hankelReach rowV columnV columnH shift i ≤ intMax

/-- Where the copied samples are there, the reach of a block is not wrapped around. -/
theorem hankelReach_inside (few : i < 65536)
    (inside : BlockInside columnV.toNat columnH.toNat shift.toNat i) :
    hankelReach rowV columnV columnH shift i = (rowV.toNat - 1) * columnV.toNat + i + shift.toNat +
      (if columnH.toNat + i < columnV.toNat then columnV.toNat - columnH.toNat else columnH.toNat - i) := by
  rw [hankelReach, hankelLoad_toNat few]
  rw [BlockInside] at inside
  congr 1
  split_ifs <;> omega

theorem hankelComputes_iff (inside : ∀ i < rowH.toNat / rowV.toNat,
      BlockInside columnV.toNat columnH.toNat shift.toNat i) :
    HankelComputes rowV columnV rowH columnH shift ↔
      HankelInts rowV.toNat columnV.toNat rowH.toNat columnH.toNat shift.toNat := by
  have few : rowH.toNat / rowV.toNat < 65536 := (Nat.div_le_self _ _).trans_lt rowH.toNat_lt
  have same (i : Nat) (inBlock : i < rowH.toNat / rowV.toNat) :
      hankelReach rowV columnV columnH shift i = (rowV.toNat - 1) * columnV.toNat + i + shift.toNat +
        if columnH.toNat + i < columnV.toNat then columnV.toNat - columnH.toNat else columnH.toNat - i :=
    hankelReach_inside (inBlock.trans few) (inside i inBlock)
  constructor
  · rintro ⟨target, source, reach⟩
    exact ⟨target, source, fun i inBlock => same i inBlock ▸ reach i inBlock⟩
  · rintro ⟨target, source, reach⟩
    exact ⟨target, source, fun i inBlock => (same i inBlock).symm ▸ reach i inBlock⟩

omit [Zero Item] in
/-- A row is copied where what it computes is in range. -/
theorem hankelRow_copies {j : Nat} (source : rowV.toNat * columnV.toNat ≤ intMax)
    (reach : hankelReach rowV columnV columnH shift i ≤ intMax)
    (target : (i * rowV.toNat + j) * columnH.toNat ≤ intMax) (inRow : j < rowV.toNat) :
    hankelRow V rowV columnV columnH shift i H j =
      copyRow V rowV.toNat columnV.toNat columnH.toNat shift.toNat
        (fun i => (hankelDelta rowV columnV columnH shift i).toNat) i H j := by
  have before : j * columnV.toNat ≤ intMax := (Nat.mul_le_mul_right columnV.toNat inRow.le).trans source
  simp only [hankelRow, asInt_small source, asInt_small reach, asInt_small target, asInt_small before,
    Option.bind_eq_bind, Option.bind_some]
  rfl

omit [Zero Item] in
theorem hankelRow_ran {j : Nat} {H' : Buffer Item}
    (ran : hankelRow V rowV columnV columnH shift i H j = some H') :
    rowV.toNat * columnV.toNat ≤ intMax ∧ hankelReach rowV columnV columnH shift i ≤ intMax := by
  obtain ⟨_, source, rest⟩ := Option.bind_eq_some_iff.mp ran
  obtain ⟨_, reach, _⟩ := Option.bind_eq_some_iff.mp rest
  exact ⟨asInt_ran source, asInt_ran reach⟩

section
variable (channels : rowV ≠ 0) (columns : columnH ≠ 0) (multiple : rowH % rowV = 0)
  (sizeV : V.size = rowV.toNat * columnV.toNat) (sizeH : H.size = rowH.toNat * columnH.toNat)
include channels multiple sizeH

variable (V columnV shift) in
/-- A call with matching sizes clears the matrix and copies strips into it. -/
theorem smlsMatHankel_program (computes : HankelComputes rowV columnV rowH columnH shift) :
    ∃ zeros : Buffer Item,
    zeros.size = rowH.toNat / rowV.toNat * rowV.toNat * columnH.toNat ∧
    (∀ r < rowH.toNat / rowV.toNat * rowV.toNat, ∀ c < columnH.toNat, zeros.entry columnH.toNat r c = 0) ∧
    smlsMatHankel V H rowV columnV rowH columnH shift =
      ((upTo 0 (rowH.toNat / rowV.toNat)).foldlM (fun H i => (upTo 0 rowV.toNat).foldlM
        (copyRow V rowV.toNat columnV.toNat columnH.toNat shift.toNat
          (fun i => (hankelDelta rowV columnV columnH shift i).toNat) i) H) zeros).map fun H => (0, H) := by
  have rows : rowH.toNat / rowV.toNat * rowV.toNat = rowH.toNat := by
    have divides := congrArg UInt16.toNat multiple
    rw [UInt16.toNat_mod] at divides
    exact Nat.div_mul_cancel (Nat.dvd_of_mod_eq_zero divides)
  let zeros : Buffer Item :=
    ⟨H.size, fun k => if k < rowH.toNat * columnH.toNat then 0 else H.cells k⟩
  have clear : H.clearInt (rowH.toNat * columnH.toNat) = some zeros := by
    rw [Buffer.clearInt_small _ computes.target]
    exact if_pos sizeH.ge
  have loop : (upTo 0 (rowH.toNat / rowV.toNat)).foldlM (hankelBlock V rowV columnV columnH shift) zeros =
      (upTo 0 (rowH.toNat / rowV.toNat)).foldlM (fun H i => (upTo 0 rowV.toNat).foldlM
        (copyRow V rowV.toNat columnV.toNat columnH.toNat shift.toNat
          (fun i => (hankelDelta rowV columnV columnH shift i).toNat) i) H) zeros := by
    refine Returns.loop_congr (Nat.zero_le _) (fun i _ inBlock H => ?_) zeros
    refine Returns.loop_congr (Nat.zero_le _) (fun j _ inRow H => ?_) H
    have before : i * rowV.toNat + j ≤ rowH.toNat := by
      rw [← rows, Nat.mul_comm i]
      exact (flat_lt_product inBlock inRow).le
    exact hankelRow_copies (computes.source i inBlock) (computes.reach i inBlock)
      ((Nat.mul_le_mul_right columnH.toNat before).trans computes.target) inRow
  refine ⟨zeros, ?_, fun r below c inColumn => if_pos (flat_lt_product (rows ▸ below) inColumn), ?_⟩
  · rw [rows]
    exact sizeH
  · rw [smlsMatHankel, guard, if_pos channels, if_neg (not_not.mpr multiple), clear, ← loop]
    exact Option.map_eq_bind.symm

omit sizeH in
/-- A call with matching sizes has computed them and the reach of every block. -/
theorem smlsMatHankel_ran {result : Int × Buffer Item}
    (called : smlsMatHankel V H rowV columnV rowH columnH shift = some result) :
    HankelComputes rowV columnV rowH columnH shift := by
  have positive : 0 < rowV.toNat :=
    Nat.pos_of_ne_zero fun zero => channels (UInt16.toNat_inj.mp zero)
  rw [smlsMatHankel, guard, if_pos channels, if_neg (not_not.mpr multiple)] at called
  obtain ⟨_, -, called⟩ := Option.bind_eq_some_iff.mp called
  obtain ⟨zeros, cleared, called⟩ := Option.bind_eq_some_iff.mp called
  obtain ⟨_, ran, -⟩ := Option.bind_eq_some_iff.mp called
  obtain ⟨_, target, -⟩ := Option.bind_eq_some_iff.mp cleared
  let kept (_ : Buffer Item) : Prop := True
  obtain ⟨-, blocks⟩ := Returns.loop_turns kept (Nat.zero_le _) trivial (fun _ _ _ _ _ => trivial) ran
  have computed (i : Nat) (inBlock : i < rowH.toNat / rowV.toNat) :
      rowV.toNat * columnV.toNat ≤ intMax ∧ hankelReach rowV columnV columnH shift i ≤ intMax := by
    obtain ⟨_, _, -, block⟩ := blocks i (Nat.zero_le i) inBlock
    obtain ⟨-, rows⟩ := Returns.loop_turns kept (Nat.zero_le _) trivial (fun _ _ _ _ _ => trivial) block
    obtain ⟨_, _, -, row⟩ := rows 0 le_rfl positive
    exact hankelRow_ran row
  exact ⟨asInt_ran target, fun i inBlock => (computed i inBlock).1,
    fun i inBlock => (computed i inBlock).2⟩

include columns sizeV

/-- A call puts strips of the signal into place where they fit. -/
theorem smlsMatHankel_copies (computes : HankelComputes rowV columnV rowH columnH shift)
    (inside : ∀ i < rowH.toNat / rowV.toNat, BlockInside columnV.toNat columnH.toNat shift.toNat i)
    (last : ∀ i, i + 1 = rowH.toNat / rowV.toNat →
      LastInside columnV.toNat columnH.toNat shift.toNat i) :
    Returns (smlsMatHankel V H rowV columnV rowH columnH shift) fun result => result.1 = 0 ∧
      ∀ i < rowH.toNat / rowV.toNat, ∀ j < rowV.toNat, ∀ c < columnH.toNat,
        result.2.entry columnH.toNat (i * rowV.toNat + j) c =
          if c < (hankelDelta rowV columnV columnH shift i).toNat then
            V.entry columnV.toNat j (c + i + shift.toNat)
          else 0 := by
  have few : rowH.toNat / rowV.toNat < 65536 := (Nat.div_le_self _ _).trans_lt rowH.toNat_lt
  have positive : 0 < columnH.toNat :=
    Nat.pos_of_ne_zero fun zero => columns (UInt16.toNat_inj.mp zero)
  obtain ⟨zeros, sizeZeros, cleared, program⟩ :=
    smlsMatHankel_program V columnV shift channels multiple sizeH computes
  obtain ⟨result, ran, values⟩ := strips_loop (hankelDelta_strips channels columns few inside last)
    sizeV sizeZeros positive cleared
  have called : smlsMatHankel V H rowV columnV rowH columnH shift = some (0, result) := by
    rw [program, ran]
    rfl
  exact ⟨(0, result), called, rfl, values⟩

/-- Whatever a call copies is there and fits. -/
theorem smlsMatHankel_inside {H' : Buffer Item}
    (called : smlsMatHankel V H rowV columnV rowH columnH shift = some (0, H')) :
    HankelComputes rowV columnV rowH columnH shift ∧
    (∀ i < rowH.toNat / rowV.toNat, BlockInside columnV.toNat columnH.toNat shift.toNat i) ∧
      ∀ i, i + 1 = rowH.toNat / rowV.toNat → LastInside columnV.toNat columnH.toNat shift.toNat i := by
  have few : rowH.toNat / rowV.toNat < 65536 := (Nat.div_le_self _ _).trans_lt rowH.toNat_lt
  have positive : 0 < rowV.toNat :=
    Nat.pos_of_ne_zero fun zero => channels (UInt16.toNat_inj.mp zero)
  have computes := smlsMatHankel_ran channels multiple called
  obtain ⟨zeros, sizeZeros, -, program⟩ :=
    smlsMatHankel_program V columnV shift channels multiple sizeH computes
  rw [program] at called
  obtain ⟨result, ran, -⟩ := Option.map_eq_some_iff.mp called
  -- the last channel reaches furthest, in the signal and in the matrix
  have copied (i : Nat) (inBlock : i < rowH.toNat / rowV.toNat) :
      (hankelDelta rowV columnV columnH shift i).toNat = 0 ∨
        (i * rowV.toNat + (rowV.toNat - 1)) * columnH.toNat +
            (hankelDelta rowV columnV columnH shift i).toNat ≤
          rowH.toNat / rowV.toNat * rowV.toNat * columnH.toNat ∧
        (rowV.toNat - 1) * columnV.toNat + i + shift.toNat +
          (hankelDelta rowV columnV columnH shift i).toNat ≤ V.size :=
    strips_inside sizeZeros ran inBlock (Nat.sub_lt positive Nat.one_pos)
  have inside (i : Nat) (inBlock : i < rowH.toNat / rowV.toNat) :
      BlockInside columnV.toNat columnH.toNat shift.toNat i := by
    apply (hankelDelta_inside channels columns (inBlock.trans few)).mp
    refine (copied i inBlock).imp_right fun room => ?_
    have source := room.2
    rw [sizeV, Nat.sub_mul, Nat.one_mul] at source
    have row := Nat.le_mul_of_pos_left columnV.toNat positive
    omega
  refine ⟨computes, inside, fun i final wide => ?_⟩
  have inBlock : i < rowH.toNat / rowV.toNat := by omega
  have fits : (hankelDelta rowV columnV columnH shift i).toNat ≤ columnH.toNat := by
    rcases copied i inBlock with none | ⟨target, -⟩
    · exact none.le.trans (Nat.zero_le _)
    · have row : i * rowV.toNat + (rowV.toNat - 1) + 1 = rowH.toNat / rowV.toNat * rowV.toNat := by
        rw [← final, Nat.succ_mul]
        omega
      rw [← row, Nat.succ_mul] at target
      exact Nat.le_of_add_le_add_left target
  have counted := hankelDelta_of_inside channels columns (inBlock.trans few) (inside i inBlock)
  rw [counted, if_pos wide] at fits
  split at fits <;> omega

end

/-- A Hankel matrix is built if and only if its blocks and its last row fit, the samples that
are left out are zero, and the sizes are `int`s. -/
theorem hankel_iff (channels : rowV ≠ 0) (columns : columnH ≠ 0) (multiple : rowH % rowV = 0)
    (sizeV : V.size = rowV.toNat * columnV.toNat) (sizeH : H.size = rowH.toNat * columnH.toNat) :
    HankelBuilt V H rowV columnV rowH columnH shift ↔
      HankelFits V rowV.toNat columnV.toNat (rowH.toNat / rowV.toNat) columnH.toNat shift.toNat ∧
        HankelInts rowV.toNat columnV.toNat rowH.toNat columnH.toNat shift.toNat := by
  have few : rowH.toNat / rowV.toNat < 65536 := (Nat.div_le_self _ _).trans_lt rowH.toNat_lt
  constructor
  · rintro ⟨H', called, entries⟩
    obtain ⟨computes, inside, last⟩ := smlsMatHankel_inside channels columns multiple sizeV sizeH called
    refine ⟨⟨inside, last, ?_⟩, (hankelComputes_iff inside).mp computes⟩
    intro i inBlock j inRow c inColumn out there
    obtain ⟨result, called', -, values⟩ :=
      smlsMatHankel_copies channels columns multiple sizeV sizeH computes inside last
    cases called.symm.trans called'
    have behind := (leftOut_iff channels columns (inBlock.trans few) (inside i inBlock) there).mpr out
    have value := values i inBlock j inRow c inColumn
    rw [if_neg (Nat.not_lt.mpr behind), entries i inBlock j inRow c inColumn, if_pos there] at value
    exact value
  · rintro ⟨⟨inside, last, zero⟩, ints⟩
    obtain ⟨⟨code, result⟩, called, rfl, values⟩ := smlsMatHankel_copies channels columns multiple sizeV
      sizeH ((hankelComputes_iff inside).mpr ints) inside last
    refine ⟨result, called, fun i inBlock j inRow c inColumn => ?_⟩
    have few' := inBlock.trans few
    rw [values i inBlock j inRow c inColumn]
    by_cases there : c + i + shift.toNat < columnV.toNat
    · rw [if_pos there]
      by_cases loaded : c < (hankelDelta rowV columnV columnH shift i).toNat
      · rw [if_pos loaded]
      · have out := (leftOut_iff channels columns few' (inside i inBlock) there).mp (Nat.not_lt.mp loaded)
        rw [if_neg loaded, zero i inBlock j inRow c inColumn out there]
    · have source := (hankelDelta_inside channels columns few').mpr (inside i inBlock)
      rw [if_neg there, if_neg (by omega)]

end

/-- Three samples. -/
def shortSignal : Buffer ℚ := ⟨3, fun i => [1, 2, 3].getD i 0⟩

theorem hankel_iff_small : HankelBuilt shortSignal (⟨9, fun _ => 0⟩ : Buffer ℚ) 1 3 3 3 0 := by
  refine (hankel_iff (by decide) (by decide) (by decide) (by decide) (by decide)).mpr
    ⟨⟨by decide, ?_, by decide⟩, by decide, by decide, by decide⟩
  intro i final
  have blocks : i + 1 = 3 := final
  obtain rfl : i = 2 := by omega
  decide

/-- Of three samples in a row of two the second is lost. -/
theorem hankel_lost :
    (smlsMatHankel shortSignal (⟨2, fun _ => 0⟩ : Buffer ℚ) 1 3 1 2 0).map
      (fun result => (result.1, result.2.cells 0, result.2.cells 1)) = some (0, 1, 0) ∧
    ¬ HankelBuilt shortSignal (⟨2, fun _ => 0⟩ : Buffer ℚ) 1 3 1 2 0 := by
  have ran : (smlsMatHankel shortSignal (⟨2, fun _ => 0⟩ : Buffer ℚ) 1 3 1 2 0).map
      (fun result => (result.1, result.2.cells 0, result.2.cells 1)) = some (0, 1, 0) := by decide +kernel
  refine ⟨ran, ?_⟩
  rintro ⟨H', called, entries⟩
  have second : H'.cells 1 = 2 := entries 0 (by decide) 0 (by decide) 1 (by decide)
  rw [called, Option.map_some] at ran
  have zero : H'.cells 1 = 0 := congrArg (fun result => result.2.2) (Option.some.inj ran)
  exact absurd (second.symm.trans zero) (by decide)

end Simuless.Linalg
