import Simuless.Linalg.Dlyap

/-! Blocks of matrices.

A block is cut out of a matrix row by row, as one is inserted, and two matrices
are put below or beside each other.
-/

set_option autoImplicit false

namespace Simuless.Linalg

open Foundation

variable {K : Type}

/-- The target and the pointers `B` and `data`, as indices. -/
structure Cutting (K : Type) where
  B : Buffer K
  b : Nat
  data : Nat

/-- A negative length is far too large for `memcpy`. -/
def cutRow (A : Buffer K) (inColumns : Nat) (outColumns : Int) (walk : Cutting K) (_i : Nat) :
    Option (Cutting K) :=
  if outColumns < 0 then none
  else do
    let B ← walk.B.copyAt walk.b A walk.data outColumns.toNat
    return ⟨B, walk.b + outColumns.toNat, walk.data + inColumns⟩

def cut (B A : Buffer K) (column startRow startColumn rowB columnB : Nat) : Option (Buffer K) := do
  let stopRow := asUint16 (startRow + rowB)
  let stopColumn := asUint16 (startColumn + columnB)
  let start ← asInt (startRow * column)
  let outColumns : Int := stopColumn - startColumn
  let walk ← (upTo startRow stopRow).foldlM (cutRow A column outColumns) ⟨B, 0, start + startColumn⟩
  return walk.B

/-- An assertion that fails has no result. -/
def cat (C A B : Buffer K) (vertical : Int) (rowA columnA rowB columnB rowC columnC : UInt16) :
    Option (Buffer K) :=
  if vertical = 1 then
    if columnA = columnB ∧ rowA.toNat + rowB.toNat = rowC.toNat then do
      let sizeA ← asInt (rowA.toNat * columnA.toNat)
      let sizeB ← asInt (rowB.toNat * columnB.toNat)
      let C ← C.copyAt 0 A 0 sizeA
      C.copyAt sizeA B 0 sizeB
    else none
  else
    if rowA = rowB ∧ columnA.toNat + columnB.toNat = columnC.toNat then do
      let widthA := columnA.toNat
      let widthB := columnB.toNat
      let C ← C.copyAt 0 A 0 widthA
      let C ← C.copyAt widthA B 0 widthB
      let C ← C.copyAt (widthA + widthB) A widthA widthA
      C.copyAt (widthA + widthB + widthA) B widthB widthB
    else none

/-! Cutting. -/

/-- A block inside a matrix. -/
structure Window (row column : Nat) where
  startRow : Nat
  startColumn : Nat
  rows : Nat
  columns : Nat
  inRows : startRow + rows ≤ row
  inColumns : startColumn + columns ≤ column

/-- The block of a matrix. -/
def Window.block {row column : Nat} (window : Window row column) (A : Buffer K) :
    Matrix (Fin window.rows) (Fin window.columns) K :=
  fun r c => A.entry column (window.startRow + r) (window.startColumn + c)

section
variable {row column : Nat} {A B : Buffer K} {window : Window row column}

/-- The first rows of the block have been copied. -/
structure CutTo (window : Window row column) (A B : Buffer K) (i : Nat) (walk : Cutting K) : Prop where
  size : walk.B.size = B.size
  b : walk.b + window.startRow * window.columns = i * window.columns
  data : walk.data = i * column + window.startColumn
  entries : ∀ r, window.startRow + r < i → ∀ c < window.columns, walk.B.entry window.columns r c =
    A.entry column (window.startRow + r) (window.startColumn + c)

theorem CutTo.next {i : Nat} {walk : Cutting K} (part : CutTo window A B i walk)
    (room : row * column ≤ A.size) (room' : window.rows * window.columns ≤ B.size)
    (since : window.startRow ≤ i) (below : i < window.startRow + window.rows) :
    Returns (cutRow A column window.columns walk i) (CutTo window A B (i + 1)) := by
  obtain ⟨t, rfl⟩ := Nat.exists_eq_add_of_le since
  have place : walk.b = t * window.columns := by
    have same := part.b
    rw [Nat.add_mul] at same
    omega
  have inA : walk.data + window.columns ≤ A.size := by
    have rows : (window.startRow + t + 1) * column ≤ row * column :=
      Nat.mul_le_mul_right column (by have inside := window.inRows; omega)
    rw [Nat.succ_mul] at rows
    have inside := window.inColumns
    rw [part.data]
    omega
  have inB : walk.b + window.columns ≤ walk.B.size := by
    have rows : (t + 1) * window.columns ≤ window.rows * window.columns :=
      Nat.mul_le_mul_right _ (by omega)
    rw [Nat.succ_mul] at rows
    rw [place, part.size]
    omega
  rw [cutRow, if_neg (by omega), Int.toNat_natCast]
  apply Returns.known (if_pos (Or.inr ⟨inB, inA⟩))
  refine Returns.done ⟨part.size, ?_, ?_, fun r before c inColumn => ?_⟩
  · simp only [Nat.succ_mul, ← part.b]
    omega
  · simp only [Nat.succ_mul, part.data]
    omega
  · have covered : walk.b ≤ window.columns * r + c ∧ window.columns * r + c < walk.b + window.columns ↔
        r = t := by
      have row_iff : t * window.columns + 0 ≤ window.columns * r + c ∧
          window.columns * r + c < t * window.columns + 0 + window.columns ↔
            r = t ∧ 0 ≤ c ∧ c < 0 + window.columns :=
        block_row_iff inColumn (Nat.zero_add window.columns).le
      rw [Nat.add_zero, ← place, Nat.zero_add] at row_iff
      exact row_iff.trans (and_iff_left ⟨Nat.zero_le c, inColumn⟩)
    refine (if_congr covered rfl rfl).trans ?_
    by_cases here : r = t
    · subst here
      rw [if_pos rfl, part.data, place, Buffer.entry]
      refine congrArg A.cells ?_
      rw [Nat.mul_comm window.columns, Nat.mul_comm column]
      omega
    · rw [if_neg here]
      exact part.entries r (by omega) c inColumn

end

section
variable {A B C : Buffer K}

/-- The one matrix stands above the other. -/
def Above (rowA rowB column : Nat) (A B C : Buffer K) : Prop :=
  ∀ i < rowA + rowB, ∀ j < column, C.entry column i j =
    if i < rowA then A.entry column i j else B.entry column (i - rowA) j

/-- The one matrix stands before the other. -/
def Beside (row columnA columnB : Nat) (A B C : Buffer K) : Prop :=
  ∀ i < row, ∀ j < columnA + columnB, C.entry (columnA + columnB) i j =
    if j < columnA then A.entry columnA i j else B.entry columnB i (j - columnA)

theorem Buffer.copyAt_inside {target source : Buffer K} {start first count : Nat}
    (inside : start + count ≤ target.size ∧ first + count ≤ source.size) :
    target.copyAt start source first count = some (target.paste start source first count) :=
  if_pos (Or.inr inside)

theorem Buffer.copyAt_outside {target source : Buffer K} {start first count : Nat} (some_cells : 0 < count)
    (outside : ¬ (start + count ≤ target.size ∧ first + count ≤ source.size)) :
    target.copyAt start source first count = none :=
  if_neg fun either => either.elim some_cells.ne' outside

theorem toNat_sum {x y : UInt16} (fits : x.toNat + y.toNat < 65536) :
    x.toNat + y.toNat = (x + y).toNat := by
  rw [UInt16.toNat_add, Nat.mod_eq_of_lt fits]

theorem cat_above {rowA rowB column : UInt16} (fits : rowA.toNat + rowB.toNat < 65536)
    (smallA : rowA.toNat * column.toNat ≤ intMax) (smallB : rowB.toNat * column.toNat ≤ intMax)
    (roomA : rowA.toNat * column.toNat ≤ A.size) (roomB : rowB.toNat * column.toNat ≤ B.size)
    (roomC : (rowA.toNat + rowB.toNat) * column.toNat ≤ C.size) :
    Returns (cat C A B 1 rowA column rowB column (rowA + rowB) column)
      (Above rowA.toNat rowB.toNat column.toNat A B) := by
  rw [Nat.add_mul] at roomC
  rw [cat, if_pos rfl, if_pos ⟨rfl, toNat_sum fits⟩]
  apply Returns.known (asInt_small smallA)
  apply Returns.known (asInt_small smallB)
  apply Returns.known (Buffer.copyAt_inside ⟨by omega, by omega⟩)
  refine ⟨_, Buffer.copyAt_inside ⟨by simp only [Buffer.paste]; omega, by omega⟩, ?_⟩
  intro i inRow j inColumn
  simp only [Buffer.entry, Buffer.paste, Nat.zero_add, Nat.zero_le, true_and, Nat.sub_zero]
  rcases Nat.lt_or_ge i rowA.toNat with above | below
  · have inside := flat_lt_product above inColumn
    rw [if_neg (by omega), if_pos inside, if_pos above]
  · obtain ⟨t, rfl⟩ := Nat.exists_eq_add_of_le below
    have inside : column.toNat * t + j < rowB.toNat * column.toNat := flat_lt_product (by omega) inColumn
    have index : column.toNat * (rowA.toNat + t) + j =
        rowA.toNat * column.toNat + (column.toNat * t + j) := by
      rw [Nat.mul_add, Nat.mul_comm column.toNat, Nat.add_assoc]
    rw [index, if_pos ⟨Nat.le_add_right _ _, by omega⟩, Nat.add_sub_cancel_left, if_neg (by omega),
      Nat.add_sub_cancel_left]

/-- The four copies put two rows of each matrix into place. -/
theorem cat_beside (row : UInt16) {columnA columnB : UInt16} (fits : columnA.toNat + columnB.toNat < 65536)
    (roomA : 2 * columnA.toNat ≤ A.size) (roomB : 2 * columnB.toNat ≤ B.size)
    (roomC : 2 * (columnA.toNat + columnB.toNat) ≤ C.size) {vertical : Int} (horizontal : vertical ≠ 1) :
    Returns (cat C A B vertical row columnA row columnB row (columnA + columnB)) fun C' =>
      C'.size = C.size ∧ Beside 2 columnA.toNat columnB.toNat A B C' ∧
        ∀ k, 2 * (columnA.toNat + columnB.toNat) ≤ k → C'.cells k = C.cells k := by
  rw [cat, if_neg horizontal, if_pos ⟨rfl, toNat_sum fits⟩]
  apply Returns.known (Buffer.copyAt_inside ⟨by omega, by omega⟩)
  apply Returns.known (Buffer.copyAt_inside ⟨by simp only [Buffer.paste]; omega, by omega⟩)
  apply Returns.known (Buffer.copyAt_inside ⟨by simp only [Buffer.paste]; omega, by omega⟩)
  refine ⟨_, Buffer.copyAt_inside ⟨by simp only [Buffer.paste]; omega, by omega⟩, rfl, ?_, ?_⟩
  · intro i two j inColumn
    simp only [Buffer.entry, Buffer.paste]
    rcases Nat.lt_or_ge j columnA.toNat with left | right
    · rw [if_pos left]
      interval_cases i
      · rw [if_neg (by omega), if_neg (by omega), if_neg (by omega), if_pos (by omega)]
        exact congrArg A.cells (by omega)
      · rw [if_neg (by omega), if_pos (by omega)]
        exact congrArg A.cells (by omega)
    · rw [if_neg (Nat.not_lt.mpr right)]
      interval_cases i
      · rw [if_neg (by omega), if_neg (by omega), if_pos (by omega)]
        exact congrArg B.cells (by omega)
      · rw [if_pos (by omega)]
        exact congrArg B.cells (by omega)
  · intro k behind
    simp only [Buffer.paste]
    rw [if_neg (by omega), if_neg (by omega), if_neg (by omega), if_neg (by omega)]

/-- A matrix is put below another one. It is put beside another one if there are two rows, and only
then: with fewer rows a copy goes beyond an array, and of more rows only the first two are copied. -/
theorem cat_iff [Nontrivial K] {row columnA columnB : UInt16} (positive : 0 < columnA.toNat)
    (positive' : 0 < columnB.toNat) (fits : columnA.toNat + columnB.toNat < 65536) {vertical : Int}
    (horizontal : vertical ≠ 1) :
    (∀ (rowA rowB column : UInt16) (A B C : Buffer K), rowA.toNat + rowB.toNat < 65536 →
      rowA.toNat * column.toNat ≤ intMax → rowB.toNat * column.toNat ≤ intMax →
      rowA.toNat * column.toNat ≤ A.size → rowB.toNat * column.toNat ≤ B.size →
      (rowA.toNat + rowB.toNat) * column.toNat ≤ C.size →
      ∃ C', cat C A B 1 rowA column rowB column (rowA + rowB) column = some C' ∧
        Above rowA.toNat rowB.toNat column.toNat A B C') ∧
    ((∀ A B C : Buffer K, A.size = row.toNat * columnA.toNat → B.size = row.toNat * columnB.toNat →
      C.size = row.toNat * (columnA.toNat + columnB.toNat) →
      ∃ C', cat C A B vertical row columnA row columnB row (columnA + columnB) = some C' ∧
        Beside row.toNat columnA.toNat columnB.toNat A B C') ↔ row = 2) := by
  refine ⟨fun rowA rowB column A B C fits smallA smallB roomA roomB roomC => ?_, fun always => ?_, ?_⟩
  · obtain ⟨C', same, above⟩ := cat_above fits smallA smallB roomA roomB roomC
    exact ⟨C', same, above⟩
  · obtain ⟨x, y, different⟩ := exists_pair_ne K
    obtain ⟨C', ran, beside⟩ := always ⟨row.toNat * columnA.toNat, fun _ => x⟩
      ⟨row.toNat * columnB.toNat, fun _ => x⟩ ⟨row.toNat * (columnA.toNat + columnB.toNat), fun _ => y⟩
      rfl rfl rfl
    rcases Nat.lt_or_ge row.toNat 2 with few | enough
    · exfalso
      rw [cat, if_neg horizontal, if_pos ⟨rfl, toNat_sum fits⟩] at ran
      dsimp only at ran
      rcases (by omega : row.toNat = 0 ∨ row.toNat = 1) with none | one
      · rw [Buffer.copyAt_outside positive (by simp only [none]; omega)] at ran
        cases ran
      · rw [Buffer.copyAt_inside (by simp only [one]; omega), Option.bind_eq_bind, Option.bind_some,
          Buffer.copyAt_inside (by simp only [one, Buffer.paste]; omega), Option.bind_some,
          Buffer.copyAt_outside positive (by simp only [one, Buffer.paste]; omega)] at ran
        cases ran
    · rcases enough.lt_or_eq with more | two
      · -- the third row has kept what it held
        exfalso
        have rooms (width : Nat) : 2 * width ≤ row.toNat * width := Nat.mul_le_mul_right width enough
        obtain ⟨C'', ran', -, -, kept⟩ := cat_beside (A := ⟨row.toNat * columnA.toNat, fun _ => x⟩)
          (B := ⟨row.toNat * columnB.toNat, fun _ => x⟩)
          (C := ⟨row.toNat * (columnA.toNat + columnB.toNat), fun _ => y⟩)
          row fits (rooms _) (rooms _) (rooms _) horizontal
        obtain rfl := Option.some.inj (ran'.symm.trans ran)
        have third := beside 2 more 0 (by omega)
        rw [if_pos positive, Buffer.entry, kept _ (by rw [Nat.add_zero, Nat.mul_comm])] at third
        exact different third.symm
      · exact UInt16.toNat_inj.mp two.symm
  · rintro rfl A B C sizeA sizeB sizeC
    obtain ⟨C', ran, -, beside, -⟩ := cat_beside 2 fits sizeA.ge sizeB.ge sizeC.ge horizontal
    exact ⟨C', ran, beside⟩

end

theorem cat_iff_three :
    (∃ C', cat (⟨5, fun _ => 0⟩ : Buffer Nat) ⟨2, fun k => k⟩ ⟨3, fun k => k⟩ 1 2 1 3 1 5 1 = some C' ∧
      Above 2 3 1 ⟨2, fun k => k⟩ ⟨3, fun k => k⟩ C') ∧
    ¬ ∀ A B C : Buffer Nat, A.size = 3 * 1 → B.size = 3 * 1 → C.size = 3 * (1 + 1) →
      ∃ C', cat C A B 0 3 1 3 1 3 (1 + 1) = some C' ∧ Beside 3 1 1 A B C' := by
  obtain ⟨below, two⟩ := @cat_iff Nat _ 3 1 1 (by decide) (by decide) (by decide) 0 (by decide)
  exact ⟨below 2 3 1 _ _ _ (by decide) (by decide) (by decide) (Nat.le_refl 2) (Nat.le_refl 3)
      (Nat.le_refl 5),
    fun always => absurd (two.mp always) (by decide)⟩

end Simuless.Linalg
