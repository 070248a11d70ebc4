import Mathlib.Algebra.Order.Field.Basic
import Mathlib.Algebra.Order.Ring.Rat
import Simuless.Foundation.Pivoting
import Simuless.Linalg.Buffer

/-! Factorisation with row pivoting.

Rows of the matrix are never moved. The pivot vector says which row stands in
which position, and multipliers and upper factor share the matrix.
-/

set_option autoImplicit false

namespace Simuless.Linalg

open Foundation

variable {K : Type}

/-- `ENOTSUP`. -/
def enotsup : Int := 95

/-- `FLT_EPSILON`. -/
def fltEpsilon [Field K] : K := 1 / 2 ^ 23

/-- The factors and the pivot vector. -/
structure Factoring (K : Type) where
  LU : Buffer K
  P : Buffer UInt8

namespace Factoring

variable (factoring : Factoring K) (row : Nat)

/-- `LU[row * P[i] + j]`. -/
def read (i j : Nat) : Option K := do
  let p ← factoring.P.read i
  factoring.LU.read (row * p.toNat + j)

def write (i j : Nat) (value : K) : Option (Factoring K) := do
  let p ← factoring.P.read i
  let LU ← factoring.LU.write (row * p.toNat + j) value
  return { factoring with LU }

end Factoring

section
variable [Field K] [LinearOrder K]

/-- `P[i] = i`. -/
def lupPositions (row : Nat) (P : Buffer UInt8) : Option (Buffer UInt8) :=
  (upTo 0 row).foldlM (fun P i => P.write i (.ofNat i)) P

/-- The position of the entry of largest magnitude in column `i`, from position `i` on. -/
def lupSearch (row i : Nat) (factoring : Factoring K) : Option Nat :=
  (upTo (i + 1) row).foldlM (fun indMax j => do
    let candidate ← factoring.read row j i
    let largest ← factoring.read row indMax i
    return if |largest| < |candidate| then j else indMax) i

def lupSwap (i indMax : Nat) (P : Buffer UInt8) : Option (Buffer UInt8) := do
  let tmp ← P.read i
  let largest ← P.read indMax
  let P ← P.write i largest
  P.write indMax tmp

/-- `LU[row * P[j] + k] = LU[row * P[j] + k] - LU[row * P[i] + k] * LU[row * P[j] + i]`. -/
def lupEntry (row i j : Nat) (factoring : Factoring K) (k : Nat) : Option (Factoring K) := do
  let entry ← factoring.read row j k
  let upper ← factoring.read row i k
  let multiplier ← factoring.read row j i
  factoring.write row j k (entry - upper * multiplier)

def lupRow (row i : Nat) (factoring : Factoring K) (j : Nat) : Option (Factoring K) := do
  let entry ← factoring.read row j i
  let pivot ← factoring.read row i i
  let multiplier ← quotient entry pivot
  let factoring ← factoring.write row j i multiplier
  (upTo (i + 1) row).foldlM (lupEntry row i j) factoring

/-- One stage, with this reading of `fabsf(LU[row * P[i] + i]) < FLT_EPSILON`. -/
def lupStage (refused : K → Prop) [DecidablePred refused] (row : Nat) (factoring : Factoring K) (i : Nat) :
    Option (Flow (Factoring K) (Factoring K)) := do
  let indMax ← lupSearch row i factoring
  let P ← lupSwap i indMax factoring.P
  let factoring := { factoring with P }
  let pivot ← factoring.read row i i
  if refused pivot then return .leave factoring
  let factoring ← (upTo (i + 1) row).foldlM (lupRow row i) factoring
  return .proceed factoring

/-- `if (A != LU) memcpy(LU, A, ...)`; `A` is none if it is the same pointer as `LU`. -/
def lupCopy (A : Option (Buffer K)) (LU : Buffer K) (row : Nat) : Option (Buffer K) :=
  match A with
  | none => some LU
  | some A => LU.copy A (row * row)

/-- The return value and the factors. -/
def smlsMatLupBy (refused : K → Prop) [DecidablePred refused] (A : Option (Buffer K)) (LU : Buffer K)
    (P : Buffer UInt8) (row : Nat) : Option (Int × Factoring K) := do
  let LU ← lupCopy A LU row
  let P ← lupPositions row P
  match ← flowLoop (lupStage refused row) (upTo 0 (row - 1)) ⟨LU, P⟩ with
  | .leave factoring => return (-enotsup, factoring)
  | .proceed factoring => return (0, factoring)

def smlsMatLup (A : Option (Buffer K)) (LU : Buffer K) (P : Buffer UInt8) (row : Nat) :
    Option (Int × Factoring K) := smlsMatLupBy (tiny fltEpsilon) A LU P row

end

/-! Entries by position. -/

namespace Factoring

variable (factoring : Factoring K)

/-- The row that stands in a position. -/
def place (i : Nat) : Nat := (factoring.P.cells i).toNat

/-- The entry in column `j` of the row in position `i`. -/
def entry (n i j : Nat) : K := factoring.LU.entry n (factoring.place i) j

/-- Each of the `n` positions has a row of its own, and everything fits into the buffers. -/
structure Placed (n : Nat) : Prop where
  LU : n * n ≤ factoring.LU.size
  P : n ≤ factoring.P.size
  place_lt : ∀ i < n, factoring.place i < n
  injective : ∀ i < n, ∀ j < n, factoring.place i = factoring.place j → i = j

/-- Everything fits into the buffers, whether positions share rows or not. -/
structure Fits (n : Nat) : Prop where
  LU : n * n ≤ factoring.LU.size
  P : n ≤ factoring.P.size
  place_lt : ∀ i < n, factoring.place i < n

/-- The factoring with another entry in this position. -/
def put (n i j : Nat) (value : K) : Factoring K :=
  { factoring with LU := factoring.LU.set (n * factoring.place i + j) value }

namespace Fits

variable {factoring} {n i j : Nat} (fits : factoring.Fits n) (inRow : i < n) (inColumn : j < n)
include fits inRow inColumn

theorem read : factoring.read n i j = some (factoring.entry n i j) := by
  have inside := (flat_lt (fits.place_lt i inRow) inColumn).trans_le fits.LU
  rw [Factoring.read, factoring.P.read_inside (inRow.trans_le fits.P), Option.bind_eq_bind,
    Option.bind_some]
  exact factoring.LU.read_inside inside

theorem write (value : K) : factoring.write n i j value = some (factoring.put n i j value) := by
  have inside := (flat_lt (fits.place_lt i inRow) inColumn).trans_le fits.LU
  have written := factoring.LU.write_inside inside value
  simp only [Factoring.write, factoring.P.read_inside (inRow.trans_le fits.P),
    Option.bind_eq_bind, Option.bind_some]
  change (factoring.LU.write (n * factoring.place i + j) value).bind _ = _
  rw [written]
  rfl

end Fits

namespace Placed

variable {factoring} {n i j : Nat} (placed : factoring.Placed n)
include placed

theorem put (value : K) : (factoring.put n i j value).Placed n :=
  ⟨placed.LU, placed.P, placed.place_lt, placed.injective⟩

theorem fits : factoring.Fits n := ⟨placed.LU, placed.P, placed.place_lt⟩

variable (inRow : i < n)
include inRow

theorem read (inColumn : j < n) : factoring.read n i j = some (factoring.entry n i j) :=
  placed.fits.read inRow inColumn

theorem write (inColumn : j < n) (value : K) :
    factoring.write n i j value = some (factoring.put n i j value) :=
  placed.fits.write inRow inColumn value

/-- Writing one entry leaves those in other positions or columns. -/
theorem entry_put (inColumn : j < n) (value : K) {t c : Nat} (inRow' : t < n) (inColumn' : c < n) :
    (factoring.put n i j value).entry n t c =
      if t = i ∧ c = j then value else factoring.entry n t c := by
  have same : factoring.place t = factoring.place i ∧ c = j ↔ t = i ∧ c = j :=
    and_congr_left' ⟨placed.injective t inRow' i inRow, fun same => by rw [same]⟩
  have written : (factoring.put n i j value).LU.entry n (factoring.place t) c = _ :=
    Buffer.entry_set inColumn inColumn' value
  simp only [same] at written
  exact written

end Placed

end Factoring

/-! One row of a stage. -/

section
variable [Field K] {n i j : Nat} {start : Factoring K}

/-- Position `j` has its multiplier, and the columns up to `k` are handled. -/
structure RowPart (n i j : Nat) (start : Factoring K) (k : Nat) (factoring : Factoring K) : Prop where
  placed : factoring.Placed n
  P : factoring.P = start.P
  entries : ∀ t < n, ∀ c < n, factoring.entry n t c =
    if t = j ∧ c < k then eliminate i (start.entry n) t c else start.entry n t c

theorem RowPart.entry {k : Nat} {factoring : Factoring K} (part : RowPart n i j start k factoring)
    (under : i < j) (inside : j < n) (right : i < k) (inColumn : k < n) :
    Returns (lupEntry n i j factoring k) (RowPart n i j start (k + 1)) := by
  have pivotRow : i < n := under.trans inside
  apply Returns.known (part.placed.read inside inColumn)
  apply Returns.known (part.placed.read pivotRow inColumn)
  apply Returns.known (part.placed.read inside pivotRow)
  rw [part.placed.write inside inColumn]
  have value : factoring.entry n j k - factoring.entry n i k * factoring.entry n j i =
      eliminate i (start.entry n) j k := by
    rw [part.entries j inside k inColumn, part.entries i pivotRow k inColumn,
      part.entries j inside i pivotRow, if_neg (by omega), if_neg (by omega), if_pos ⟨rfl, right⟩,
      eliminate_rest _ under right]
  rw [value]
  refine Returns.done ⟨part.placed.put _, part.P, fun t inRow c inColumn' => ?_⟩
  rw [part.placed.entry_put inside inColumn _ inRow inColumn', part.entries t inRow c inColumn']
  by_cases here : t = j ∧ c = k
  · rw [if_pos here, if_pos (by omega), here.1, here.2]
  · rw [if_neg here]
    exact if_congr (by omega) rfl rfl

variable [LinearOrder K]

theorem lupRow_part (placed : start.Placed n) (pivot : start.entry n i i ≠ 0) (under : i < j)
    (inside : j < n) : Returns (lupRow n i start j) (RowPart n i j start n) := by
  have pivotRow : i < n := under.trans inside
  apply Returns.known (placed.read inside pivotRow)
  apply Returns.known (placed.read pivotRow pivotRow)
  apply Returns.known (quotient_nonzero pivot _)
  apply Returns.known (placed.write inside pivotRow _)
  refine Returns.loop _ (Nat.succ_le_of_lt pivotRow) ?_ ?_
  · refine ⟨placed.put _, rfl, fun t inRow c inColumn => ?_⟩
    rw [placed.entry_put inside pivotRow _ inRow inColumn]
    by_cases here : t = j ∧ c = i
    · rw [if_pos here, if_pos (by omega), here.1, here.2, eliminate_column _ under]
    · rw [if_neg here]
      by_cases before : t = j ∧ c < i + 1
      · rw [if_pos before, eliminate_finished _ (Or.inr (by omega))]
      · rw [if_neg before]
  · intro k factoring right inColumn part
    exact part.entry under inside right inColumn

/-- The positions below the pivot up to `j` are handled. -/
structure StagePart (n i : Nat) (start : Factoring K) (j : Nat) (factoring : Factoring K) : Prop where
  placed : factoring.Placed n
  P : factoring.P = start.P
  entries : ∀ t < n, ∀ c < n, factoring.entry n t c =
    if t < j then eliminate i (start.entry n) t c else start.entry n t c

theorem StagePart.row {factoring : Factoring K} (part : StagePart n i start j factoring)
    (pivot : start.entry n i i ≠ 0) (under : i < j) (inside : j < n) :
    Returns (lupRow n i factoring j) (StagePart n i start (j + 1)) := by
  have pivotRow : i < n := under.trans inside
  have own (t : Nat) (inRow : t < n) (c : Nat) (inColumn : c < n) (untouched : t ≤ i ∨ j ≤ t) :
      factoring.entry n t c = start.entry n t c := by
    rw [part.entries t inRow c inColumn]
    by_cases before : t < j
    · rw [if_pos before, eliminate_finished _ (Or.inl (by omega))]
    · rw [if_neg before]
  have pivot' : factoring.entry n i i ≠ 0 := by
    rw [own i pivotRow i pivotRow (Or.inl (Nat.le_refl i))]
    exact pivot
  refine (lupRow_part part.placed pivot' under inside).weaken fun next row => ?_
  refine ⟨row.placed, row.P.trans part.P, fun t inRow c inColumn => ?_⟩
  rw [row.entries t inRow c inColumn]
  by_cases here : t = j
  · subst here
    rw [if_pos ⟨rfl, inColumn⟩, if_pos (Nat.lt_succ_self t), eliminate, eliminate,
      own t inside c inColumn (Or.inr (Nat.le_refl t)), own t inside i pivotRow (Or.inr (Nat.le_refl t)),
      own i pivotRow i pivotRow (Or.inl (Nat.le_refl i)),
      own i pivotRow c inColumn (Or.inl (Nat.le_refl i))]
  · rw [if_neg (by omega), part.entries t inRow c inColumn]
    exact if_congr (by omega) rfl rfl

end

/-! The pivot. -/

section
variable [Field K] [LinearOrder K] {n i : Nat} {factoring : Factoring K}

/-- The search finds the pivot. -/
theorem lupSearch_pivot (placed : factoring.Placed n) (inside : i < n) :
    Returns (lupSearch n i factoring) (IsPivot n i (factoring.entry n)) := by
  -- among the positions up to `j` it is the pivot already
  refine Returns.loop (fun j best => IsPivot j i (factoring.entry n) best)
    (Nat.succ_le_of_lt inside) ?_ ?_
  · refine ⟨Nat.le_refl i, Nat.lt_succ_self i, fun t above below => ?_, fun t above before => ?_⟩
    · obtain rfl : t = i := by omega
      exact le_rfl
    · exact absurd before (Nat.not_lt.mpr above)
  · intro j best under below pivot
    apply Returns.known (placed.read below inside)
    apply Returns.known (placed.read (pivot.inside.trans below) inside)
    apply Returns.done
    by_cases larger : |factoring.entry n best i| < |factoring.entry n j i|
    · rw [if_pos larger]
      have exceeded (t : Nat) (above : i ≤ t) (before : t < j) :
          |factoring.entry n t i| < |factoring.entry n j i| :=
        (pivot.largest t above before).trans_lt larger
      refine ⟨by omega, Nat.lt_succ_self j, fun t above before => ?_, exceeded⟩
      rcases Nat.lt_succ_iff_lt_or_eq.mp before with before | rfl
      · exact (exceeded t above before).le
      · exact le_rfl
    · rw [if_neg larger]
      refine ⟨pivot.behind, Nat.lt_succ_of_lt pivot.inside, fun t above before => ?_, pivot.first⟩
      rcases Nat.lt_succ_iff_lt_or_eq.mp before with before | rfl
      · exact pivot.largest t above before
      · exact not_lt.mp larger

theorem lupSwap_exchanges {P : Buffer UInt8} {best : Nat} (inside : i < P.size) (inside' : best < P.size) :
    Returns (lupSwap i best P) fun P' => P'.size = P.size ∧
      ∀ t, P'.cells t = P.cells (Equiv.swap i best t) := by
  apply Returns.known (P.read_inside inside)
  apply Returns.known (P.read_inside inside')
  apply Returns.known (P.write_inside inside _)
  rw [Buffer.write_inside (P.set i _) inside']
  refine Returns.done ⟨rfl, fun t => ?_⟩
  by_cases last : t = best
  · rw [last, Buffer.set_same, Equiv.swap_apply_right]
  · rw [Buffer.set_other _ last]
    by_cases first : t = i
    · rw [first, Buffer.set_same, Equiv.swap_apply_left]
    · rw [Buffer.set_other _ first, Equiv.swap_apply_of_ne_of_ne first last]

/-- A factoring in which two positions have exchanged their rows. -/
structure Exchanged (n i best : Nat) (factoring swapped : Factoring K) : Prop where
  placed : swapped.Placed n
  place : ∀ t, swapped.place t = factoring.place (Equiv.swap i best t)
  entry : ∀ t c, swapped.entry n t c = factoring.entry n (Equiv.swap i best t) c

omit [Field K] [LinearOrder K] in
theorem Factoring.Placed.exchange {best : Nat} (placed : factoring.Placed n) (inside : i < n)
    (inside' : best < n) {P : Buffer UInt8} (size : P.size = factoring.P.size)
    (cells : ∀ t, P.cells t = factoring.P.cells (Equiv.swap i best t)) :
    Exchanged n i best factoring ⟨factoring.LU, P⟩ := by
  have place (t : Nat) : (⟨factoring.LU, P⟩ : Factoring K).place t =
      factoring.place (Equiv.swap i best t) := congrArg UInt8.toNat (cells t)
  refine ⟨⟨placed.LU, ?_, fun t below => ?_, fun t below u below' same => ?_⟩, place, fun t c => ?_⟩
  · rw [size]
    exact placed.P
  · rw [place]
    exact placed.place_lt _ (swap_lt inside inside' below)
  · rw [place, place] at same
    exact (Equiv.swap i best).injective
      (placed.injective _ (swap_lt inside inside' below) _ (swap_lt inside inside' below') same)
  · rw [Factoring.entry, Factoring.entry, place]

end

/-! The stages. -/

section
variable [Field K] [LinearOrder K] [IsStrictOrderedRing K] {n stage : Nat} {factoring : Factoring K}

theorem fltEpsilon_pos : (0 : K) < fltEpsilon := by
  rw [fltEpsilon]
  positivity

variable {refused : K → Prop}

/-- The buffers hold what this many stages of elimination with partial pivoting lead to. -/
structure Factored (n : Nat) (refused : K → Prop) (A : Nat → Nat → K) (stage : Nat)
    (factoring : Factoring K) : Prop where
  placed : factoring.Placed n
  pivoted : ∃ order packed, Pivoted n refused A stage order packed ∧
    (∀ i < n, factoring.place i = order i) ∧ ∀ i < n, ∀ j < n, factoring.entry n i j = packed i j

omit [IsStrictOrderedRing K] in
/-- After the last stage elimination has not stalled. -/
theorem Factored.not_stalls {A : Nat → Nat → K} (factored : Factored n refused A (n - 1) factoring) :
    ¬ StallsOn n refused A := by
  obtain ⟨order, packed, pivoted, -, -⟩ := factored.pivoted
  exact pivoted.not_stalls

section
variable {A : Nat → Nat → K} (factored : Factored n refused A stage factoring)
include factored

omit [IsStrictOrderedRing K] in
theorem Factored.pivots {k : Nat} (before : k < stage) (inside : k < n) :
    ¬ refused (factoring.entry n k k) := by
  obtain ⟨order, packed, pivoted, -, entries⟩ := factored.pivoted
  rw [entries k inside k inside]
  exact pivoted.pivots before

variable (refusal : Refusal refused)
include refusal

omit [IsStrictOrderedRing K] in
/-- The factors multiply to the matrix with its rows in their positions. -/
theorem Factored.product {i j : Nat} (inRow : i < n) (inColumn : j < n) :
    unpacked stage (factoring.entry n) i j = A (factoring.place i) j := by
  obtain ⟨order, packed, pivoted, place, entries⟩ := factored.pivoted
  rw [unpacked_congr entries inRow inColumn, place i inRow]
  exact pivoted.product refusal inRow j

theorem Factored.multipliers {i k : Nat} (inRow : i < n) (before : k < min i stage) :
    |factoring.entry n i k| ≤ 1 := by
  obtain ⟨order, packed, pivoted, -, entries⟩ := factored.pivoted
  rw [entries i inRow k (by omega)]
  exact pivoted.multipliers refusal inRow before

omit [IsStrictOrderedRing K] in
/-- A stage of the code is a stage of elimination, and it is left where that stalls. -/
theorem Factored.advance [DecidablePred refused] (inside : stage < n - 1) :
    Returns (lupStage refused n factoring stage)
      (Flow.Ends (fun _ => StallsOn n refused A) (Factored n refused A (stage + 1))) := by
  obtain ⟨placed, order, packed, pivoted, place, entries⟩ := factored
  have row : stage < n := by omega
  refine Returns.next (lupSearch_pivot placed row) fun best _ found => ?_
  have pivot : IsPivot n stage packed best :=
    found.congr fun t below => (entries t below stage row).symm
  have swaps := lupSwap_exchanges (i := stage) (row.trans_le placed.P) (pivot.inside.trans_le placed.P)
  refine Returns.next swaps fun P _ ⟨size, cells⟩ => ?_
  have exchanged := placed.exchange row pivot.inside size cells
  have entry (t : Nat) (inRow : t < n) (c : Nat) (inColumn : c < n) :
      (⟨factoring.LU, P⟩ : Factoring K).entry n t c = packed (Equiv.swap stage best t) c := by
    rw [exchanged.entry, entries _ (swap_lt row pivot.inside inRow) c inColumn]
  have corner := entry stage row stage row
  rw [Equiv.swap_apply_left] at corner
  apply Returns.known (exchanged.placed.read row row)
  rw [corner]
  apply Returns.check
  · intro small
    refine Returns.done ⟨stage, inside, order, packed, pivoted, fun t above below => ?_⟩
    exact refusal.smaller _ _ (pivot.largest t above below) small
  · intro accepted
    have nonzero : (⟨factoring.LU, P⟩ : Factoring K).entry n stage stage ≠ 0 := by
      rw [corner]
      exact refusal.nonzero accepted
    have first : StagePart n stage ⟨factoring.LU, P⟩ (stage + 1) ⟨factoring.LU, P⟩ := by
      refine ⟨exchanged.placed, rfl, fun t _ c _ => ?_⟩
      by_cases before : t < stage + 1
      · rw [if_pos before, eliminate_finished _ (Or.inl (Nat.le_of_lt_succ before))]
      · rw [if_neg before]
    refine Returns.next (Returns.loop _ (Nat.succ_le_of_lt row) first ?_) fun next _ part => ?_
    · intro j reached under below part
      exact part.row nonzero under below
    · refine Returns.done ⟨part.placed, _, _, pivoted.step row pivot accepted, fun t inRow => ?_,
        fun t inRow c inColumn => ?_⟩
      · have same : next.place t = (⟨factoring.LU, P⟩ : Factoring K).place t := by
          rw [Factoring.place, part.P]
          rfl
        rw [same, exchanged.place, place _ (swap_lt row pivot.inside inRow)]
        rfl
      · rw [part.entries t inRow c inColumn, if_pos inRow]
        exact eliminate_congr entry row inRow inColumn

end

end

/-! The whole call. -/

/-- The positions start in order, counted in octets. -/
theorem lupPositions_counted {n : Nat} {P : Buffer UInt8} (room : n ≤ P.size) :
    Returns (lupPositions n P) fun P' => P'.size = P.size ∧ ∀ t < n, (P'.cells t).toNat = t % 256 := by
  refine Returns.loop (fun i (P' : Buffer UInt8) => P'.size = P.size ∧
    ∀ t < i, (P'.cells t).toNat = t % 256)
    (Nat.zero_le n) ⟨rfl, fun t below => absurd below (Nat.not_lt_zero t)⟩ ?_
  rintro i P' - inside ⟨size, counted⟩
  rw [P'.write_inside (by omega)]
  refine Returns.done ⟨size, fun t below => ?_⟩
  by_cases last : t = i
  · rw [last, Buffer.set_same, UInt8.toNat_ofNat']
  · rw [Buffer.set_other _ last]
    exact counted t (by omega)

theorem lupPositions_ordered {n : Nat} {P : Buffer UInt8} (room : n ≤ P.size) (octets : n ≤ 256) :
    Returns (lupPositions n P) fun P' => P'.size = P.size ∧ ∀ t < n, (P'.cells t).toNat = t := by
  refine (lupPositions_counted room).weaken fun P' ⟨size, counted⟩ => ⟨size, fun t below => ?_⟩
  rw [counted t below, Nat.mod_eq_of_lt (below.trans_le octets)]

/-- Positions with rows of their own are a permutation. -/
theorem Factoring.Placed.permutation {n : Nat} {factoring : Factoring K} (placed : factoring.Placed n) :
    ∃ positions : Equiv.Perm (Fin n), ∀ i, (positions i : Nat) = factoring.place i := by
  let place (i : Fin n) : Fin n := ⟨factoring.place i, placed.place_lt i i.isLt⟩
  have injective : Function.Injective place := by
    intro i j same
    exact Fin.ext (placed.injective i i.isLt j j.isLt (Fin.mk.inj same))
  exact ⟨Equiv.ofBijective place (Finite.injective_iff_bijective.mp injective), fun _ => rfl⟩

section
variable [Field K] [LinearOrder K] [IsStrictOrderedRing K] {n : Nat} {refused : K → Prop}

/-- The matrix a call factors: in place if there is no other. -/
def lupInput (A : Option (Buffer K)) (LU : Buffer K) : Buffer K := A.getD LU

/-- The buffers of a call are large enough. -/
structure LupRoom (n : Nat) (A : Option (Buffer K)) (LU : Buffer K) (P : Buffer UInt8) : Prop where
  A : ∀ input, A = some input → n * n ≤ input.size
  LU : n * n ≤ LU.size
  P : n ≤ P.size

omit [LinearOrder K] [IsStrictOrderedRing K] in
/-- Arrays of a call itself have the right sizes. -/
theorem lupRoom_own {A : Buffer K} (room : n * n ≤ A.size) :
    LupRoom n (some A) ⟨n * n, fun _ => 0⟩ ⟨n, fun _ => 0⟩ := by
  refine ⟨?_, Nat.le_refl _, Nat.le_refl _⟩
  rintro input ⟨⟩
  exact room

theorem enotsup_nonzero : -enotsup ≠ 0 := by decide

omit [Field K] [LinearOrder K] [IsStrictOrderedRing K] in
theorem lupCopy_entries {A : Option (Buffer K)} {LU : Buffer K} {P : Buffer UInt8}
    (room : LupRoom n A LU P) : Returns (lupCopy A LU n) fun LU' => LU'.size = LU.size ∧
      ∀ i < n, ∀ j < n, LU'.entry n i j = (lupInput A LU).entry n i j := by
  cases A with
  | none => exact Returns.done ⟨rfl, fun _ _ _ _ => rfl⟩
  | some A =>
    have inside := room.A A rfl
    refine ⟨_, if_pos ⟨room.LU, inside⟩, rfl, fun i inRow j inColumn => ?_⟩
    exact if_pos (flat_lt inRow inColumn)

omit [IsStrictOrderedRing K] in
/-- With every row in its own position the matrix is factored up to no stage. -/
theorem Factored.start {A : Nat → Nat → K} {LU : Buffer K} {P : Buffer UInt8} (room : n * n ≤ LU.size)
    (room' : n ≤ P.size) (entries : ∀ i < n, ∀ j < n, LU.entry n i j = A i j)
    (ordered : ∀ t < n, (P.cells t).toNat = t) : Factored n refused A 0 ⟨LU, P⟩ := by
  constructor
  case placed =>
    refine ⟨room, room', fun i inside => ?_, fun i inside j inside' same => ?_⟩
    · rw [Factoring.place, ordered i inside]
      exact inside
    · rw [Factoring.place, Factoring.place, ordered i inside, ordered j inside'] at same
      exact same
  case pivoted =>
    refine ⟨id, A, Pivoted.start, ordered, fun i inRow j inColumn => ?_⟩
    rw [Factoring.entry, Factoring.place, ordered i inRow]
    exact entries i inRow j inColumn

omit [IsStrictOrderedRing K] in
/-- A call returns. Success means that the matrix is factored, and failure that
elimination stalls on it. -/
theorem smlsMatLupBy_returns [DecidablePred refused] {A : Option (Buffer K)} {LU : Buffer K}
    {P : Buffer UInt8} (refusal : Refusal refused) (room : LupRoom n A LU P) (octets : n ≤ 256) :
    Returns (smlsMatLupBy refused A LU P n) fun result =>
      result.1 = 0 ∧ Factored n refused ((lupInput A LU).entry n) (n - 1) result.2 ∨
        result.1 = -enotsup ∧ StallsOn n refused ((lupInput A LU).entry n) := by
  refine Returns.next (lupCopy_entries room) fun LU' _ ⟨size, entries⟩ => ?_
  refine Returns.next (lupPositions_ordered room.P octets) fun P' _ ⟨size', ordered⟩ => ?_
  have start : Factored n refused ((lupInput A LU).entry n) 0 ⟨LU', P'⟩ :=
    Factored.start (size ▸ room.LU) (size' ▸ room.P) entries ordered
  refine Returns.next (Returns.flow _ (fun _ => StallsOn n refused ((lupInput A LU).entry n))
    (Nat.zero_le (n - 1)) start ?_) fun flow _ ends => ?_
  · intro stage reached _ inside factored
    exact factored.advance refusal inside
  · cases flow with
    | leave left => exact Returns.done (Or.inr ⟨rfl, ends⟩)
    | proceed factored => exact Returns.done (Or.inl ⟨rfl, ends⟩)

theorem smlsMatLup_returns {A : Option (Buffer K)} {LU : Buffer K} {P : Buffer UInt8}
    (room : LupRoom n A LU P) (octets : n ≤ 256) : Returns (smlsMatLup A LU P n) fun result =>
      result.1 = 0 ∧ Factored n (tiny fltEpsilon) ((lupInput A LU).entry n) (n - 1) result.2 ∨
        result.1 = -enotsup ∧ Stalls n fltEpsilon ((lupInput A LU).entry n) :=
  smlsMatLupBy_returns (refusal_tiny fltEpsilon_pos) room octets

/-- Success means that the pivot vector is a permutation, that the factors multiply to
the matrix with its rows permuted, and that no multiplier exceeds one. -/
theorem lup_correct {A : Option (Buffer K)} {LU : Buffer K} {P : Buffer UInt8} (room : LupRoom n A LU P)
    (octets : n ≤ 256) : ∃ code factoring, smlsMatLup A LU P n = some (code, factoring) ∧ (code = 0 →
      (∃ positions : Equiv.Perm (Fin n), ∀ i, (positions i : Nat) = factoring.place i) ∧
      (∀ i < n, ∀ j < n, (lupInput A LU).entry n (factoring.place i) j =
        ∑ k ∈ Finset.range (min i j + 1),
          lowerEntry (factoring.entry n) i k * factoring.LU.entry n (factoring.place k) j) ∧
      ∀ i < n, ∀ k ≤ i, |lowerEntry (factoring.entry n) i k| ≤ 1) := by
  obtain ⟨⟨code, factoring⟩, called, ends⟩ := smlsMatLup_returns room octets
  refine ⟨code, factoring, called, ?_⟩
  rintro rfl
  obtain ⟨-, factored⟩ | ⟨refused, -⟩ := ends
  case inr =>
    change 0 = -enotsup at refused
    exact absurd refused (by decide)
  refine ⟨factored.placed.permutation, fun i inRow j inColumn => ?_, fun i inRow k below => ?_⟩
  · rw [← factored.product (refusal_tiny fltEpsilon_pos) inRow inColumn, unpacked_last inRow]
    rfl
  · rw [lowerEntry]
    split
    case isTrue => rw [abs_one]
    case isFalse other => exact factored.multipliers (refusal_tiny fltEpsilon_pos) inRow (by omega)

end

/-- The rows `1, 2` and `4, 3`. -/
def smallMatrix : Buffer ℚ := ⟨4, fun i => [1, 2, 4, 3].getD i 0⟩

/-- The second row becomes the first: it has the larger entry. -/
theorem lup_correct_small : ∃ factoring,
    smlsMatLup (some smallMatrix) ⟨4, fun _ => 0⟩ ⟨2, fun _ => 0⟩ 2 = some (0, factoring) ∧
      factoring.place 0 = 1 ∧
      (∃ positions : Equiv.Perm (Fin 2), ∀ i, (positions i : Nat) = factoring.place i) ∧
      ∀ i < 2, ∀ j < 2, smallMatrix.entry 2 (factoring.place i) j =
        ∑ k ∈ Finset.range (min i j + 1),
          lowerEntry (factoring.entry 2) i k * factoring.LU.entry 2 (factoring.place k) j := by
  have room : LupRoom 2 (some smallMatrix) (⟨4, fun _ => 0⟩ : Buffer ℚ) ⟨2, fun _ => 0⟩ := by
    refine ⟨?_, by decide, by decide⟩
    rintro input ⟨⟩
    decide
  have ran : (smlsMatLup (some smallMatrix) ⟨4, fun _ => 0⟩ ⟨2, fun _ => 0⟩ 2).map
      (fun result => (result.1, result.2.place 0)) = some (0, 1) := by decide +kernel
  obtain ⟨code, factoring, called, success⟩ := lup_correct room (by decide)
  rw [called, Option.map_some, Option.some.injEq, Prod.mk.injEq] at ran
  obtain ⟨rfl, first⟩ := ran
  obtain ⟨positions, product, -⟩ := success rfl
  exact ⟨factoring, called, first, positions, product⟩

end Simuless.Linalg
