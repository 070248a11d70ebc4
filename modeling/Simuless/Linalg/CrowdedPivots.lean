import Mathlib.Data.Fintype.Card
import Mathlib.Data.UInt
import Simuless.Linalg.Lup

/-! Factorisation of more rows than an octet counts.

Positions then share rows. A row that was a pivot and stands in a later position
as well is eliminated with itself: nothing is left of it, and it is no pivot
again. So the pivots have different rows, and there are 256 of them at most.
-/

set_option autoImplicit false

namespace Simuless.Linalg

open Foundation

variable {K : Type} [Field K] [LinearOrder K]

/-! One row. -/

section
variable {n i j : Nat} {factoring : Factoring K}

/-- What a stage with pivot row `p` makes of row `r`. -/
def crowdedEntry (i p r : Nat) (LU : Nat → Nat → K) (c : Nat) : K :=
  if c = i then LU r i / LU p i else LU r c - LU p c * (LU r i / LU p i)

/-- The columns of the row from the pivot up to `k` are handled. -/
structure CrowdedRow (n i j : Nat) (start : Factoring K) (k : Nat) (factoring : Factoring K) : Prop where
  P : factoring.P = start.P
  size : factoring.LU.size = start.LU.size
  entries : ∀ r, ∀ c < n, factoring.LU.entry n r c =
    if r = start.place j ∧ i ≤ c ∧ c < k then crowdedEntry i (start.place i) r (start.LU.entry n) c
    else start.LU.entry n r c

omit [Field K] [LinearOrder K] in
theorem Factoring.place_congr {start : Factoring K} (P : factoring.P = start.P) (t : Nat) :
    factoring.place t = start.place t := by
  rw [Factoring.place, P, Factoring.place]

omit [Field K] [LinearOrder K] in
theorem Factoring.Fits.congr {start : Factoring K} (fits : start.Fits n) (P : factoring.P = start.P)
    (size : factoring.LU.size = start.LU.size) : factoring.Fits n := by
  refine ⟨size.symm ▸ fits.LU, P.symm ▸ fits.P, fun t below => ?_⟩
  rw [Factoring.place_congr P]
  exact fits.place_lt t below

/-- A row is handled with the pivot row even if it is the pivot row. -/
theorem lupRow_crowded (fits : factoring.Fits n) (under : i < j) (inside : j < n)
    (pivot : factoring.entry n i i ≠ 0) :
    Returns (lupRow n i factoring j) (CrowdedRow n i j factoring n) := by
  have pivotRow : i < n := under.trans inside
  apply Returns.known (fits.read inside pivotRow)
  apply Returns.known (fits.read pivotRow pivotRow)
  apply Returns.known (quotient_nonzero pivot _)
  apply Returns.known (fits.write inside pivotRow _)
  refine Returns.loop (fun k => CrowdedRow n i j factoring k) (Nat.succ_le_of_lt pivotRow)
    ⟨rfl, rfl, fun r c inColumn => ?_⟩ ?_
  · refine (Buffer.entry_set pivotRow inColumn _).trans ?_
    by_cases here : r = factoring.place j ∧ c = i
    · rw [if_pos here, if_pos (by omega), crowdedEntry, if_pos here.2, here.1]
      rfl
    · rw [if_neg here, if_neg (by omega)]
  · intro k current right inColumn part
    have fits' := fits.congr part.P part.size
    have place := Factoring.place_congr part.P
    have value : current.entry n j k - current.entry n i k * current.entry n j i =
        crowdedEntry i (factoring.place i) (factoring.place j) (factoring.LU.entry n) k := by
      rw [Factoring.entry, Factoring.entry, Factoring.entry, place, place, part.entries _ k inColumn,
        part.entries _ k inColumn, part.entries _ i pivotRow, if_neg (by omega), if_neg (by omega),
        if_pos (by omega), crowdedEntry, crowdedEntry, if_pos rfl, if_neg (by omega)]
    apply Returns.known (fits'.read inside inColumn)
    apply Returns.known (fits'.read pivotRow inColumn)
    apply Returns.known (fits'.read inside pivotRow)
    rw [fits'.write inside inColumn, value]
    refine Returns.done ⟨part.P, part.size, fun r c inColumn' => ?_⟩
    refine (Buffer.entry_set inColumn inColumn' _).trans ?_
    rw [place, part.entries r c inColumn']
    by_cases here : r = factoring.place j ∧ c = k
    · rw [if_pos here, if_pos (by omega), here.1, here.2]
    · rw [if_neg here]
      exact if_congr (by omega) rfl rfl

/-- From this column on nothing is left of a row. -/
def Dead (n i : Nat) (factoring : Factoring K) (r : Nat) : Prop :=
  ∀ c, i ≤ c → c < n → factoring.LU.entry n r c = 0

/-- The rows below the pivot up to position `j` are handled: dead rows stay dead, and the
pivot row is one of them if it stood in a handled position too. -/
structure CrowdedRows (n i : Nat) (start : Factoring K) (j : Nat) (factoring : Factoring K) : Prop where
  P : factoring.P = start.P
  size : factoring.LU.size = start.LU.size
  pivot : factoring.entry n i i ≠ 0
  dead : ∀ r, Dead n i start r → Dead n i factoring r
  own : ∀ s, i < s → s < j → start.place s = start.place i → Dead n (i + 1) factoring (start.place i)

theorem CrowdedRows.next {start : Factoring K} (part : CrowdedRows n i start j factoring)
    (fits : start.Fits n) (under : i < j) (inside : j < n) :
    Returns (lupRow n i factoring j) (CrowdedRows n i start (j + 1)) := by
  have pivotRow : i < n := under.trans inside
  have fits' := fits.congr part.P part.size
  have place := Factoring.place_congr part.P
  refine (lupRow_crowded fits' under inside part.pivot).weaken fun next row => ?_
  have place' := Factoring.place_congr row.P i
  -- a row of zeros has the multiplier zero, and the pivot row itself the multiplier one
  have zeros (r : Nat) (c : Nat) (from_pivot : i ≤ c) (inColumn : c < n)
      (none : ∀ c, i ≤ c → c < n → factoring.LU.entry n r c = 0) : next.LU.entry n r c = 0 := by
    rw [row.entries r c inColumn]
    split
    · rw [crowdedEntry, none i (Nat.le_refl i) pivotRow, none c from_pivot inColumn, zero_div, mul_zero,
        sub_zero, ite_self]
    · exact none c from_pivot inColumn
  have itself : factoring.LU.entry n (factoring.place i) i ≠ 0 := part.pivot
  refine ⟨row.P.trans part.P, row.size.trans part.size, ?_, fun r none c from_pivot inColumn => ?_,
    fun s behind before same c from_next inColumn => ?_⟩
  · rw [Factoring.entry, place', row.entries _ i pivotRow]
    split
    · rw [crowdedEntry, if_pos rfl, div_self itself]
      exact one_ne_zero
    · exact itself
  · exact zeros r c from_pivot inColumn (part.dead r none)
  · rw [← place, row.entries _ c inColumn]
    by_cases here : factoring.place i = factoring.place j ∧ i ≤ c ∧ c < n
    · rw [if_pos here, crowdedEntry, if_neg (by omega), div_self itself, mul_one, sub_self]
    · rw [if_neg here]
      have earlier : s < j := by
        rcases Nat.lt_succ_iff_lt_or_eq.mp before with earlier | rfl
        · exact earlier
        · rw [place, place] at here
          exact absurd ⟨same.symm, (Nat.le_succ i).trans from_next, inColumn⟩ here
      rw [place]
      exact part.own s behind earlier same c from_next inColumn

end

/-! The stages. -/

section
variable {n i : Nat} {refused : K → Prop} [DecidablePred refused] {factoring : Factoring K}

/-- Finished positions have different rows, and those that also stand in a later position
are dead. -/
structure Crowded (n i : Nat) (factoring : Factoring K) : Prop where
  fits : factoring.Fits n
  distinct : ∀ t < i, ∀ s < i, factoring.place t = factoring.place s → t = s
  dead : ∀ t < i, ∀ j, i ≤ j → j < n → factoring.place j = factoring.place t →
    Dead n i factoring (factoring.place t)

theorem lupSearch_returns (fits : factoring.Fits n) (inside : i < n) :
    Returns (lupSearch n i factoring) fun best => i ≤ best ∧ best < n := by
  refine Returns.loop (fun _ (best : Nat) => i ≤ best ∧ best < n) (Nat.succ_le_of_lt inside)
    ⟨Nat.le_refl i, inside⟩ ?_
  intro j best under below found
  apply Returns.known (fits.read below inside)
  apply Returns.known (fits.read found.2 inside)
  refine Returns.done ?_
  split
  · exact ⟨Nat.le_of_succ_le under, below⟩
  · exact found

omit [LinearOrder K] in
/-- An exchange of unfinished positions changes nothing about the finished ones. -/
theorem Crowded.exchanged {P : Buffer UInt8} {best : Nat} (crowded : Crowded n i factoring)
    (size : P.size = factoring.P.size) (inside : i < n) (inside' : best < n) (behind : i ≤ best)
    (place : ∀ t, (⟨factoring.LU, P⟩ : Factoring K).place t =
      factoring.place (Equiv.swap i best t)) : Crowded n i ⟨factoring.LU, P⟩ := by
  have finished (t : Nat) (before : t < i) :
      (⟨factoring.LU, P⟩ : Factoring K).place t = factoring.place t := by
    rw [place, swap_finished behind before]
  refine ⟨⟨crowded.fits.LU, size.symm ▸ crowded.fits.P, fun t below => ?_⟩,
    fun t before s before' same => ?_, fun t before j under below same => ?_⟩
  · rw [place]
    exact crowded.fits.place_lt _ (swap_lt inside inside' below)
  · rw [finished t before, finished s before'] at same
    exact crowded.distinct t before s before' same
  · rw [place, finished t before] at same
    rw [finished t before]
    exact crowded.dead t before _ (swap_unfinished behind under) (swap_lt inside inside' below) same

omit [LinearOrder K] in
/-- A pivot that is not zero stands in no finished row, since that would be dead. -/
theorem Crowded.fresh (crowded : Crowded n i factoring) (inside : i < n)
    (nonzero : factoring.entry n i i ≠ 0) {t : Nat} (before : t < i) :
    factoring.place i ≠ factoring.place t := by
  intro same
  refine nonzero ?_
  rw [Factoring.entry, same]
  exact crowded.dead t before i (Nat.le_refl i) inside same i (Nat.le_refl i) inside

omit [LinearOrder K] in
/-- Behind all rows of a stage one more position is finished. -/
theorem Crowded.pass {next : Factoring K} (crowded : Crowded n i factoring) (inside : i < n)
    (nonzero : factoring.entry n i i ≠ 0) (part : CrowdedRows n i factoring n next) :
    Crowded n (i + 1) next := by
  have place := Factoring.place_congr part.P
  refine ⟨crowded.fits.congr part.P part.size, fun t before s before' same => ?_,
    fun t before j under below same c from_next inColumn => ?_⟩
  · rw [place, place] at same
    rcases Nat.lt_succ_iff_lt_or_eq.mp before with early | rfl
    · rcases Nat.lt_succ_iff_lt_or_eq.mp before' with early' | rfl
      · exact crowded.distinct t early s early' same
      · exact absurd same.symm (crowded.fresh inside nonzero early)
    · rcases Nat.lt_succ_iff_lt_or_eq.mp before' with early' | rfl
      · exact absurd same (crowded.fresh inside nonzero early')
      · rfl
  · rw [place, place] at same
    rw [place]
    rcases Nat.lt_succ_iff_lt_or_eq.mp before with early | rfl
    · have none := crowded.dead t early j (Nat.le_of_succ_le under) below same
      exact part.dead _ none c (Nat.le_of_succ_le from_next) inColumn
    · exact part.own j under below same c from_next inColumn

theorem Crowded.advance (refusal : Refusal refused) (crowded : Crowded n i factoring)
    (inside : i < n - 1) : Returns (lupStage refused n factoring i)
      (Flow.Ends (fun _ => True) (Crowded n (i + 1))) := by
  have row : i < n := by omega
  refine Returns.next (lupSearch_returns crowded.fits row) fun best _ ⟨behind, inside'⟩ => ?_
  refine Returns.next (lupSwap_exchanges (row.trans_le crowded.fits.P)
    (inside'.trans_le crowded.fits.P)) fun P _ ⟨size, cells⟩ => ?_
  let swapped : Factoring K := ⟨factoring.LU, P⟩
  have exchanged : Crowded n i swapped := crowded.exchanged size row inside' behind fun t =>
    congrArg UInt8.toNat (cells t)
  apply Returns.known (exchanged.fits.read row row)
  apply Returns.check
  · intro _
    exact Returns.done trivial
  · intro accepted
    have nonzero : swapped.entry n i i ≠ 0 := refusal.nonzero accepted
    have start : CrowdedRows n i swapped (i + 1) swapped :=
      ⟨rfl, rfl, nonzero, fun _ none => none, fun s behind before => by omega⟩
    refine Returns.next (Returns.loop (fun j => CrowdedRows n i swapped j) (Nat.succ_le_of_lt row) start
      fun j current under below part => part.next exchanged.fits under below) fun next _ part => ?_
    exact Returns.done (exchanged.pass row nonzero part)

/-- With more than 257 rows the factorisation always gives up. -/
theorem smlsMatLupBy_crowded {A : Option (Buffer K)} {LU : Buffer K} {P : Buffer UInt8}
    (refusal : Refusal refused) (room : LupRoom n A LU P) (many : 257 < n) :
    Returns (smlsMatLupBy refused A LU P n) fun result => result.1 = -enotsup := by
  refine Returns.next (lupCopy_entries room) fun LU' _ ⟨size, _⟩ => ?_
  refine Returns.next (lupPositions_counted room.P) fun P' _ ⟨size', _⟩ => ?_
  have octet (factoring : Factoring K) (t : Nat) : factoring.place t < 256 :=
    (factoring.P.cells t).toNat_lt
  have start : Crowded n 0 ⟨LU', P'⟩ := by
    refine ⟨⟨size ▸ room.LU, size' ▸ room.P, fun t _ => ?_⟩, fun t before => ?_, fun t before => ?_⟩
    · exact (octet _ t).trans (by omega)
    · exact absurd before (Nat.not_lt_zero t)
    · exact absurd before (Nat.not_lt_zero t)
  refine Returns.next (Returns.flow (Crowded n) (fun _ => True) (Nat.zero_le (n - 1)) start
    fun stage reached _ inside crowded => crowded.advance refusal inside) fun flow _ ends => ?_
  cases flow with
  | leave left => exact Returns.done rfl
  | proceed factoring =>
    -- more finished positions than octets
    have distinct : Crowded n (n - 1) factoring := ends
    let row (t : Fin 257) : Fin 256 := ⟨factoring.place t, octet factoring t⟩
    have injective : Function.Injective row := fun t s same => Fin.ext
      (distinct.distinct t (by omega) s (by omega) (Fin.mk.inj same))
    have counted := Fintype.card_le_of_injective row injective
    rw [Fintype.card_fin, Fintype.card_fin] at counted
    omega

end

end Simuless.Linalg
