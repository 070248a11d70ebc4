import Mathlib.Algebra.Order.Star.Real
import Mathlib.Tactic.NormNum
import Simuless.Foundation.Cholesky
import Simuless.Linalg.CholUpdate

/-! A downdate that is impossible.

Leading zeros of the vector leave every column as it is. The first entry that is
not zero decides: either its column is found impossible, before anything is
written, or it is rewritten, and what a later column finds comes too late.
-/

set_option autoImplicit false

namespace Simuless.Linalg

open Foundation
open scoped Matrix

/-- The matrix that a call leaves, early or not. -/
def leftFactor {K : Type} : Flow (Buffer K) (Buffer K) → Buffer K
  | .leave L => L
  | .proceed L => L

/-- The first entry of the vector that is not zero is as large as the diagonal entry of its column,
and the columns before it have indices that are `int`s, as they always have up to 46340 rows. -/
def DetectedFirst (n : Nat) (L x : Buffer ℝ) : Prop :=
  ∃ k < n, (∀ j < k, x.cells j = 0) ∧ L.entry n k k ≤ |x.cells k| ∧
    (k = 0 ∨ n * (n - 1) + (k - 1) ≤ intMax)

theorem indexed_before {n k j : Nat} (reached : k = 0 ∨ n * (n - 1) + (k - 1) ≤ intMax)
    (before : j < k) : Indexed n j := by
  intro i _ inRow
  have rows : n * i ≤ n * (n - 1) := Nat.mul_le_mul_left n (by omega)
  omega

/-- If the last index of the column before is an `int`, then so is that of the diagonal entry. -/
theorem corner_reached {n k : Nat} (inside : k < n) (reached : k = 0 ∨ n * (n - 1) + (k - 1) ≤ intMax) :
    n * k + k ≤ intMax := by
  rcases Nat.lt_or_ge 46340 n with many | rows
  · rcases reached with rfl | reached
    · rw [Nat.mul_zero]
      exact Nat.zero_le _
    · have large : 46341 * 46340 ≤ n * (n - 1) := Nat.mul_le_mul (by omega) (by omega)
      rw [intMax] at reached ⊢
      have few : n < 46342 := by
        by_contra more
        have larger : 46342 * 46341 ≤ n * (n - 1) := Nat.mul_le_mul (by omega) (by omega)
        omega
      have above : n * (k + 1) ≤ n * (n - 1) := Nat.mul_le_mul_left n (by omega)
      rw [Nat.mul_succ] at above
      omega
  · exact flat_small rows inside inside

section
variable {n k : Nat} {sweep : Sweep ℝ}

theorem radicand_downdate (sweep : Sweep ℝ) (n k : Nat) : radicand false sweep n k =
    sweep.L.entry n k k * sweep.L.entry n k k - sweep.x.cells k * sweep.x.cells k := by
  rw [radicand, weight, if_neg Bool.false_ne_true, neg_one_mul, ← sub_eq_add_neg]

/-- A downdate has a root in this column if and only if its diagonal entry is larger. -/
theorem radicand_pos (positive : 0 < sweep.L.entry n k k) :
    0 < radicand false sweep n k ↔ |sweep.x.cells k| < sweep.L.entry n k k := by
  rw [radicand_downdate, sub_pos, ← abs_lt_iff_mul_self_lt, abs_of_pos positive]

/-- An entry below the diagonal is kept by cosine one and sine zero. -/
theorem cholEntry_untouched (fits : sweep.Fits n) {i : Nat} (under : k < i) (inside : i < n)
    (small : n * i + k ≤ intMax) :
    Returns (cholEntry n k false 1 0 sweep i) (· = sweep) := by
  have index := fits.entry inside (under.trans inside)
  have inVector : i < sweep.x.size := inside.trans_le fits.x
  apply Returns.known (sweep.x.read_inside inVector)
  apply Returns.known (sweep.L.readInt_inside index small)
  apply Returns.known (quotient_nonzero one_ne_zero _)
  rw [if_neg Bool.false_ne_true, zero_mul, sub_zero, div_one]
  apply Returns.known (sweep.L.writeInt_inside index small _)
  rw [Buffer.set_cells]
  apply Returns.known (sweep.L.readInt_inside index small)
  rw [one_mul, zero_mul, sub_zero]
  apply Returns.known (sweep.x.write_inside inVector _)
  rw [Buffer.set_cells]
  exact Returns.done rfl

/-- A zero of the vector leaves its column as it is. -/
theorem cholColumn_untouched (fits : sweep.Fits n) (inside : k < n)
    (positive : 0 < sweep.L.entry n k k) (zero : sweep.x.cells k = 0) (indexed : Indexed n k) :
    Returns (cholColumn Real.sqrt n false sweep k) (· = .proceed sweep) := by
  have square : radicand false sweep n k = sweep.L.entry n k k * sweep.L.entry n k k := by
    rw [radicand_downdate, zero, mul_zero, sub_zero]
  rw [cholColumn_opens Real.sqrt false fits inside positive.ne' (indexed k (Nat.le_refl k) inside), square,
    Real.sqrt_mul_self positive.le, if_neg (not_le.mpr (mul_pos positive positive)),
    div_self positive.ne', zero, zero_div]
  have same : sweep.cornered n k (sweep.L.entry n k k) = sweep := by
    rw [Sweep.cornered, Buffer.entry, Buffer.set_cells]
  obtain ⟨reached, ran, rfl⟩ : Returns ((upTo (k + 1) n).foldlM (cholEntry n k false 1 0) sweep)
      (· = sweep) := by
    refine Returns.loop (fun _ reached => reached = sweep) (Nat.succ_le_of_lt inside) rfl ?_
    rintro i reached under below rfl
    exact cholEntry_untouched fits under below (indexed i (Nat.le_of_lt under) below)
  rw [same, ran]
  exact Returns.done rfl

theorem cholColumn_untouched_ran (fits : sweep.Fits n) (inside : k < n)
    (positive : 0 < sweep.L.entry n k k) (zero : sweep.x.cells k = 0)
    {flow : Flow (Buffer ℝ) (Sweep ℝ)} (ran : cholColumn Real.sqrt n false sweep k = some flow) :
    flow = .proceed sweep ∧ Indexed n k := by
  have possible : 0 < radicand false sweep n k := (radicand_pos positive).mpr (by rwa [zero, abs_zero])
  have ends := cholColumn_ran fits inside positive.ne' (fun possible => (sqrt_exact _ possible).1.ne') ran
  cases flow with
  | leave L => exact absurd possible (not_lt.mpr ends.2)
  | proceed next =>
    have indexed := cholColumn_indexed inside ran
    obtain ⟨flow, ran', rfl⟩ := cholColumn_untouched fits inside positive zero indexed
    exact ⟨Option.some.inj (ran.symm.trans ran'), indexed⟩

/-- The new diagonal entry is another one unless the vector's entry is zero. -/
theorem Swept.corner_ne {next : Sweep ℝ} (nonzero : sweep.x.cells k ≠ 0)
    (possible : 0 < radicand false sweep n k)
    (swept : Swept n k false (Real.sqrt (radicand false sweep n k)) sweep next) :
    next.L.entry n k k ≠ sweep.L.entry n k k := by
  intro same
  have square := Real.mul_self_sqrt possible.le
  rw [← swept.corner, same, radicand_downdate] at square
  have zero : sweep.x.cells k * sweep.x.cells k = 0 := by linarith
  exact nonzero (mul_self_eq_zero.mp zero)

/-- What a column does to a factor, whether it is left or not. -/
theorem cholColumn_factor_ran (fits : sweep.Fits n) (factor : CholFactor n (sweep.L.entry n))
    (inside : k < n) {flow : Flow (Buffer ℝ) (Sweep ℝ)}
    (ran : cholColumn Real.sqrt n false sweep k = some flow) : Flow.Ends
      (fun L => L = sweep.L ∧ ¬ 0 < radicand false sweep n k)
      (fun next => 0 < radicand false sweep n k ∧ CholFactor n (next.L.entry n) ∧
        Swept n k false (Real.sqrt (radicand false sweep n k)) sweep next) flow := by
  have ends := cholColumn_ran fits inside (factor.diagonal k inside).ne'
    (fun possible => (sqrt_exact _ possible).1.ne') ran
  cases flow with
  | leave L => exact ⟨ends.1, not_lt.mpr ends.2⟩
  | proceed next =>
    obtain ⟨possible, swept⟩ := ends
    exact ⟨possible, swept.factor factor (sqrt_exact _ possible).1, swept⟩

end

/-! The whole call. -/

section
variable {n : Nat} {L x : Buffer ℝ}

/-- The state a call starts its sweep from. -/
def startSweep (n : Nat) (L x : Buffer ℝ) : Sweep ℝ := ⟨L, ⟨n, fun i => if i < n then x.cells i else 0⟩⟩

theorem startSweep_x {k : Nat} (inside : k < n) : (startSweep n L x).x.cells k = x.cells k := if_pos inside

/-- What a sweep that has a result carries through its columns holds of what the call leaves. -/
theorem cholDowndate_ran (holds : Nat → Sweep ℝ → Prop) (goal : Buffer ℝ → Prop) (inside : n ≤ x.size)
    (start : holds 0 (startSweep n L x))
    (column : ∀ k sweep flow, k < n → holds k sweep → cholColumn Real.sqrt n false sweep k = some flow →
      Flow.Ends goal (holds (k + 1)) flow)
    (last : ∀ sweep, holds n sweep → goal sweep.L) {flow : Flow (Buffer ℝ) (Buffer ℝ)}
    (called : smlsMatCholUpdate Real.sqrt L x n false = some flow) : goal (leftFactor flow) := by
  rw [smlsMatCholUpdate, Returns.bind_known (Buffer.copy_whole x n (fun _ => 0) inside)] at called
  obtain ⟨swept, looped, rest⟩ := Option.bind_eq_some_iff.mp called
  have ends := Returns.flow_ran holds goal (Nat.zero_le n) start
    (fun k sweep flow _ below => column k sweep flow below) looped
  cases swept with
  | leave L =>
    obtain rfl := Option.some.inj rest
    exact ends
  | proceed sweep =>
    obtain rfl := Option.some.inj rest
    exact last sweep ends

/-- The first entry that is not zero. -/
structure FirstEntry (n : Nat) (x : Buffer ℝ) (k : Nat) : Prop where
  inside : k < n
  zeros : ∀ j < k, x.cells j = 0
  nonzero : x.cells k ≠ 0

variable {k : Nat} (room : n * n ≤ L.size ∧ n ≤ x.size) (factor : CholFactor n (L.entry n))
include room factor

theorem detected_unchanged (detected : DetectedFirst n L x) :
    Returns (smlsMatCholUpdate Real.sqrt L x n false) fun flow => leftFactor flow = L := by
  obtain ⟨k, inside, zeros, large, reached⟩ := detected
  have fits : (startSweep n L x).Fits n := ⟨room.1, Nat.le_refl n⟩
  have before (j : Nat) (first : j < k) :
      Returns (cholColumn Real.sqrt n false (startSweep n L x) j) (· = .proceed (startSweep n L x)) := by
    have below := first.trans inside
    exact cholColumn_untouched fits below (factor.diagonal j below)
      ((startSweep_x below).trans (zeros j first)) (indexed_before reached first)
  have here : cholColumn Real.sqrt n false (startSweep n L x) k = some (.leave L) := by
    have positive : 0 < (startSweep n L x).L.entry n k k := factor.diagonal k inside
    rw [cholColumn_opens Real.sqrt false fits inside positive.ne' (corner_reached inside reached)]
    refine if_pos (not_lt.mp fun possible => ?_)
    rw [radicand_pos positive, startSweep_x inside] at possible
    exact absurd possible (not_lt.mpr large)
  refine Returns.known (Buffer.copy_whole x n (fun _ => 0) room.2) ?_
  refine Returns.next (Returns.flow (fun i sweep => i ≤ k ∧ sweep = startSweep n L x) (· = L)
    (Nat.zero_le n) ⟨Nat.zero_le k, rfl⟩ ?_) fun flow _ ends => ?_
  · rintro i sweep - - ⟨first, rfl⟩
    rcases Nat.lt_or_eq_of_le first with first | rfl
    · refine (before i first).weaken ?_
      rintro flow rfl
      exact ⟨first, rfl⟩
    · exact ⟨_, here, rfl⟩
  · cases flow with
    | leave L' => exact Returns.done ends
    | proceed sweep => exact Returns.done (congrArg Sweep.L ends.2)

theorem undetected_changed (first : FirstEntry n x k) (smaller : |x.cells k| < L.entry n k k)
    {flow : Flow (Buffer ℝ) (Buffer ℝ)} (called : smlsMatCholUpdate Real.sqrt L x n false = some flow) :
    (leftFactor flow).entry n k k ≠ L.entry n k k := by
  have fits : (startSweep n L x).Fits n := ⟨room.1, Nat.le_refl n⟩
  have inside := first.inside
  -- up to column k the sweep is where it started, and from there on the corner differs
  refine cholDowndate_ran (fun i sweep => i ≤ k ∧ sweep = startSweep n L x ∨
    k < i ∧ sweep.Fits n ∧ CholFactor n (sweep.L.entry n) ∧ sweep.L.entry n k k ≠ L.entry n k k)
    (fun left => left.entry n k k ≠ L.entry n k k) room.2 (Or.inl ⟨Nat.zero_le k, rfl⟩) ?_ ?_ called
  · rintro i sweep flow below (⟨before, rfl⟩ | ⟨behind, fits', factor', different⟩) ran
    · have positive : 0 < (startSweep n L x).L.entry n i i := factor.diagonal i below
      rcases Nat.lt_or_eq_of_le before with before | rfl
      · have zero := (startSweep_x (L := L) below).trans (first.zeros i before)
        obtain ⟨rfl, -⟩ := cholColumn_untouched_ran fits below positive zero ran
        exact Or.inl ⟨before, rfl⟩
      · have ends := cholColumn_factor_ran fits factor below ran
        have possible : 0 < radicand false (startSweep n L x) n i := by
          rw [radicand_pos positive, startSweep_x below]
          exact smaller
        cases flow with
        | leave L' => exact absurd possible ends.2
        | proceed next =>
          obtain ⟨-, factor', swept⟩ := ends
          refine Or.inr ⟨Nat.lt_succ_self i, swept.fits, factor', ?_⟩
          exact swept.corner_ne ((startSweep_x below).trans_ne first.nonzero) possible
    · have ends := cholColumn_factor_ran fits' factor' below ran
      cases flow with
      | leave L' =>
        obtain ⟨rfl, -⟩ := ends
        exact different
      | proceed next =>
        obtain ⟨-, factor'', swept⟩ := ends
        refine Or.inr ⟨Nat.lt_succ_of_lt behind, swept.fits, factor'', ?_⟩
        rw [swept.others k inside k inside (Or.inl (Nat.ne_of_lt behind))]
        exact different
  · rintro sweep (⟨whole, -⟩ | ⟨-, -, -, different⟩)
    · exact absurd inside (Nat.not_lt.mpr whole)
    · exact different

/-- A call that has a result has gone through the columns before the first entry. -/
theorem first_reached (first : FirstEntry n x k) {flow : Flow (Buffer ℝ) (Buffer ℝ)}
    (called : smlsMatCholUpdate Real.sqrt L x n false = some flow) :
    k = 0 ∨ n * (n - 1) + (k - 1) ≤ intMax := by
  have fits : (startSweep n L x).Fits n := ⟨room.1, Nat.le_refl n⟩
  have inside := first.inside
  have before : ∀ j < k, Indexed n j := by
    refine cholDowndate_ran (fun i sweep => (i ≤ k → sweep = startSweep n L x) ∧
      ∀ j < i, j < k → Indexed n j) (fun _ => ∀ j < k, Indexed n j) room.2
        ⟨fun _ => rfl, fun j none => absurd none (Nat.not_lt_zero j)⟩ ?_ ?_ called
    · intro i sweep flow below held ran
      obtain ⟨untouched, earlier⟩ := held
      rcases Nat.lt_or_ge i k with early | late
      · obtain rfl := untouched early.le
        obtain ⟨rfl, indexed⟩ := cholColumn_untouched_ran fits below (factor.diagonal i below)
          ((startSweep_x below).trans (first.zeros i early)) ran
        refine ⟨fun _ => rfl, fun j some_turn inner => ?_⟩
        rcases Nat.lt_succ_iff_lt_or_eq.mp some_turn with some_turn | rfl
        · exact earlier j some_turn inner
        · exact indexed
      · have all : ∀ j < k, Indexed n j := fun j inner => earlier j (by omega) inner
        cases flow with
        | leave L' => exact all
        | proceed next => exact ⟨fun none => absurd none (by omega), fun j _ => all j⟩
    · intro sweep held j inner
      exact held.2 j (inner.trans inside) inner
  rcases Nat.eq_zero_or_pos k with zero | positive
  · exact Or.inl zero
  · exact Or.inr (before (k - 1) (by omega) (n - 1) (by omega) (by omega))

end

/-- There is no factor for the matrix that the downdate is to lead to. -/
def Impossible (n : Nat) (L x : Buffer ℝ) : Prop :=
  ¬ (L.matrix n * (L.matrix n)ᵀ - Matrix.vecMulVec (x.vector n) (x.vector n)).PosDef

/-- An impossible downdate returns with the factor as it was. -/
def LeavesIntact (n : Nat) (L x : Buffer ℝ) : Prop := Impossible n L x →
  ∃ flow, smlsMatCholUpdate Real.sqrt L x n false = some flow ∧ leftFactor flow = L

theorem CholFactor.posDef {n : Nat} {L : Buffer ℝ} (factor : CholFactor n (L.entry n)) :
    (L.matrix n * (L.matrix n)ᵀ).PosDef := by
  refine Eq.mp (congrArg Matrix.PosDef ?_)
    (gram_posDef factor.lower fun i inside => (factor.diagonal i inside).ne')
  ext i j
  exact (gram_matrix L i j).symm

/-- A vector of zeros takes nothing away. -/
theorem impossible_entry {n : Nat} {L x : Buffer ℝ} (factor : CholFactor n (L.entry n))
    (impossible : Impossible n L x) : ∃ k, FirstEntry n x k := by
  have some_entry : ∃ k, k < n ∧ x.cells k ≠ 0 := by
    by_contra none
    push Not at none
    apply impossible
    have zeros : x.vector n = 0 := funext fun i => none i i.isLt
    rw [zeros, Matrix.zero_vecMulVec, sub_zero]
    exact factor.posDef
  classical
  have first := Nat.find_spec some_entry
  refine ⟨Nat.find some_entry, first.1, fun j before => ?_, first.2⟩
  by_contra nonzero
  exact Nat.find_min some_entry before ⟨before.trans first.1, nonzero⟩

/-- It does so exactly where the first entry of the vector that is not zero already shows that the
downdate is impossible, and is come to. -/
theorem leavesIntact_iff {n : Nat} {L x : Buffer ℝ} (room : n * n ≤ L.size ∧ n ≤ x.size)
    (factor : CholFactor n (L.entry n)) :
    LeavesIntact n L x ↔ (Impossible n L x → DetectedFirst n L x) := by
  apply imp_congr_right
  intro impossible
  constructor
  · rintro ⟨flow, called, same⟩
    obtain ⟨k, first⟩ := impossible_entry factor impossible
    refine ⟨k, first.inside, first.zeros, ?_, first_reached room factor first called⟩
    by_contra smaller
    have different := undetected_changed room factor first (not_le.mp smaller) called
    rw [same] at different
    exact different rfl
  · exact detected_unchanged room factor

/-- Five times the identity of two rows, and a vector too long for it in its second entry. -/
def fiveFactor : Buffer ℝ := ⟨4, fun i => if i = 0 ∨ i = 3 then 5 else 0⟩

def longVector : Buffer ℝ := ⟨2, fun i => if i = 0 then 3 else 5⟩

theorem fiveFactor_factor : CholFactor 2 (fiveFactor.entry 2) where
  lower := by
    intro i _ j inColumn before
    exact if_neg (by omega)
  diagonal := by
    intro i inRow
    have kept : fiveFactor.entry 2 i i = 5 := if_pos (by omega)
    rw [kept]
    norm_num

theorem five_room : 2 * 2 ≤ fiveFactor.size ∧ 2 ≤ longVector.size := ⟨by decide, by decide⟩

theorem leavesIntact_iff_five : LeavesIntact 2 fiveFactor longVector ↔
    (Impossible 2 fiveFactor longVector → DetectedFirst 2 fiveFactor longVector) :=
  leavesIntact_iff five_room fiveFactor_factor

/-- The first column is rewritten before the second is found impossible. -/
theorem downdate_not_intact : CholFactor 2 (fiveFactor.entry 2) ∧
    Impossible 2 fiveFactor longVector ∧ ¬ LeavesIntact 2 fiveFactor longVector := by
  have impossible : Impossible 2 fiveFactor longVector := by
    intro definite
    have positive := definite.diag_pos (i := 1)
    rw [Matrix.sub_apply, gram_matrix] at positive
    simp [gram, Finset.sum_range_succ, Buffer.entry, Buffer.vector, fiveFactor, longVector,
      Matrix.vecMulVec] at positive
  refine ⟨fiveFactor_factor, impossible, fun intact => ?_⟩
  obtain ⟨flow, called, same⟩ := intact impossible
  have smaller : |longVector.cells 0| < fiveFactor.entry 2 0 0 := by
    simp only [longVector, fiveFactor, Buffer.entry]
    norm_num
  have nonzero : longVector.cells 0 ≠ 0 := by
    simp only [longVector]
    norm_num
  have first : FirstEntry 2 longVector 0 :=
    ⟨Nat.two_pos, fun j before => absurd before (Nat.not_lt_zero j), nonzero⟩
  have different := undetected_changed five_room fiveFactor_factor first smaller called
  rw [same] at different
  exact different rfl

end Simuless.Linalg
