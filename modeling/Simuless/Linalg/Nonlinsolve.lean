import Mathlib.Algebra.Order.Floor.Semiring
import Simuless.Foundation.BestSoFar
import Simuless.Linalg.NormTwo

/-! Solving nonlinear equations.

Random guesses come first, if they are asked for, and steps against what the
equations give follow. The point where they gave least is what is returned.
-/

set_option autoImplicit false

namespace Simuless.Linalg

open Foundation

variable {K : Type}

/-- `FLT_MAX`. -/
def fltMax [Field K] : K := (16777215 * 2 ^ 104 : Nat)

/-- `best_sqrt_sum_dx` and `best_x`. -/
structure Best (K : Type) where
  sqrtSumDx : K
  x : Buffer K

structure Guessing (K : Type) where
  x : Buffer K
  best : Best K

/-- What the steps change. -/
structure Stepping (K : Type) where
  x : Buffer K
  best : Best K
  pastSqrtSumDx : K
  breakCount : Nat
  pastGradients : Buffer UInt8
  gradientIndex : Nat

def randomIterations : Nat := 20000

def timesUntilBreak : Nat := 10

def maximumGradientsIndex : Nat := 30

section
variable [Field K] [LinearOrder K]

/-- `(uint8_t)y`, which has no value beyond the range of the type. -/
def toUint8 [FloorSemiring K] (y : K) : Option UInt8 :=
  if -1 < y ∧ y < ((256 : Nat) : K) then some (UInt8.ofNat ⌊y⌋₊) else none

/-- `x[j] = difference_value * random + min_value`. -/
def guessEntry (random : Nat → K) (differenceValue minValue : K) (x : Buffer K) (j : Nat) :
    Option (Buffer K) := x.write j (differenceValue * random j + minValue)

/-- `x[j] -= (alpha + (float)past_gradients[gradient_index]) * dx[j]`. -/
def stepEntry (alpha : K) (pastGradients : Buffer UInt8) (gradientIndex : Nat) (dx x : Buffer K)
    (j : Nat) : Option (Buffer K) := do
  let xj ← x.read j
  let gradient ← pastGradients.read gradientIndex
  let dxj ← dx.read j
  x.write j (xj - (alpha + (gradient.toNat : K)) * dxj)

variable (sqrtf : K → K)

/-- The norm of a row, which needs no singular values. -/
def lengthOf (dx : Buffer K) (elements : Nat) : Option K :=
  smlsMatNormTwo sqrtf (fun _ _ _ => none) dx 1 elements

def checkSolution (elements : Nat) (dx x : Buffer K) (best : Best K) : Option (K × Best K) := do
  let sqrtSumDx ← lengthOf sqrtf dx elements
  if sqrtSumDx < best.sqrtSumDx then
    let bestX ← best.x.copy x elements
    return (sqrtSumDx, ⟨sqrtSumDx, bestX⟩)
  else return (sqrtSumDx, best)

variable (system : Buffer K → Buffer K → Nat → K) (b : Buffer K) (elements : Nat)

/-- The array `dx` as the equations fill it. -/
def equations (x : Buffer K) : Buffer K := ⟨elements, system b x⟩

/-- `random` gives `(float)rand() / (float)RAND_MAX` for each turn and entry. -/
def guessTurn (random : Nat → Nat → K) (maxValue minValue : K) (guess : Guessing K) (i : Nat) :
    Option (Guessing K) := do
  let x ← (upTo 0 elements).foldlM (guessEntry (random i) (maxValue - minValue) minValue) guess.x
  let (_, best) ← checkSolution sqrtf elements (equations system b elements x) x guess.best
  return ⟨x, best⟩

/-- `stack` is what `best_x` holds before it is written. -/
def guesses (random : Nat → Nat → K) (stack : Nat → K) (maxValue minValue : K) (randomGuessActive : Bool)
    (x : Buffer K) : Option (Guessing K) := do
  let start : Guessing K := ⟨x, ⟨fltMax, ⟨elements, stack⟩⟩⟩
  if randomGuessActive then
    let guess ← (upTo 0 randomIterations).foldlM
      (guessTurn sqrtf system b elements random maxValue minValue) start
    let x ← guess.x.copy guess.best.x elements
    return { guess with x }
  else return start

def startStepping (guess : Guessing K) : Stepping K :=
  ⟨guess.x, guess.best, 0, 0, ⟨maximumGradientsIndex, fun _ => 0⟩, 0⟩

/-- The rest of a turn that goes on. -/
def stepOn [FloorSemiring K] (alpha sqrtSumDx : K) (breakCount : Nat) (best : Best K) (dx : Buffer K)
    (state : Stepping K) : Option (Stepping K) := do
  let x ← (upTo 0 elements).foldlM (stepEntry alpha state.pastGradients state.gradientIndex dx) state.x
  let length ← lengthOf sqrtf dx elements
  let gradient ← toUint8 (alpha * length)
  let pastGradients ← state.pastGradients.write state.gradientIndex gradient
  let next := state.gradientIndex + 1
  return ⟨x, best, sqrtSumDx, breakCount, pastGradients, if maximumGradientsIndex ≤ next then 0 else next⟩

def stepTurn [FloorSemiring K] (alpha : K) (state : Stepping K) (_i : Nat) :
    Option (Flow (Stepping K) (Stepping K)) := do
  let dx := equations system b elements state.x
  let (sqrtSumDx, best) ← checkSolution sqrtf elements dx state.x state.best
  if |state.pastSqrtSumDx - sqrtSumDx| ≤ fltEpsilon ∨ state.pastSqrtSumDx = sqrtSumDx then
    -- never set back: the standstills need not follow one another
    let breakCount := state.breakCount + 1
    if timesUntilBreak ≤ breakCount then return .leave { state with best, breakCount }
    let state ← stepOn sqrtf elements alpha sqrtSumDx breakCount best dx state
    return .proceed state
  else
    let state ← stepOn sqrtf elements alpha sqrtSumDx state.breakCount best dx state
    return .proceed state

/-- What `x` holds. -/
def smlsNonlinsolve [FloorSemiring K] (elements : UInt8) (random : Nat → Nat → K) (stack : Nat → K)
    (alpha maxValue minValue : K) (randomGuessActive : Bool) (x : Buffer K) : Option (Buffer K) := do
  let guess ← guesses sqrtf system b elements.toNat random stack maxValue minValue randomGuessActive x
  match ← flowLoop (stepTurn sqrtf system b elements.toNat alpha) (upTo 0 randomIterations)
      (startStepping guess) with
  | .leave state => state.x.copy state.best.x elements.toNat
  | .proceed state => state.x.copy state.best.x elements.toNat

end

/-! Residuals. -/

section
variable {system : Buffer ℝ → Buffer ℝ → Nat → ℝ} {b x : Buffer ℝ} {elements : Nat}

/-- The length of what the equations give at a point. -/
noncomputable def residualAt (system : Buffer ℝ → Buffer ℝ → Nat → ℝ) (b : Buffer ℝ) (elements : Nat)
    (x : Buffer ℝ) : ℝ :=
  Real.sqrt (∑ i ∈ Finset.range elements, system b x i * system b x i)

theorem lengthOf_equations (octet : elements ≤ 255) (x : Buffer ℝ) :
    lengthOf Real.sqrt (equations system b elements x) elements =
      some (residualAt system b elements x) := by
  have all : 1 * elements = elements := Nat.one_mul elements
  have taken := Buffer.copy_whole (equations system b elements x) (1 * elements) (fun _ => 0) all.le
  let row : Buffer ℝ := ⟨1 * elements, fun i => if i < 1 * elements then system b x i else 0⟩
  obtain ⟨sum, ran, squares⟩ : Returns ((upTo 0 elements).foldlM (normSquare row) 0) fun sum =>
      sum = ∑ i ∈ Finset.range elements, system b x i * system b x i := by
    refine Returns.loop (fun t (sum : ℝ) => sum = ∑ i ∈ Finset.range t, system b x i * system b x i)
      (Nat.zero_le elements) (Finset.sum_range_zero _).symm ?_
    rintro i sum - below rfl
    have inside : i < 1 * elements := all.symm ▸ below
    have cell : row.cells i = system b x i := if_pos inside
    apply Returns.known (row.read_inside inside)
    rw [cell]
    exact Returns.done (Finset.sum_range_succ _ i).symm
  have small : 1 * elements ≤ intMax := all.le.trans (octet.trans (by decide))
  rw [lengthOf, smlsMatNormTwo, asInt_small small, Option.bind_eq_bind, Option.bind_some, taken,
    Option.bind_eq_bind, Option.bind_some, if_pos rfl]
  refine (congrArg (· >>= root Real.sqrt) ran).trans ?_
  have nonneg : ¬ sum < 0 := by
    rw [squares, not_lt]
    exact Finset.sum_nonneg fun i _ => mul_self_nonneg _
  refine (if_neg nonneg).trans ?_
  rw [squares, residualAt]

end

/-! Points of a run. -/

section
variable {system : Buffer ℝ → Buffer ℝ → Nat → ℝ} {b start x x' part : Buffer ℝ} {elements : Nat}

/-- A point that has come from another one by changes of its first entries. -/
structure SameBehind (elements : Nat) (start x : Buffer ℝ) : Prop where
  size : x.size = start.size
  cells : ∀ i, elements ≤ i → x.cells i = start.cells i

/-- The first entries replaced. -/
def placed (elements : Nat) (start part : Buffer ℝ) : Buffer ℝ :=
  { start with cells := fun i => if i < elements then part.cells i else start.cells i }

namespace SameBehind

theorem write (same : SameBehind elements start x) {j : Nat} (below : j < elements) {item : ℝ}
    (written : x.write j item = some x') : SameBehind elements start x' := by
  obtain ⟨-, rfl⟩ : j < x.size ∧ x.set j item = x' := by
    rw [Buffer.write] at written
    split at written
    case isTrue inside => exact ⟨inside, Option.some.inj written⟩
    case isFalse outside => cases written
  refine ⟨same.size, fun i behind => ?_⟩
  rw [Buffer.set_other _ (by omega), same.cells i behind]

theorem copy (same : SameBehind elements start x) (room : elements ≤ start.size)
    (size : part.size = elements) : x.copy part elements = some (placed elements start part) := by
  rw [Buffer.copy, if_pos ⟨room.trans same.size.ge, size.ge⟩, placed, same.size]
  refine congrArg (fun cells => some (⟨start.size, cells⟩ : Buffer ℝ)) ?_
  funext i
  split
  case isTrue before => rfl
  case isFalse behind => exact same.cells i (not_lt.mp behind)

theorem placed_eq (same : SameBehind elements start x)
    (cells : ∀ i < elements, part.cells i = x.cells i) : placed elements start part = x := by
  rw [placed, ← same.size]
  refine congrArg (fun cells => (⟨x.size, cells⟩ : Buffer ℝ)) ?_
  funext i
  split
  case isTrue before => exact cells i before
  case isFalse behind => exact (same.cells i (not_lt.mp behind)).symm

theorem placed (part : Buffer ℝ) : SameBehind elements start (placed elements start part) :=
  ⟨rfl, fun _ behind => if_neg (not_lt.mpr behind)⟩

end SameBehind

/-- `best_x` is the best of the points that were visited. -/
structure Held (system : Buffer ℝ → Buffer ℝ → Nat → ℝ) (b start : Buffer ℝ) (elements : Nat)
    (visited : Set (Buffer ℝ)) (best : Best ℝ) : Prop where
  octet : elements ≤ 255
  size : best.x.size = elements
  best : BestOf (residualAt system b elements) fltMax visited best.sqrtSumDx
    (placed elements start best.x)

variable {visited : Set (Buffer ℝ)} {best : Best ℝ}

theorem checkSolution_returns (room : elements ≤ start.size) (same : SameBehind elements start x)
    (held : Held system b start elements visited best) :
    Returns (checkSolution Real.sqrt elements (equations system b elements x) x best) fun result =>
      result.1 = residualAt system b elements x ∧
        Held system b start elements (Insert.insert x visited) result.2 := by
  apply Returns.known (lengthOf_equations held.octet x)
  split
  case isTrue less =>
    have taken : best.x.copy x elements = some
        ⟨elements, fun i => if i < elements then x.cells i else best.x.cells i⟩ := by
      rw [Buffer.copy, if_pos ⟨held.size.ge, room.trans same.size.ge⟩, held.size]
    apply Returns.known taken
    refine Returns.done ⟨rfl, held.octet, rfl, ?_⟩
    rw [same.placed_eq fun i before => if_pos before]
    exact held.best.improve less
  case isFalse more => exact Returns.done ⟨rfl, held.octet, held.size, held.best.keep more⟩

end

/-! Runs. -/

section
variable {system : Buffer ℝ → Buffer ℝ → Nat → ℝ} {b start x x' : Buffer ℝ} {elements : Nat}
variable {random : Nat → Nat → ℝ} {stack : Nat → ℝ} {alpha maxValue minValue : ℝ}
variable {randomGuessActive : Bool} {visited : Set (Buffer ℝ)}

/-- A loop that writes one entry a turn. -/
theorem SameBehind.entries {body : Buffer ℝ → Nat → Option (Buffer ℝ)}
    (same : SameBehind elements start x)
    (turn : ∀ y j y', body y j = some y' → ∃ item, y.write j item = some y')
    (ran : (upTo 0 elements).foldlM body x = some x') : SameBehind elements start x' := by
  refine Returns.loop_ran (fun _ y => SameBehind elements start y) (Nat.zero_le elements) same ?_ ran
  intro j y y' _ below held turned
  obtain ⟨item, written⟩ := turn y j y' turned
  exact held.write below written

theorem guessTurn_ran {guess guess' : Guessing ℝ} {i : Nat} (room : elements ≤ start.size)
    (same : SameBehind elements start guess.x) (held : Held system b start elements visited guess.best)
    (ran : guessTurn Real.sqrt system b elements random maxValue minValue guess i = some guess') :
    SameBehind elements start guess'.x ∧
      Held system b start elements (Insert.insert guess'.x visited) guess'.best := by
  obtain ⟨x, entries, rest⟩ := Option.bind_eq_some_iff.mp ran
  obtain ⟨checked, check, last⟩ := Option.bind_eq_some_iff.mp rest
  obtain rfl := Option.some.inj last
  have same' := same.entries (fun y j y' written => ⟨_, written⟩) entries
  obtain ⟨result, returned, -, held'⟩ := checkSolution_returns room same' held
  obtain rfl := Option.some.inj (check.symm.trans returned)
  exact ⟨same', held'⟩

/-- The points of the random guesses. -/
def guessed (system : Buffer ℝ → Buffer ℝ → Nat → ℝ) (b : Buffer ℝ) (elements : Nat)
    (random : Nat → Nat → ℝ) (stack : Nat → ℝ) (maxValue minValue : ℝ) (randomGuessActive : Bool)
    (x : Buffer ℝ) : Set (Buffer ℝ) :=
  {y | randomGuessActive = true ∧ ∃ guess ∈ ended
    (guessTurn Real.sqrt system b elements random maxValue minValue)
      ⟨x, ⟨fltMax, ⟨elements, stack⟩⟩⟩ randomIterations, guess.x = y}

theorem guesses_ran {guess : Guessing ℝ} (octet : elements ≤ 255) (room : elements ≤ x.size)
    (ran : guesses Real.sqrt system b elements random stack maxValue minValue randomGuessActive x =
      some guess) :
    SameBehind elements x guess.x ∧ Held system b x elements
      (guessed system b elements random stack maxValue minValue randomGuessActive x) guess.best ∧
        (randomGuessActive = false → guess.x = x) := by
  have start : Held system b x elements ∅ ⟨fltMax, ⟨elements, stack⟩⟩ := ⟨octet, rfl, BestOf.start⟩
  have refl : SameBehind elements x x := ⟨rfl, fun _ _ => rfl⟩
  cases randomGuessActive with
  | false =>
    obtain rfl := Option.some.inj ran
    have none : guessed system b elements random stack maxValue minValue false x = ∅ :=
      Set.eq_empty_of_forall_notMem fun y member => Bool.false_ne_true member.1
    rw [none]
    exact ⟨refl, start, fun _ => rfl⟩
  | true =>
    obtain ⟨reached, looped, rest⟩ := Option.bind_eq_some_iff.mp ran
    obtain ⟨copied, copy, last⟩ := Option.bind_eq_some_iff.mp rest
    obtain rfl := Option.some.inj last
    obtain ⟨same, held⟩ := foldlM_ran (fun past (guess : Guessing ℝ) => SameBehind elements x guess.x ∧
        Held system b x elements (Guessing.x '' past) guess.best) ⟨refl, by rwa [Set.image_empty]⟩
      (fun past guess i next both turned => by
        rw [Set.image_insert_eq]
        exact guessTurn_ran room both.1 both.2 turned) looped
    have all : guessed system b elements random stack maxValue minValue true x = Guessing.x ''
        ended (guessTurn Real.sqrt system b elements random maxValue minValue)
          ⟨x, ⟨fltMax, ⟨elements, stack⟩⟩⟩ randomIterations := by
      ext y
      exact and_iff_right rfl
    rw [all]
    rw [same.copy room held.size] at copy
    obtain rfl := Option.some.inj copy
    exact ⟨SameBehind.placed _, held, fun no => absurd no.symm Bool.false_ne_true⟩

theorem stepOn_ran {state next : Stepping ℝ} {sqrtSumDx : ℝ} {breakCount : Nat} {best : Best ℝ}
    {dx : Buffer ℝ} (same : SameBehind elements start state.x)
    (ran : stepOn Real.sqrt elements alpha sqrtSumDx breakCount best dx state = some next) :
    SameBehind elements start next.x ∧ next.best = best := by
  obtain ⟨x, entries, rest⟩ := Option.bind_eq_some_iff.mp ran
  obtain ⟨length, -, rest⟩ := Option.bind_eq_some_iff.mp rest
  obtain ⟨gradient, -, rest⟩ := Option.bind_eq_some_iff.mp rest
  obtain ⟨pastGradients, -, last⟩ := Option.bind_eq_some_iff.mp rest
  obtain rfl := Option.some.inj last
  refine ⟨same.entries (fun y j y' turned => ?_) entries, rfl⟩
  obtain ⟨xj, -, turned⟩ := Option.bind_eq_some_iff.mp turned
  obtain ⟨gradient, -, turned⟩ := Option.bind_eq_some_iff.mp turned
  obtain ⟨dxj, -, written⟩ := Option.bind_eq_some_iff.mp turned
  exact ⟨_, written⟩

theorem stepTurn_ran {state : Stepping ℝ} {i : Nat} {flow : Flow (Stepping ℝ) (Stepping ℝ)}
    (room : elements ≤ start.size) (same : SameBehind elements start state.x)
    (held : Held system b start elements visited state.best)
    (ran : stepTurn Real.sqrt system b elements alpha state i = some flow) :
    let done (next : Stepping ℝ) := SameBehind elements start next.x ∧
      Held system b start elements (Insert.insert state.x visited) next.best
    Flow.Ends done done flow := by
  intro done
  obtain ⟨checked, check, rest⟩ := Option.bind_eq_some_iff.mp ran
  obtain ⟨result, returned, -, held'⟩ := checkSolution_returns room same held
  obtain rfl := Option.some.inj (check.symm.trans returned)
  -- both ways to go on leave the best point alone
  have proceeds {breakCount : Nat} {flow : Flow (Stepping ℝ) (Stepping ℝ)}
      (on : (stepOn Real.sqrt elements alpha checked.1 breakCount checked.2
        (equations system b elements state.x) state).bind (fun next => some (.proceed next)) = some flow) :
      Flow.Ends done done flow := by
    obtain ⟨next, stepped, last⟩ := Option.bind_eq_some_iff.mp on
    obtain rfl := Option.some.inj last
    obtain ⟨same', kept⟩ := stepOn_ran same stepped
    exact ⟨same', kept.symm ▸ held'⟩
  simp only at rest
  split at rest
  case isTrue still =>
    split at rest
    case isTrue long =>
      obtain rfl := Option.some.inj rest
      exact ⟨same, held'⟩
    case isFalse short => exact proceeds rest
  case isFalse moving => exact proceeds rest

/-- Where the equations are solved, a turn that goes on stays. -/
theorem stepTurn_rests {state next : Stepping ℝ} {i : Nat}
    (solved : ∀ j < elements, system b state.x j = 0)
    (ran : stepTurn Real.sqrt system b elements alpha state i = some (.proceed next)) :
    next.x = state.x := by
  have stays {sqrtSumDx : ℝ} {breakCount : Nat} {best : Best ℝ}
      (on : (stepOn Real.sqrt elements alpha sqrtSumDx breakCount best
        (equations system b elements state.x) state).bind (fun next => some (.proceed next)) =
          some (.proceed next : Foundation.Flow (Stepping ℝ) (Stepping ℝ))) : next.x = state.x := by
    obtain ⟨after, stepped, last⟩ := Option.bind_eq_some_iff.mp on
    cases last
    obtain ⟨x, entries, rest⟩ := Option.bind_eq_some_iff.mp stepped
    obtain ⟨length, -, rest⟩ := Option.bind_eq_some_iff.mp rest
    obtain ⟨gradient, -, rest⟩ := Option.bind_eq_some_iff.mp rest
    obtain ⟨pastGradients, -, last⟩ := Option.bind_eq_some_iff.mp rest
    obtain rfl := Option.some.inj last
    refine Returns.loop_ran (fun _ y => y = state.x) (Nat.zero_le elements) rfl ?_ entries
    rintro j y y' - below rfl turned
    obtain ⟨xj, here, turned⟩ := Option.bind_eq_some_iff.mp turned
    obtain ⟨gradient, -, turned⟩ := Option.bind_eq_some_iff.mp turned
    obtain ⟨dxj, given, written⟩ := Option.bind_eq_some_iff.mp turned
    rw [Buffer.read_inside (equations system b elements state.x) below] at given
    obtain rfl := Option.some.inj given
    change state.x.write j (xj - (alpha + (gradient.toNat : ℝ)) * system b state.x j) = some y' at written
    rw [solved j below, mul_zero, sub_zero, Buffer.write] at written
    rw [Buffer.read] at here
    split at here
    case isTrue inside =>
      rw [if_pos inside] at written
      obtain rfl := Option.some.inj here
      rw [Buffer.set_cells] at written
      exact (Option.some.inj written).symm
    case isFalse outside => cases here
  obtain ⟨checked, -, rest⟩ := Option.bind_eq_some_iff.mp ran
  simp only at rest
  split at rest
  case isTrue still =>
    split at rest
    case isTrue long => cases rest
    case isFalse short => exact stays rest
  case isFalse moving => exact stays rest

/-- The points that the steps begin with. -/
def steppedPoints (system : Buffer ℝ → Buffer ℝ → Nat → ℝ) (b : Buffer ℝ) (elements : Nat)
    (random : Nat → Nat → ℝ) (stack : Nat → ℝ) (alpha maxValue minValue : ℝ) (randomGuessActive : Bool)
    (x : Buffer ℝ) : Set (Buffer ℝ) :=
  {y | ∃ guess, guesses Real.sqrt system b elements random stack maxValue minValue randomGuessActive x =
    some guess ∧ ∃ state ∈ begun (stepTurn Real.sqrt system b elements alpha) (startStepping guess)
      randomIterations, state.x = y}

theorem steppedPoints_image {guess : Guessing ℝ}
    (began : guesses Real.sqrt system b elements random stack maxValue minValue randomGuessActive x =
      some guess) :
    steppedPoints system b elements random stack alpha maxValue minValue randomGuessActive x =
      Stepping.x '' begun (stepTurn Real.sqrt system b elements alpha) (startStepping guess)
        randomIterations := by
  ext y
  constructor
  · rintro ⟨other, began', member⟩
    obtain rfl := Option.some.inj (began'.symm.trans began)
    exact member
  · intro member
    exact ⟨guess, began, member⟩

/-- The points that a call evaluates the equations at. -/
def visitedPoints (system : Buffer ℝ → Buffer ℝ → Nat → ℝ) (b : Buffer ℝ) (elements : Nat)
    (random : Nat → Nat → ℝ) (stack : Nat → ℝ) (alpha maxValue minValue : ℝ) (randomGuessActive : Bool)
    (x : Buffer ℝ) : Set (Buffer ℝ) :=
  guessed system b elements random stack maxValue minValue randomGuessActive x ∪
    steppedPoints system b elements random stack alpha maxValue minValue randomGuessActive x

theorem nonlinsolve_ran {elements : UInt8} (room : elements.toNat ≤ x.size)
    (called : smlsNonlinsolve Real.sqrt system b elements random stack alpha maxValue minValue
      randomGuessActive x = some x') :
    (∃ best, Held system b x elements.toNat
      (visitedPoints system b elements.toNat random stack alpha maxValue minValue randomGuessActive x) best ∧
        x' = placed elements.toNat x best.x) ∧
    (randomGuessActive = false →
      x ∈ visitedPoints system b elements.toNat random stack alpha maxValue minValue randomGuessActive x) := by
  have octet : elements.toNat ≤ 255 := Nat.le_of_lt_succ elements.toNat_lt
  obtain ⟨guess, began, rest⟩ := Option.bind_eq_some_iff.mp called
  obtain ⟨flow, looped, last⟩ := Option.bind_eq_some_iff.mp rest
  obtain ⟨same, held, given⟩ := guesses_ran octet room began
  have all : visitedPoints system b elements.toNat random stack alpha maxValue minValue randomGuessActive x =
      guessed system b elements.toNat random stack maxValue minValue randomGuessActive x ∪ Stepping.x ''
        begun (stepTurn Real.sqrt system b elements.toNat alpha) (startStepping guess) randomIterations := by
    rw [visitedPoints, steppedPoints_image began]
  rw [all]
  let done (past : Set (Stepping ℝ)) (state : Stepping ℝ) := SameBehind elements.toNat x state.x ∧
    Held system b x elements.toNat (guessed system b elements.toNat random stack maxValue minValue
      randomGuessActive x ∪ Stepping.x '' past) state.best
  -- the steps begin with the best guess, which has no cost of its own to be compared with
  have first : done ∅ (startStepping guess) := by
    refine ⟨same, ?_⟩
    rwa [Set.image_empty, Set.union_empty]
  have ends := flowLoop_ran done done first
    (fun past state i flow both turned => by
      have turn := stepTurn_ran room both.1 both.2 turned
      rwa [← Set.union_insert, ← Set.image_insert_eq] at turn) looped
  constructor
  · cases flow with
    | leave state =>
      obtain ⟨same', held'⟩ := ends
      exact ⟨state.best, held', Option.some.inj (last.symm.trans (same'.copy room held'.size))⟩
    | proceed state =>
      obtain ⟨same', held'⟩ := ends
      exact ⟨state.best, held', Option.some.inj (last.symm.trans (same'.copy room held'.size))⟩
  · intro inactive
    refine Or.inr ⟨startStepping guess, ⟨0, by decide, ?_⟩, given inactive⟩
    rw [upTo_self, flowLoop]

/-! Calls that come to their end. -/

/-- The next gradient has a place. -/
structure Stepping.Fits (state : Stepping ℝ) : Prop where
  size : state.pastGradients.size = maximumGradientsIndex
  index : state.gradientIndex < maximumGradientsIndex

theorem stepOn_returns {state : Stepping ℝ} {sqrtSumDx : ℝ} {breakCount : Nat} {best : Best ℝ}
    (octet : elements ≤ 255) (room : elements ≤ state.x.size) (fits : state.Fits)
    (range : -1 < alpha * residualAt system b elements state.x ∧
      alpha * residualAt system b elements state.x < ((256 : Nat) : ℝ)) :
    Returns (stepOn Real.sqrt elements alpha sqrtSumDx breakCount best
      (equations system b elements state.x) state) Stepping.Fits := by
  have place : state.gradientIndex < state.pastGradients.size := fits.size.symm ▸ fits.index
  have entries : Returns ((upTo 0 elements).foldlM (stepEntry alpha state.pastGradients
      state.gradientIndex (equations system b elements state.x)) state.x) fun y =>
        y.size = state.x.size := by
    refine Returns.loop (fun _ (y : Buffer ℝ) => y.size = state.x.size) (Nat.zero_le elements) rfl ?_
    intro j y _ below size
    have inside : j < y.size := below.trans_le (room.trans size.ge)
    apply Returns.known (y.read_inside inside)
    apply Returns.known (state.pastGradients.read_inside place)
    apply Returns.known (Buffer.read_inside (equations system b elements state.x) below)
    exact ⟨_, y.write_inside inside _, size⟩
  refine Returns.next entries fun y _ _ => ?_
  apply Returns.known (lengthOf_equations octet state.x)
  apply Returns.known (if_pos range)
  apply Returns.known (state.pastGradients.write_inside place _)
  refine Returns.done ⟨fits.size, ?_⟩
  change (if _ then 0 else state.gradientIndex + 1) < _
  split
  case isTrue full => exact Nat.zero_lt_of_lt fits.index
  case isFalse more => exact not_le.mp more

theorem stepTurn_returns {state : Stepping ℝ} (i : Nat) (room : elements ≤ start.size) (fits : state.Fits)
    (same : SameBehind elements start state.x) (held : Held system b start elements visited state.best)
    (range : -1 < alpha * residualAt system b elements state.x ∧
      alpha * residualAt system b elements state.x < ((256 : Nat) : ℝ)) :
    Returns (stepTurn Real.sqrt system b elements alpha state i)
      (Flow.Ends (fun _ => True) Stepping.Fits) := by
  refine Returns.next (checkSolution_returns room same held) fun checked _ _ => ?_
  have on (breakCount : Nat) : Returns (stepOn Real.sqrt elements alpha checked.1 breakCount checked.2
      (equations system b elements state.x) state) Stepping.Fits :=
    stepOn_returns held.octet (room.trans same.size.ge) fits range
  simp only
  split
  case isTrue still =>
    split
    case isTrue long => exact Returns.done trivial
    case isFalse short => exact Returns.next (on _) fun next _ fits' => Returns.done fits'
  case isFalse moving => exact Returns.next (on _) fun next _ fits' => Returns.done fits'

theorem guesses_returns (octet : elements ≤ 255) (room : elements ≤ x.size) :
    Returns (guesses Real.sqrt system b elements random stack maxValue minValue randomGuessActive x)
      fun _ => True := by
  rw [guesses]
  split
  case isFalse inactive => exact Returns.done trivial
  case isTrue active =>
    have start : Held system b x elements ∅ ⟨fltMax, ⟨elements, stack⟩⟩ := ⟨octet, rfl, BestOf.start⟩
    refine Returns.next (Returns.loop (fun _ (guess : Guessing ℝ) => SameBehind elements x guess.x ∧
      ∃ visited, Held system b x elements visited guess.best) (Nat.zero_le _)
        ⟨⟨rfl, fun _ _ => rfl⟩, ∅, start⟩ ?_) fun guess _ both => ?_
    · intro i guess _ _ both
      obtain ⟨same, visited, held⟩ := both
      have entries : Returns ((upTo 0 elements).foldlM (guessEntry (random i) (maxValue - minValue)
          minValue) guess.x) fun y => y.size = guess.x.size := by
        refine Returns.loop (fun _ (y : Buffer ℝ) => y.size = guess.x.size) (Nat.zero_le elements) rfl ?_
        intro j y _ below size
        exact ⟨_, y.write_inside (below.trans_le (room.trans (same.size.ge.trans size.ge))) _, size⟩
      refine Returns.next entries fun y ran _ => ?_
      have same' := same.entries (fun y j y' written => ⟨_, written⟩) ran
      refine Returns.next (checkSolution_returns room same' held) fun checked _ reached => ?_
      exact Returns.done ⟨same', _, reached.2⟩
    · obtain ⟨same, visited, held⟩ := both
      apply Returns.known (same.copy room held.size)
      exact Returns.done trivial

theorem nonlinsolve_returns {elements : UInt8} (room : elements.toNat ≤ x.size)
    (range : ∀ y ∈ steppedPoints system b elements.toNat random stack alpha maxValue minValue
        randomGuessActive x,
      -1 < alpha * residualAt system b elements.toNat y ∧
        alpha * residualAt system b elements.toNat y < ((256 : Nat) : ℝ)) :
    ∃ x', smlsNonlinsolve Real.sqrt system b elements random stack alpha maxValue minValue
      randomGuessActive x = some x' := by
  have octet : elements.toNat ≤ 255 := Nat.le_of_lt_succ elements.toNat_lt
  obtain ⟨guess, began, -⟩ : Returns (guesses Real.sqrt system b elements.toNat random stack maxValue
    minValue randomGuessActive x) fun _ => True := guesses_returns octet room
  obtain ⟨same, held, -⟩ := guesses_ran octet room began
  rw [steppedPoints_image began] at range
  let good (state : Stepping ℝ) := SameBehind elements.toNat x state.x ∧
    ∃ visited, Held system b x elements.toNat visited state.best
  have looped : Returns (flowLoop (stepTurn Real.sqrt system b elements.toNat alpha)
      (upTo 0 randomIterations) (startStepping guess))
        (Flow.Ends good fun state => good state ∧ state.Fits) := by
    refine Returns.flow_begun ⟨⟨same, _, held⟩, rfl, (by decide : 0 < maximumGradientsIndex)⟩ ?_
    rintro state begins ⟨⟨same, visited, held⟩, fits⟩ i
    obtain ⟨flow, turned, ends⟩ :=
      stepTurn_returns i room fits same held (range _ (Set.mem_image_of_mem _ begins))
    have after := stepTurn_ran room same held turned
    refine ⟨flow, turned, ?_⟩
    cases flow with
    | leave state => exact ⟨after.1, _, after.2⟩
    | proceed state => exact ⟨⟨after.1, _, after.2⟩, ends⟩
  obtain ⟨flow, ran, ends⟩ := looped
  rw [smlsNonlinsolve, began, Option.bind_eq_bind, Option.bind_some, ran]
  cases flow with
  | leave state =>
    obtain ⟨same', visited, held'⟩ := ends
    exact ⟨_, same'.copy room held'.size⟩
  | proceed state =>
    obtain ⟨⟨same', visited, held'⟩, -⟩ := ends
    exact ⟨_, same'.copy room held'.size⟩

/-- What a call leaves is the best of all points it has evaluated the equations at, guesses and steps,
if one of them is within the range of floats. It comes to its end if `alpha` times the residual can be
converted at the points that the steps begin with. -/
theorem nonlinsolve_best {elements : UInt8} (room : elements.toNat ≤ x.size) :
    ((∀ y ∈ steppedPoints system b elements.toNat random stack alpha maxValue minValue
        randomGuessActive x,
      -1 < alpha * residualAt system b elements.toNat y ∧
        alpha * residualAt system b elements.toNat y < ((256 : Nat) : ℝ)) →
      ∃ x', smlsNonlinsolve Real.sqrt system b elements random stack alpha maxValue minValue
        randomGuessActive x = some x') ∧
    ∀ x', smlsNonlinsolve Real.sqrt system b elements random stack alpha maxValue minValue
        randomGuessActive x = some x' →
      let residual := residualAt system b elements.toNat
      let visited :=
        visitedPoints system b elements.toNat random stack alpha maxValue minValue randomGuessActive x
      (∃ y ∈ visited, residual y < fltMax) →
        x' ∈ visited ∧ (∀ y ∈ visited, residual x' ≤ residual y) ∧
        (randomGuessActive = false → residual x' ≤ residual x) := by
  refine ⟨nonlinsolve_returns room, fun x' called => ?_⟩
  rintro residual visited ⟨y, member, less⟩
  obtain ⟨⟨best, held, rfl⟩, given⟩ := nonlinsolve_ran room called
  obtain ⟨inside, least⟩ := held.best.among member less
  exact ⟨inside, least, fun inactive => least x (given inactive)⟩

end

/-- `y = 1` is solved at the start, and elsewhere the residual is beyond every range. -/
theorem nonlinsolve_best_solved : ∃ x',
    smlsNonlinsolve Real.sqrt (fun _ y _ => y.cells 0 - 1) ⟨1, fun _ => 0⟩ 1 (fun _ _ => 0)
      (fun _ => 0) 2⁻¹ 1 0 false ⟨1, fun _ => 1⟩ = some x' ∧
    residualAt (fun _ y _ => y.cells 0 - 1) ⟨1, fun _ => 0⟩ 1 x' = 0 := by
  let system (_ y : Buffer ℝ) (_ : Nat) : ℝ := y.cells 0 - 1
  let solution : Buffer ℝ := ⟨1, fun _ => 1⟩
  have solved : ∀ j < (1 : UInt8).toNat, system ⟨1, fun _ => 0⟩ solution j = 0 := fun _ _ => sub_self 1
  have nothing : residualAt system ⟨1, fun _ => 0⟩ (1 : UInt8).toNat solution = 0 := by
    rw [residualAt, Finset.sum_eq_zero, Real.sqrt_zero]
    intro j member
    rw [solved j (Finset.mem_range.mp member), mul_zero]
  obtain ⟨ends, best⟩ := @nonlinsolve_best system ⟨1, fun _ => 0⟩ solution (fun _ _ => 0) (fun _ => 0)
    2⁻¹ 1 0 false 1 le_rfl
  obtain ⟨x', called⟩ := ends (by
    rintro y ⟨guess, began, state, begins, rfl⟩
    obtain rfl := Option.some.inj began
    let stays (state : Stepping ℝ) : Prop := state.x = solution
    have first : stays (startStepping ⟨solution, ⟨fltMax, ⟨1, fun _ => 0⟩⟩⟩) := rfl
    have turn (state : Stepping ℝ) (i : Nat) (next : Stepping ℝ) (same : stays state)
        (ran : stepTurn Real.sqrt system ⟨1, fun _ => 0⟩ 1 2⁻¹ state i = some (.proceed next)) :
        stays next := (stepTurn_rests (same.symm ▸ solved) ran).trans same
    have here : state.x = solution := begun_holds first turn state begins
    rw [here, nothing, mul_zero]
    norm_num)
  have large : (0 : ℝ) < fltMax := by
    rw [fltMax]
    norm_num
  have given := (nonlinsolve_ran le_rfl called).2 rfl
  have least := best x' called ⟨_, given, nothing.trans_lt large⟩
  refine ⟨x', called, le_antisymm ((least.2.2 rfl).trans nothing.le) (Real.sqrt_nonneg _)⟩

end Simuless.Linalg
