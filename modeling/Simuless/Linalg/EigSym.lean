import Simuless.Foundation.Residual
import Simuless.Linalg.TridiagProduct

/-! Eigenvalues and eigenvectors of a symmetric matrix.

The tridiagonal form is made diagonal by sweeps of rotations, each of which
chases a bulge up between two zeros next to the diagonal. No row gets more than
thirty sweeps.
-/

set_option autoImplicit false

namespace Simuless.Linalg

open Foundation
open scoped Matrix

variable {K : Type}

section
variable [Field K] [LinearOrder K]

/-- `absa * sqrtf(1.0f + square(absb / absa))`. -/
def pythagRatio (sqrtf : K → K) (absa absb : K) : Option K := do
  let ratio ← quotient absb absa
  let r ← root sqrtf (1 + ratio * ratio)
  return absa * r

def pythagFloat (sqrtf : K → K) (a b : K) : Option K :=
  if |b| < |a| then pythagRatio sqrtf |a| |b|
  else if |b| < fltEpsilon then some 0
  else pythagRatio sqrtf |b| |a|

/-- `abs_sign(a, b)`. -/
def absSign (a b : K) : K := if 0 ≤ b then |a| else -|a|

/-- The diagonal, the entries behind it, and the vectors. -/
structure Eigen (K : Type) where
  d : Buffer K
  e : Buffer K
  z : Buffer K

/-- The state inside of a sweep. -/
structure Rotating (K : Type) extends Eigen K where
  s : K
  c : K
  p : K
  g : K
  r : K

/-- `e[i - 1] = e[i]`. -/
def tqliShift (e : Buffer K) (i : Nat) : Option (Buffer K) := do
  let ei ← e.read i
  e.write (i - 1) ei

/-- Leaves where `fabsf(e[m]) + dd == dd`. -/
def tqliTest (d e : Buffer K) (_ : Unit) (m : Nat) : Option (Foundation.Flow Nat Unit) := do
  let dm ← d.read m
  let dm1 ← d.read (m + 1)
  let em ← e.read m
  return if |em| + (|dm| + |dm1|) = |dm| + |dm1| then .leave m else .proceed ()

/-- `m`. -/
def tqliSplit (row l : Nat) (d e : Buffer K) : Option Nat := do
  match ← flowLoop (tqliTest d e) (upTo l (row - 1)) () with
  | .leave m => return m
  | .proceed _ => return row - 1

/-- Row `k` of the vectors. -/
def tqliVector (row i : Nat) (s c : K) (z : Buffer K) (k : Nat) : Option (Buffer K) := do
  let f ← z.readFrom (row * k) (i + 1)
  let zki ← z.readFrom (row * k) i
  let z ← z.writeFrom (row * k) (i + 1) (s * zki + c * f)
  z.writeFrom (row * k) i (c * zki - s * f)

/-- A rotation that is too short. -/
def tqliBreak (m i : Nat) (e : Buffer K) (r : K) (rotating : Rotating K) : Option (Rotating K) := do
  let di1 ← rotating.d.read (i + 1)
  let d ← rotating.d.write (i + 1) (di1 - rotating.p)
  let e ← e.write m 0
  return { rotating with d, e, r }

def tqliRotate (row i : Nat) (f b : K) (e : Buffer K) (r : K) (rotating : Rotating K) :
    Option (Rotating K) := do
  let s ← quotient f r
  let c ← quotient rotating.g r
  let di1 ← rotating.d.read (i + 1)
  let g := di1 - rotating.p
  let di ← rotating.d.read i
  let r := (di - g) * s + (2 : Nat) * c * b
  let p := s * r
  let d ← rotating.d.write (i + 1) (g + p)
  let z ← (upTo 0 row).foldlM (tqliVector row i s c) rotating.z
  return { d, e, z, s, c, p, g := c * r - b, r }

/-- One turn of a sweep, from `i = m - 1` down to `l`; the loop counts from zero. -/
def tqliTurn (sqrtf : K → K) (row l m : Nat) (rotating : Rotating K) (t : Nat) :
    Option (Foundation.Flow (Rotating K) (Rotating K)) := do
  let i := l + t
  let ei ← rotating.e.read i
  let f := rotating.s * ei
  let b := rotating.c * ei
  let r ← pythagFloat sqrtf f rotating.g
  let e ← rotating.e.write (i + 1) r
  if |r| < fltEpsilon then
    let broken ← tqliBreak m i e r rotating
    return .leave broken
  else
    let rotated ← tqliRotate row i f b e r rotating
    return .proceed rotated

/-- What a sweep starts with. -/
def tqliStart (sqrtf : K → K) (l m : Nat) (state : Eigen K) : Option (Rotating K) := do
  let dl1 ← state.d.read (l + 1)
  let dl ← state.d.read l
  let el ← state.e.read l
  let g ← quotient (dl1 - dl) ((2 : Nat) * el)
  let r ← pythagFloat sqrtf g 1
  let dm ← state.d.read m
  let shift ← quotient el (g + absSign r g)
  return { state with s := 1, c := 1, p := 0, g := dm - dl + shift, r }

/-- `d[l] -= p`, `e[l] = g` and `e[m] = 0.0f`. -/
def tqliFinish (l m : Nat) (rotating : Rotating K) : Option (Eigen K) := do
  let dl ← rotating.d.read l
  let d ← rotating.d.write l (dl - rotating.p)
  let e ← rotating.e.write l rotating.g
  let e ← e.write m 0
  return { d, e, z := rotating.z }

/-- The turns of a sweep, which may leave it. -/
def tqliTurns (sqrtf : K → K) (row l m : Nat) (state : Eigen K) :
    Option (Foundation.Flow (Rotating K) (Rotating K)) := do
  let rotating ← tqliStart sqrtf l m state
  flowLoop (tqliTurn sqrtf row l m) (downFrom (m - l)) rotating

def tqliSweep (sqrtf : K → K) (row l m : Nat) (state : Eigen K) : Option (Eigen K) := do
  match ← tqliTurns sqrtf row l m state with
  | .leave broken => if broken.r = 0 then return broken.toEigen else tqliFinish l m broken
  | .proceed rotated => tqliFinish l m rotated

/-- The body of the loop for row `l`, with `iter` as its counter. -/
def tqliPass (sqrtf : K → K) (row l : Nat) (state : Eigen K) (iter : Nat) :
    Option (Foundation.Flow (Eigen K) (Eigen K)) := do
  let m ← tqliSplit row l state.d state.e
  if m = l ∨ iter = 30 then return .leave state
  else
    let state ← tqliSweep sqrtf row l m state
    return .proceed state

def tqliRow (sqrtf : K → K) (row : Nat) (state : Eigen K) (l : Nat) : Option (Eigen K) := do
  match ← flowLoop (tqliPass sqrtf row l) (upTo 0 31) state with
  | .leave state => return state
  | .proceed state => return state

/-- The entries next to the diagonal, one place down. -/
def tqliEntries (row : Nat) (e : Buffer K) : Option (Buffer K) := do
  let e ← (upTo 1 row).foldlM tqliShift e
  e.write (row - 1) 0

def tqli (sqrtf : K → K) (row : Nat) (state : Eigen K) : Option (Eigen K) := do
  let e ← tqliEntries row state.e
  (upTo 0 row).foldlM (tqliRow sqrtf row) { state with e }

/-- All arrays, with that of the call itself, at the end of a call. -/
def eigSymArrays (sqrtf : K → K) (AA ev d : Buffer K) (row : Nat) : Option (Eigen K) := do
  let ev ← ev.copy AA (row * row)
  let e ← (⟨row, fun _ => 0⟩ : Buffer K).clear row
  let d ← d.clear row
  let state ← tridiag sqrtf row ⟨ev, d, e⟩
  tqli sqrtf row ⟨state.d, state.e, state.a⟩

/-- `ev` and `d`. -/
def smlsMatEigSym (sqrtf : K → K) (AA ev d : Buffer K) (row : Nat) : Option (Buffer K × Buffer K) := do
  let state ← eigSymArrays sqrtf AA ev d row
  return (state.z, state.d)

end

/-! Lengths of rotations. -/

theorem pythagRatio_returns {absa : ℝ} (positive : 0 < absa) (absb : ℝ) :
    Returns (pythagRatio Real.sqrt absa absb) fun r => 0 < r ∧ r * r = absa * absa + absb * absb := by
  apply Returns.known (quotient_nonzero positive.ne' _)
  have more : 0 < 1 + absb / absa * (absb / absa) := add_pos_of_pos_of_nonneg one_pos (mul_self_nonneg _)
  apply Returns.known (if_neg (not_lt.mpr more.le))
  refine Returns.done ⟨mul_pos positive (Real.sqrt_pos.mpr more), ?_⟩
  rw [mul_mul_mul_comm, Real.mul_self_sqrt more.le]
  field_simp

/-- The length, unless it is taken for zero. -/
theorem pythagFloat_returns (a b : ℝ) : Returns (pythagFloat Real.sqrt a b) fun r =>
    r = 0 ∧ |b| < fltEpsilon ∨ 0 < r ∧ r * r = a * a + b * b := by
  rw [pythagFloat]
  split
  case isTrue first =>
    refine (pythagRatio_returns ((abs_nonneg b).trans_lt first) |b|).weaken fun r ⟨positive, square⟩ => ?_
    exact Or.inr ⟨positive, by rw [square, abs_mul_abs_self, abs_mul_abs_self]⟩
  case isFalse =>
    split
    case isTrue short => exact Returns.done (Or.inl ⟨rfl, short⟩)
    case isFalse long =>
      refine (pythagRatio_returns (fltEpsilon_pos.trans_le (not_lt.mp long)) |a|).weaken
        fun r ⟨positive, square⟩ => Or.inr ⟨positive, ?_⟩
      rw [square, abs_mul_abs_self, abs_mul_abs_self, add_comm]

theorem absSign_apart {r : ℝ} (positive : 0 < r) (g : ℝ) : g + absSign r g ≠ 0 := by
  rw [absSign, abs_of_pos positive]
  split
  case isTrue nonneg => exact (add_pos_of_nonneg_of_pos nonneg positive).ne'
  case isFalse negative => exact (add_neg (not_le.mp negative) (neg_neg_of_pos positive)).ne

/-! Where the matrix splits. -/

section
variable {row l : Nat} {d e : Buffer ℝ}

theorem tqliSplit_returns (roomD : row ≤ d.size) (roomE : row ≤ e.size) (inside : l < row) :
    Returns (tqliSplit row l d e) fun m => l ≤ m ∧ m < row ∧ (m + 1 = row ∨ e.cells m = 0) ∧
      (l < m → e.cells l ≠ 0) := by
  have walk : Returns (flowLoop (tqliTest d e) (upTo l (row - 1)) ()) (Foundation.Flow.Ends
      (fun m => l ≤ m ∧ m < row ∧ e.cells m = 0 ∧ (l < m → e.cells l ≠ 0))
      fun _ => l < row - 1 → e.cells l ≠ 0) := by
    refine Returns.flow (fun m _ => l < m → e.cells l ≠ 0) _ (by omega)
      (fun none => absurd none (lt_irrefl l)) ?_
    rintro m - above below earlier
    apply Returns.known (d.read_inside (by omega))
    apply Returns.known (d.read_inside (by omega))
    apply Returns.known (e.read_inside (by omega))
    split
    case isTrue absorbed =>
      exact Returns.done ⟨above, by omega, abs_eq_zero.mp (add_eq_right.mp absorbed), earlier⟩
    case isFalse apart =>
      refine Returns.done fun _ => ?_
      rcases Nat.lt_or_eq_of_le above with later | rfl
      · exact earlier later
      · rw [add_eq_right, abs_eq_zero] at apart
        exact apart
  refine Returns.next walk fun flow _ ends => ?_
  cases flow with
  | leave m => exact Returns.done ⟨ends.1, ends.2.1, Or.inr ends.2.2.1, ends.2.2.2⟩
  | proceed => exact Returns.done ⟨by omega, by omega, Or.inl (by omega), ends⟩

end

/-! One sweep. -/

section
variable {row i k l m : Nat} {V : Matrix (Fin row) (Fin row) ℝ}

theorem tqliVector_loop {z : Buffer ℝ} (rows : row ≤ 46340) (room : row * row ≤ z.size)
    (inside : i + 1 < row) (s c : ℝ) :
    Returns ((upTo 0 row).foldlM (tqliVector row i s c) z) fun z' => z'.size = z.size ∧
      z'.matrix row = columnsRotated (z.matrix row) ⟨i, by omega⟩ ⟨i + 1, inside⟩ c s := by
  refine rows_loop _ fun t z' size old => ?_
  rw [← size] at room ⊢
  have entry : z'.cells (row * t + i) = z.matrix row t ⟨i, by omega⟩ := old ⟨i, by omega⟩
  have entry' : z'.cells (row * t + (i + 1)) = z.matrix row t ⟨i + 1, inside⟩ := old ⟨i + 1, inside⟩
  apply Returns.known (Buffer.readFrom_flat rows room t.isLt inside)
  apply Returns.known (Buffer.readFrom_flat rows room t.isLt (by omega))
  apply Returns.known (Buffer.writeFrom_flat rows room t.isLt inside _)
  rw [entry, entry']
  have room' (x : ℝ) : row * row ≤ (z'.set (row * t + (i + 1)) x).size := room
  refine ⟨_, Buffer.writeFrom_flat rows (room' _) t.isLt (by omega) _, rfl, fun r q => ?_⟩
  change (Buffer.set _ _ _).entry row r q = _
  rw [Buffer.entry_set (by omega) q.isLt, Buffer.entry_set inside q.isLt]
  by_cases here : r = t
  · have place (j : Nat) (below : j < row) : ((t : Nat) = t ∧ (q : Nat) = j) = (q = ⟨j, below⟩) := by
      simp only [Fin.ext_iff, true_and]
    rw [here, if_pos rfl, columnsRotated, Matrix.of_apply]
    refine ite_congr (place i _) (fun _ => rfl) fun _ => ?_
    exact ite_congr (place _ inside) (fun _ => rfl) fun _ => old q
  · rw [if_neg here, if_neg fun same => here (Fin.ext same.1), if_neg fun same => here (Fin.ext same.1)]
    rfl

structure EigenRoom (row : Nat) (state : Eigen ℝ) : Prop where
  rows : row ≤ 46340
  d : row ≤ state.d.size
  e : row ≤ state.e.size
  z : row * row ≤ state.z.size

/-- The vectors are orthogonal, and turn the matrix into what is kept of it. -/
structure Keeps (row : Nat) (state : Eigen ℝ) : Prop where
  room : EigenRoom row state
  orthogonal : (state.z.matrix row)ᵀ * state.z.matrix row = 1

/-- The matrix that the vectors and the two diagonals stand for, where the entries next to the
diagonal are left out in front of row `l`. -/
noncomputable def eigenMatrix (row l : Nat) (state : Eigen ℝ) : Matrix (Fin row) (Fin row) ℝ :=
  state.z.matrix row * band row state.d.cells (keptFrom l state.e.cells) * (state.z.matrix row)ᵀ

/-- The diagonal inside of a sweep. -/
def sweepDiagonal [Sub K] (k : Nat) (rotating : Rotating K) (r : Nat) : K :=
  if r = k then rotating.d.cells r - rotating.p else rotating.d.cells r

/-- The entries next to it from row `l` on, between the bulge and the row where the matrix splits. -/
def sweepEntries [Zero K] [Mul K] (l m k : Nat) (rotating : Rotating K) (r : Nat) : K :=
  if r < l ∨ r = m then 0
  else if r = k then rotating.g
  else if r + 1 = k then rotating.c * rotating.e.cells r
  else rotating.e.cells r

/-- The bulge. -/
def sweepBulge [Zero K] [Mul K] (l m k : Nat) (rotating : Rotating K) : K :=
  if k = l ∨ k = m then 0 else rotating.s * rotating.e.cells (k - 1)

/-- A sweep has come up to row `k`. -/
structure SweepAt (row l m k : Nat) (e : Buffer ℝ) (V : Matrix (Fin row) (Fin row) ℝ)
    (rotating : Rotating ℝ) : Prop where
  keeps : Keeps row rotating.toEigen
  matrix : rotating.z.matrix row * bulged row k (sweepDiagonal k rotating) (sweepEntries l m k rotating)
    (sweepBulge l m k rotating) * (rotating.z.matrix row)ᵀ = V
  same : ∀ t, t < k ∨ m < t → rotating.e.cells t = e.cells t

/-- A sweep that has been left. -/
structure SweepLeft (row l m : Nat) (e : Buffer ℝ) (rotating : Rotating ℝ) : Prop where
  keeps : Keeps row rotating.toEigen
  short : |rotating.r| < fltEpsilon
  cleared : rotating.e.cells m = 0
  same : ∀ t, t < l ∨ m < t → rotating.e.cells t = e.cells t

/-- The two diagonals of a sweep go on as a rotation moves the bulge. -/
theorem sweep_chased {rotating : Rotating ℝ} (above : l ≤ i) (inside : i < m) {r : ℝ} {z : Buffer ℝ}
    (unit : rotating.g / r * (rotating.g / r) +
      rotating.s * rotating.e.cells i / r * (rotating.s * rotating.e.cells i / r) = 1)
    (square : r * r = rotating.s * rotating.e.cells i * (rotating.s * rotating.e.cells i) +
      rotating.g * rotating.g) (nonzero : r ≠ 0) :
    let s := rotating.s * rotating.e.cells i / r
    let c := rotating.g / r
    let g := rotating.d.cells (i + 1) - rotating.p
    let r' := (rotating.d.cells i - g) * s + (2 : Nat) * c * (rotating.c * rotating.e.cells i)
    let next : Rotating ℝ := { d := rotating.d.set (i + 1) (g + s * r'), e := rotating.e.set (i + 1) r, z,
                               s, c, p := s * r', g := c * r' - rotating.c * rotating.e.cells i, r := r' }
    Chased i c s (sweepBulge l m (i + 1) rotating) (sweepDiagonal (i + 1) rotating)
      (sweepEntries l m (i + 1) rotating) (sweepDiagonal i next) (sweepEntries l m i next)
        (sweepBulge l m i next) := by
  intro s c g r' next
  have before : sweepEntries l m (i + 1) rotating i = rotating.c * rotating.e.cells i := by
    rw [sweepEntries, if_neg (by omega), if_neg (by omega), if_pos rfl]
  have diagonal : sweepDiagonal (i + 1) rotating i = rotating.d.cells i := if_neg (by omega)
  have corner : sweepDiagonal (i + 1) rotating (i + 1) = g := if_pos rfl
  have total : r' = (sweepDiagonal (i + 1) rotating i - sweepDiagonal (i + 1) rotating (i + 1)) * s +
      2 * c * sweepEntries l m (i + 1) rotating i := by
    rw [before, diagonal, corner, Nat.cast_ofNat.symm]
  constructor
  · exact unit
  · by_cases last : i + 1 = m
    · rw [sweepBulge, if_pos (Or.inr last), sweepEntries, if_pos (Or.inr last), mul_zero, mul_zero]
    · rw [sweepBulge, if_neg (by omega), sweepEntries, if_neg (by omega), if_pos rfl, Nat.add_sub_cancel]
      simp only [c, s]
      ring
  · rw [← total, corner, sweepDiagonal, if_neg (by omega)]
    exact Buffer.set_same _ _ _
  · rw [← total, diagonal, sweepDiagonal, if_pos rfl]
    exact congrArg (· - s * r') (Buffer.set_other _ (by omega) _)
  · intro t first second
    rw [sweepDiagonal, if_neg first, sweepDiagonal, if_neg second]
    exact Buffer.set_other _ second _
  · by_cases last : i + 1 = m
    · rw [sweepBulge, if_pos (Or.inr last), sweepEntries, if_pos (Or.inr last), sweepEntries,
        if_pos (Or.inr last), mul_zero, mul_zero, add_zero]
    · have apart : ¬(i + 1 < l ∨ i + 1 = m) := by omega
      rw [sweepBulge, if_neg (by omega), sweepEntries, if_neg apart, sweepEntries, if_neg apart, if_pos rfl,
        if_neg (by omega), if_neg (by omega), Nat.add_sub_cancel]
      refine (Buffer.set_same _ _ _).trans ?_
      simp only [c, s]
      field_simp
      linear_combination square
  · rw [← total, before, sweepEntries, if_neg (by omega), if_pos rfl]
  · intro t same
    by_cases front : t < l
    · rw [sweepEntries, if_pos (Or.inl front), sweepEntries, if_pos (Or.inl front), sweepBulge,
        if_pos (by omega), mul_zero, mul_zero]
      exact ⟨rfl, rfl⟩
    have index : i - 1 = t := by omega
    have old : next.e.cells t = rotating.e.cells t := Buffer.set_other _ (by omega) _
    have entry : sweepEntries l m (i + 1) rotating t = rotating.e.cells t := by
      rw [sweepEntries, if_neg (by omega), if_neg (by omega), if_neg (by omega)]
    rw [sweepEntries, if_neg (by omega), if_neg (by omega), if_pos same, sweepBulge, if_neg (by omega), index,
      old, entry]
    exact ⟨rfl, rfl⟩
  · intro t first second third
    have old : next.e.cells t = rotating.e.cells t := Buffer.set_other _ second _
    rw [sweepEntries, sweepEntries, old]
    refine ite_congr rfl (fun _ => rfl) fun _ => ?_
    rw [if_neg first, if_neg third, if_neg second, if_neg (by omega)]

/-- One rotation. -/
theorem SweepAt.rotate {e : Buffer ℝ} {rotating : Rotating ℝ} (part : SweepAt row l m (i + 1) e V rotating)
    (above : l ≤ i) (inside : i < m) (below : m < row) {r : ℝ} (nonzero : r ≠ 0)
    (square : r * r = rotating.s * rotating.e.cells i * (rotating.s * rotating.e.cells i) +
      rotating.g * rotating.g) :
    Returns (tqliRotate row i (rotating.s * rotating.e.cells i) (rotating.c * rotating.e.cells i)
      (rotating.e.set (i + 1) r) r rotating) (SweepAt row l m i e V) := by
  have room := part.keeps.room
  have inRow : i + 1 < row := by omega
  apply Returns.known (quotient_nonzero nonzero _)
  apply Returns.known (quotient_nonzero nonzero _)
  apply Returns.known (rotating.d.read_inside (inRow.trans_le room.d))
  apply Returns.known (rotating.d.read_inside (by have := room.d; omega))
  apply Returns.known (rotating.d.write_inside (inRow.trans_le room.d) _)
  refine Returns.next (tqliVector_loop room.rows room.z inRow _ _) fun z _ ⟨size, rotated⟩ => ?_
  have unit : rotating.g / r * (rotating.g / r) +
      rotating.s * rotating.e.cells i / r * (rotating.s * rotating.e.cells i / r) = 1 := by
    field_simp
    linear_combination -square
  have apart : (⟨i, by omega⟩ : Fin row) ≠ ⟨i + 1, inRow⟩ := fun same => by simp at same
  have turns := planeRotation_orthogonal apart unit
  have back := mul_eq_one_comm.mp turns
  have chased := sweep_chased (z := z) above inside unit square nonzero
  have moved := chased.rotated inRow
  rw [← mul_planeRotation] at rotated
  refine Returns.done ⟨⟨⟨room.rows, ?_, room.e, size.symm ▸ room.z⟩, ?_⟩, ?_, fun t outside => ?_⟩
  · exact room.d
  · simp only
    rw [rotated]
    exact orthogonal_mul part.keeps.orthogonal turns
  · simp only
    rw [rotated]
    refine Eq.trans ?_ part.matrix
    generalize planeRotation (⟨i, by omega⟩ : Fin row) ⟨i + 1, inRow⟩ (rotating.g / r)
      (rotating.s * rotating.e.cells i / r) = J at moved back ⊢
    refine (congrArg (fun B => rotating.z.matrix row * J * B * (rotating.z.matrix row * J)ᵀ)
      moved.symm).trans ?_
    simp only [Matrix.transpose_mul, Matrix.mul_assoc]
    rw [← Matrix.mul_assoc J Jᵀ, back, Matrix.one_mul, ← Matrix.mul_assoc J Jᵀ, back, Matrix.one_mul]
  · exact (Buffer.set_other _ (by omega) _).trans (part.same t (by omega))

theorem SweepAt.turn {e : Buffer ℝ} {rotating : Rotating ℝ} {t : Nat}
    (part : SweepAt row l m (l + (t + 1)) e V rotating) (inside : l + t < m) (below : m < row) :
    Returns (tqliTurn Real.sqrt row l m rotating t)
      (Foundation.Flow.Ends (SweepLeft row l m e) (SweepAt row l m (l + t) e V)) := by
  have room := part.keeps.room
  apply Returns.known (rotating.e.read_inside (by have := room.e; omega))
  refine Returns.next (pythagFloat_returns _ _) fun r _ length => ?_
  apply Returns.known (rotating.e.write_inside (by have := room.e; omega) _)
  split
  case isTrue short =>
    have inE : m < (rotating.e.set (l + t + 1) r).size := below.trans_le room.e
    have left : Returns (tqliBreak m (l + t) (rotating.e.set (l + t + 1) r) r rotating)
        (SweepLeft row l m e) := by
      apply Returns.known (rotating.d.read_inside (by have := room.d; omega))
      apply Returns.known (rotating.d.write_inside (by have := room.d; omega) _)
      apply Returns.known (Buffer.write_inside _ inE _)
      refine Returns.done ⟨⟨⟨room.rows, room.d, room.e, room.z⟩, part.keeps.orthogonal⟩, short,
        Buffer.set_same _ _ _, fun k outside => ?_⟩
      refine (Buffer.set_other _ (by omega) _).trans ((Buffer.set_other _ (by omega) _).trans ?_)
      exact part.same k (by omega)
    exact Returns.next left fun broken _ left => Returns.done left
  case isFalse long =>
    have positive : 0 < r := by
      rcases length with ⟨zero, -⟩ | ⟨positive, -⟩
      · rw [zero, abs_zero] at long
        exact absurd fltEpsilon_pos long
      · exact positive
    have square := (length.resolve_left fun zero => positive.ne' zero.1).2
    exact Returns.next (part.rotate (Nat.le_add_right l t) inside below positive.ne' square)
      fun rotated _ further => Returns.done further

/-- The first matrix of a sweep is the one that the state stands for. -/
theorem tqliStart_returns {state : Eigen ℝ} (keeps : Keeps row state) (inside : l < m) (below : m < row)
    (split : state.e.cells m = 0) (nonzero : state.e.cells l ≠ 0) :
    Returns (tqliStart Real.sqrt l m state) (SweepAt row l m m state.e (eigenMatrix row l state)) := by
  obtain ⟨rows, roomD, roomE, roomZ⟩ := keeps.room
  apply Returns.known (state.d.read_inside (by omega))
  apply Returns.known (state.d.read_inside (by omega))
  apply Returns.known (state.e.read_inside (by omega))
  apply Returns.known (quotient_nonzero (mul_ne_zero (Nat.cast_ne_zero.mpr two_ne_zero) nonzero) _)
  refine Returns.next (pythagFloat_returns _ 1) fun r _ length => ?_
  have positive : 0 < r := by
    rcases length with ⟨-, short⟩ | ⟨positive, -⟩
    · rw [abs_one, fltEpsilon] at short
      norm_num at short
    · exact positive
  apply Returns.known (state.d.read_inside (by omega))
  apply Returns.known (quotient_nonzero (absSign_apart positive _) _)
  refine Returns.done ⟨⟨⟨rows, roomD, roomE, roomZ⟩, keeps.orthogonal⟩, ?_, fun _ _ => rfl⟩
  rw [sweepBulge, if_pos (Or.inr rfl), bulged_zero, eigenMatrix]
  congr 2
  refine bulged_congr (fun t _ => ?_) (fun t _ => ?_) fun _ _ _ => rfl
  · rw [sweepDiagonal, sub_zero, ite_self]
  · rw [sweepEntries, one_mul, ite_self, keptFrom]
    by_cases front : t < l
    · rw [if_pos front, if_pos (Or.inl front)]
    · rw [if_neg front]
      by_cases last : t = m
      · rw [if_pos (Or.inr last), last, split]
      · rw [if_neg (by omega), if_neg last]

theorem tqliTurns_returns {state : Eigen ℝ} (keeps : Keeps row state) (inside : l < m) (below : m < row)
    (split : state.e.cells m = 0) (nonzero : state.e.cells l ≠ 0) :
    Returns (tqliTurns Real.sqrt row l m state)
      (Foundation.Flow.Ends (SweepLeft row l m state.e)
        (SweepAt row l m l state.e (eigenMatrix row l state))) := by
  refine Returns.next (tqliStart_returns keeps inside below split nonzero) fun rotating _ started => ?_
  have whole : l + (m - l) = m := by omega
  refine Returns.flow_down
    (fun t rotating => SweepAt row l m (l + t) state.e (eigenMatrix row l state) rotating) _
    (whole.symm ▸ started) fun t rotating left part => ?_
  exact part.turn (by omega) below

/-- The end of a sweep. -/
theorem tqliFinish_returns {rotating : Rotating ℝ} (room : EigenRoom row rotating.toEigen) (inside : l < m)
    (below : m < row) : tqliFinish l m rotating = some ⟨rotating.d.set l (rotating.d.cells l - rotating.p),
      (rotating.e.set l rotating.g).set m 0, rotating.z⟩ := by
  have inD : l < rotating.d.size := by
    have := room.d
    omega
  have inE : l < rotating.e.size ∧ m < (rotating.e.set l rotating.g).size := by
    have := room.e
    exact ⟨by omega, by rw [Buffer.set_size]; omega⟩
  simp only [tqliFinish, rotating.d.read_inside inD, rotating.d.write_inside inD,
    rotating.e.write_inside inE.1, Buffer.write_inside _ inE.2, Option.bind_eq_bind, Option.bind_some]
  rfl

/-- What a sweep leaves. -/
structure SweepEnds (row l m : Nat) (state next : Eigen ℝ) : Prop where
  keeps : Keeps row next
  cleared : next.e.cells m = 0
  same : ∀ t, t < l ∨ m < t → next.e.cells t = state.e.cells t
  ends : (∃ broken, tqliTurns Real.sqrt row l m state = some (.leave broken)) ∨
    eigenMatrix row l next = eigenMatrix row l state

theorem tqliSweep_returns {state : Eigen ℝ} (keeps : Keeps row state) (inside : l < m) (below : m < row)
    (split : state.e.cells m = 0) (nonzero : state.e.cells l ≠ 0) :
    Returns (tqliSweep Real.sqrt row l m state) (SweepEnds row l m state) := by
  refine Returns.next (tqliTurns_returns keeps inside below split nonzero) fun flow turned ends => ?_
  cases flow with
  | leave broken =>
    have left : SweepLeft row l m state.e broken := ends
    simp only
    split
    · exact Returns.done ⟨left.keeps, left.cleared, left.same, Or.inl ⟨broken, turned⟩⟩
    · rw [tqliFinish_returns left.keeps.room inside below]
      have room := left.keeps.room
      refine Returns.done ⟨⟨⟨room.rows, room.d, room.e, room.z⟩, left.keeps.orthogonal⟩,
        Buffer.set_same _ _ _, fun t outside => ?_, Or.inl ⟨broken, turned⟩⟩
      exact (Buffer.set_other _ (by omega) _).trans ((Buffer.set_other _ (by omega) _).trans
        (left.same t outside))
  | proceed rotated =>
    have part : SweepAt row l m l state.e (eigenMatrix row l state) rotated := ends
    have room := part.keeps.room
    simp only
    rw [tqliFinish_returns room inside below]
    refine Returns.done ⟨⟨⟨room.rows, room.d, room.e, room.z⟩, part.keeps.orthogonal⟩,
      Buffer.set_same _ _ _, fun t outside => ?_, Or.inr ?_⟩
    · exact (Buffer.set_other _ (by omega) _).trans ((Buffer.set_other _ (by omega) _).trans
        (part.same t outside))
    · rw [← part.matrix, sweepBulge, if_pos (Or.inl rfl), bulged_zero, eigenMatrix]
      congr 2
      refine bulged_congr (fun t _ => ?_) (fun t _ => ?_) fun _ _ _ => rfl
      · rw [sweepDiagonal]
        split
        case isTrue here => rw [here, Buffer.set_same]
        case isFalse apart => exact Buffer.set_other _ apart _
      · rw [keptFrom, sweepEntries]
        by_cases front : t < l
        · rw [if_pos front, if_pos (Or.inl front)]
        · rw [if_neg front]
          by_cases last : t = m
          · rw [if_pos (Or.inr last), last, Buffer.set_same]
          · rw [if_neg (by omega), Buffer.set_other _ last]
            by_cases here : t = l
            · rw [if_pos here, here, Buffer.set_same]
            · rw [if_neg here, if_neg (by omega), Buffer.set_other _ here]

end

/-! Runs of sweeps. -/

section
open scoped Matrix.Norms.Frobenius

variable {row : Nat}

/-- A call comes to pass `iter` of row `l` with this state. -/
inductive Reaches (row : Nat) (start : Eigen ℝ) : Nat → Nat → Eigen ℝ → Prop
  | first : Reaches row start 0 0 start
  | again {l iter : Nat} {state next : Eigen ℝ} (inside : l < row) (before : Reaches row start l iter state)
      (passed : tqliPass Real.sqrt row l state iter = some (.proceed next)) :
      Reaches row start l (iter + 1) next
  | later {l iter : Nat} {state next : Eigen ℝ} (inside : l < row) (before : Reaches row start l iter state)
      (passed : tqliPass Real.sqrt row l state iter = some (.leave next)) : Reaches row start (l + 1) 0 next

/-- The sweep of this pass comes to a rotation shorter than the machine epsilon. -/
def BreaksOff (row l iter : Nat) (state : Eigen ℝ) : Prop :=
  iter ≠ 30 ∧ ∃ m, m ≠ l ∧ tqliSplit row l state.d state.e = some m ∧
    ∃ broken, tqliTurns Real.sqrt row l m state = some (.leave broken)

/-- A call has a sweep that is broken off. -/
def ComesToBreak (row : Nat) (start : Eigen ℝ) : Prop :=
  ∃ l iter state, l < row ∧ Reaches row start l iter state ∧ BreaksOff row l iter state

/-- The rows before this one have had their sweeps, and what they have left next to the diagonal
bounds how far the rest is from the matrix. -/
structure RowsDone (row l iter : Nat) (start state : Eigen ℝ) : Prop where
  keeps : Keeps row state
  last : state.e.cells (row - 1) = 0
  ends : ComesToBreak row start ∨ Reaches row start l iter state ∧
    ‖eigenMatrix row 0 start - eigenMatrix row l state‖ ≤ ∑ t ∈ Finset.range l, √2 * |state.e.cells t|

theorem RowsDone.leave {l iter : Nat} {start state : Eigen ℝ} (part : RowsDone row l iter start state)
    (inside : l < row) (left : tqliPass Real.sqrt row l state iter = some (.leave state)) :
    RowsDone row (l + 1) 0 start state := by
  refine ⟨part.keeps, part.last, part.ends.imp id fun reached => ⟨.later inside reached.1 left, ?_⟩⟩
  rw [Finset.sum_range_succ]
  exact residual_next part.keeps.orthogonal reached.2

theorem RowsDone.pass {l iter : Nat} {start state : Eigen ℝ} (part : RowsDone row l iter start state)
    (inside : l < row) (within : iter < 31) : Returns (tqliPass Real.sqrt row l state iter)
      (Foundation.Flow.Ends (RowsDone row (l + 1) 0 start)
        fun next => iter + 1 < 31 ∧ RowsDone row l (iter + 1) start next) := by
  obtain ⟨m, found, above, below, split, apart⟩ :=
    tqliSplit_returns part.keeps.room.d part.keeps.room.e inside
  by_cases ends : m = l ∨ iter = 30
  · have left : tqliPass Real.sqrt row l state iter = some (.leave state) := by
      rw [tqliPass, found]
      exact if_pos ends
    exact ⟨_, left, part.leave inside left⟩
  · have later : l < m := by omega
    have zero : state.e.cells m = 0 := by
      rcases split with last | zero
      · have index : m = row - 1 := by omega
        rw [index, part.last]
      · exact zero
    obtain ⟨next, ran, swept⟩ := tqliSweep_returns part.keeps later below zero (apart later)
    have passed : tqliPass Real.sqrt row l state iter = some (.proceed next) := by
      rw [tqliPass, found, Option.bind_eq_bind, Option.bind_some, if_neg ends, ran]
      rfl
    refine ⟨_, passed, by omega, swept.keeps, ?_, ?_⟩
    · rcases Nat.lt_or_eq_of_le (Nat.le_sub_one_of_lt below) with before | here
      · exact (swept.same _ (Or.inr before)).trans part.last
      · exact here ▸ swept.cleared
    · rcases part.ends with broken | ⟨reached, close⟩
      · exact Or.inl broken
      · rcases swept.ends with broken | matrix
        · exact Or.inl ⟨l, iter, state, inside, reached, by omega, m, later.ne', found, broken⟩
        · refine Or.inr ⟨.again inside reached passed, ?_⟩
          rw [matrix]
          refine close.trans_eq (Finset.sum_congr rfl fun t member => ?_)
          rw [swept.same t (Or.inl (Finset.mem_range.mp member))]

theorem RowsDone.next {l : Nat} {start state : Eigen ℝ} (part : RowsDone row l 0 start state)
    (inside : l < row) : Returns (tqliRow Real.sqrt row state l) (RowsDone row (l + 1) 0 start) := by
  have passes : Returns (flowLoop (tqliPass Real.sqrt row l) (upTo 0 31) state)
      (Foundation.Flow.Ends (RowsDone row (l + 1) 0 start)
        fun next => 31 < 31 ∧ RowsDone row l 31 start next) :=
    Returns.flow (fun iter next => iter < 31 ∧ RowsDone row l iter start next) _ (Nat.zero_le 31)
      ⟨by decide, part⟩ fun _ _ _ _ part => part.2.pass inside part.1
  refine Returns.next passes fun flow _ ends => ?_
  cases flow with
  | leave state => exact Returns.done ends
  | proceed state => exact absurd ends.1 (lt_irrefl 31)

theorem tqliEntries_returns {e : Buffer ℝ} (room : row ≤ e.size) (positive : 0 < row) :
    Returns (tqliEntries row e) fun e' => e'.size = e.size ∧ e'.cells (row - 1) = 0 ∧
      ∀ t, t + 1 < row → e'.cells t = e.cells (t + 1) := by
  have shifted : Returns ((upTo 1 row).foldlM tqliShift e) fun e' => e'.size = e.size ∧
      ∀ t, e'.cells t = if t + 1 < row then e.cells (t + 1) else e.cells t := by
    refine Returns.loop (fun i (e' : Buffer ℝ) => e'.size = e.size ∧
      ∀ t, e'.cells t = if t + 1 < i then e.cells (t + 1) else e.cells t) positive
        ⟨rfl, fun t => (if_neg (by omega)).symm⟩ ?_
    rintro i e' above below ⟨size, cells⟩
    apply Returns.known (e'.read_inside (by omega))
    refine ⟨_, if_pos (by omega), size, fun t => ?_⟩
    by_cases here : t = i - 1
    · have next : t + 1 = i := by omega
      rw [here, Buffer.set_same, ← here, if_pos (by omega), next, cells i, if_neg (by omega)]
    · rw [Buffer.set_other _ here, cells t]
      exact if_congr (by omega) rfl rfl
  refine Returns.next shifted fun e' _ ⟨size, cells⟩ => ?_
  refine ⟨_, if_pos (by omega), size, Buffer.set_same _ _ _, fun t inside => ?_⟩
  rw [Buffer.set_other _ (by omega), cells t, if_pos inside]

end

end Simuless.Linalg
