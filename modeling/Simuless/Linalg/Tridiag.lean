import Mathlib.Algebra.BigOperators.Field
import Mathlib.Algebra.Order.Chebyshev
import Mathlib.Analysis.Real.Sqrt
import Simuless.Foundation.Tridiagonal
import Simuless.Linalg.Chol
import Simuless.Linalg.MatOps

/-! Tridiagonal form of a symmetric matrix.

From the last row up the entries of a row up to the one next to the diagonal are
reflected into that one. The vectors of the reflections stay behind in the rows
and columns that are done, and the second loop multiplies the reflections. Only
the entries up to the diagonal are read before they are written.
-/

set_option autoImplicit false

namespace Simuless.Linalg

open Foundation
open scoped Matrix

variable {K : Type}

section
variable [Field K] [LinearOrder K]

structure Tridiagonalising (K : Type) where
  a : Buffer K
  d : Buffer K
  e : Buffer K

/-- `scale += fabsf(a[i][k])`. -/
def tridiagScale (row i : Nat) (a : Buffer K) (scale : K) (k : Nat) : Option K := do
  let aik ← a.readFrom (row * i) k
  return scale + |aik|

structure TridiagLength (K : Type) where
  a : Buffer K
  h : K

/-- `a[i][k] /= scale` and `h += a[i][k] * a[i][k]`. -/
def tridiagDivide (row i : Nat) (scale : K) (length : TridiagLength K) (k : Nat) :
    Option (TridiagLength K) := do
  let aik ← length.a.readFrom (row * i) k
  let aik ← quotient aik scale
  let a ← length.a.writeFrom (row * i) k aik
  return ⟨a, length.h + aik * aik⟩

/-- `g += a[j][k] * a[i][k]`. -/
def tridiagLeft (row i j : Nat) (a : Buffer K) (g : K) (k : Nat) : Option K := do
  let ajk ← a.readFrom (row * j) k
  let aik ← a.readFrom (row * i) k
  return g + ajk * aik

/-- `g += a[k][j] * a[i][k]`. -/
def tridiagBelow (row i j : Nat) (a : Buffer K) (g : K) (k : Nat) : Option K := do
  let akj ← a.readFrom (row * k) j
  let aik ← a.readFrom (row * i) k
  return g + akj * aik

structure TridiagImage (K : Type) where
  a : Buffer K
  e : Buffer K
  f : K

/-- `e[j]` and `f`, for `i = l + 1`. -/
def tridiagImage (row l : Nat) (h : K) (image : TridiagImage K) (j : Nat) : Option (TridiagImage K) := do
  let aij ← image.a.readFrom (row * (l + 1)) j
  let aji ← quotient aij h
  let a ← image.a.writeFrom (row * j) (l + 1) aji
  let g ← (upTo 0 (j + 1)).foldlM (tridiagLeft row (l + 1) j a) 0
  let g ← (upTo (j + 1) (l + 1)).foldlM (tridiagBelow row (l + 1) j a) g
  let ej ← quotient g h
  let e ← image.e.write j ej
  let aij ← a.readFrom (row * (l + 1)) j
  return ⟨a, e, image.f + ej * aij⟩

/-- `a[j][k] -= f * e[k] + g * a[i][k]`. -/
def tridiagEntry (row i j : Nat) (f g : K) (e a : Buffer K) (k : Nat) : Option (Buffer K) := do
  let ek ← e.read k
  let aik ← a.readFrom (row * i) k
  let ajk ← a.readFrom (row * j) k
  a.writeFrom (row * j) k (ajk - (f * ek + g * aik))

structure TridiagReduced (K : Type) where
  a : Buffer K
  e : Buffer K

def tridiagReduce (row i : Nat) (hh : K) (reduced : TridiagReduced K) (j : Nat) :
    Option (TridiagReduced K) := do
  let f ← reduced.a.readFrom (row * i) j
  let ej ← reduced.e.read j
  let g := ej - hh * f
  let e ← reduced.e.write j g
  let a ← (upTo 0 (j + 1)).foldlM (tridiagEntry row i j f g e) reduced.a
  return ⟨a, e⟩

/-- `h` and the matrix, for `i = l + 1`. -/
def tridiagReflect (sqrtf : K → K) (row l : Nat) (scale : K) (state : Tridiagonalising K) :
    Option (K × Tridiagonalising K) := do
  let length ← (upTo 0 (l + 1)).foldlM (tridiagDivide row (l + 1) scale) ⟨state.a, 0⟩
  let f ← length.a.readFrom (row * (l + 1)) l
  let s ← root sqrtf length.h
  let g := if 0 ≤ f then -s else s
  let e ← state.e.write (l + 1) (scale * g)
  let h := length.h - f * g
  let a ← length.a.writeFrom (row * (l + 1)) l (f - g)
  let image ← (upTo 0 (l + 1)).foldlM (tridiagImage row l h) ⟨a, e, 0⟩
  let hh ← quotient image.f (h + h)
  let reduced ← (upTo 0 (l + 1)).foldlM (tridiagReduce row (l + 1) hh) ⟨image.a, image.e⟩
  return (h, ⟨reduced.a, state.d, reduced.e⟩)

/-- `e[i] = a[i][l]` where nothing is to be reflected; `h` is zero. -/
def tridiagKeep (row l : Nat) (state : Tridiagonalising K) : Option (K × Tridiagonalising K) := do
  let ail ← state.a.readFrom (row * (l + 1)) l
  let e ← state.e.write (l + 1) ail
  return (0, { state with e })

def tridiagTurn (sqrtf : K → K) (row : Nat) (state : Tridiagonalising K) (l : Nat) :
    Option (Tridiagonalising K) := do
  let (h, state) ←
    if 0 < l then do
      let scale ← (upTo 0 (l + 1)).foldlM (tridiagScale row (l + 1) state.a) 0
      if scale = 0 then tridiagKeep row l state else tridiagReflect sqrtf row l scale state
    else tridiagKeep row l state
  let d ← state.d.write (l + 1) h
  return { state with d }

/-- `g += a[i][k] * a[k][j]`. -/
def tridiagSum (row i j : Nat) (a : Buffer K) (g : K) (k : Nat) : Option K := do
  let aik ← a.readFrom (row * i) k
  let akj ← a.readFrom (row * k) j
  return g + aik * akj

/-- `a[k][j] -= g * a[k][i]`. -/
def tridiagSubtract (row i j : Nat) (g : K) (a : Buffer K) (k : Nat) : Option (Buffer K) := do
  let aki ← a.readFrom (row * k) i
  let akj ← a.readFrom (row * k) j
  a.writeFrom (row * k) j (akj - g * aki)

def tridiagColumn (row i : Nat) (a : Buffer K) (j : Nat) : Option (Buffer K) := do
  let g ← (upTo 0 i).foldlM (tridiagSum row i j a) 0
  (upTo 0 i).foldlM (tridiagSubtract row i j g) a

/-- `a[j][i] = a[i][j] = 0.0f`. -/
def tridiagClear (row i : Nat) (a : Buffer K) (j : Nat) : Option (Buffer K) := do
  let a ← a.writeFrom (row * i) j 0
  a.writeFrom (row * j) i 0

/-- The block in front of row `i`, times its reflection if it has one. -/
def tridiagMultiply (row i : Nat) (di : K) (a : Buffer K) : Option (Buffer K) :=
  if fltEpsilon < |di| then (upTo 0 i).foldlM (tridiagColumn row i) a else some a

def tridiagAccumulate (row : Nat) (state : Tridiagonalising K) (i : Nat) :
    Option (Tridiagonalising K) := do
  let di ← state.d.read i
  let a ← tridiagMultiply row i di state.a
  let aii ← a.readFrom (row * i) i
  let d ← state.d.write i aii
  let a ← a.writeFrom (row * i) i 1
  let a ← (upTo 0 i).foldlM (tridiagClear row i) a
  return { state with a, d }

def tridiag (sqrtf : K → K) (row : Nat) (state : Tridiagonalising K) : Option (Tridiagonalising K) := do
  let state ← (downFrom (row - 1)).foldlM (tridiagTurn sqrtf row) state
  let d ← state.d.write 0 0
  let e ← state.e.write 0 0
  (upTo 0 row).foldlM (tridiagAccumulate row) { state with d, e }

end

/-! The loops of the first half. -/

/-- A sum of terms that the loop does not change. -/
theorem sum_loop {body : ℝ → Nat → Option ℝ} {first last : Nat} (order : first ≤ last) (term : Nat → ℝ)
    (s : ℝ) (turn : ∀ k s, first ≤ k → k < last → body s k = some (s + term k)) :
    Returns ((upTo first last).foldlM body s) fun total =>
      total = s + ∑ k ∈ Finset.Ico first last, term k := by
  refine Returns.loop (fun k total => total = s + ∑ t ∈ Finset.Ico first k, term t) order ?_ ?_
  · rw [Finset.Ico_self, Finset.sum_empty, add_zero]
  · rintro k total above below rfl
    rw [turn k _ above below, Finset.sum_Ico_succ_top above, add_assoc]
    exact Returns.done rfl

/-- A loop that writes one entry a turn. -/
theorem written_loop {body : Buffer ℝ → Nat → Option (Buffer ℝ)} {row count : Nat} {a : Buffer ℝ}
    (written : Nat → Nat → Nat → Prop) [∀ k t q, Decidable (written k t q)] (r c : Nat → Nat)
    (value : Nat → Nat → ℝ) (nothing : ∀ t q, ¬ written 0 t q)
    (more : ∀ k < count, ∀ t q, written (k + 1) t q ↔ written k t q ∨ t = r k ∧ q = c k)
    (inside : ∀ k < count, c k < row)
    (turn : ∀ k < count, ∀ a' : Buffer ℝ, a'.size = a.size → (∀ t, ∀ q < row,
      a'.entry row t q = if written k t q then value t q else a.entry row t q) →
        body a' k = some (a'.set (row * r k + c k) (value (r k) (c k)))) :
    Returns ((upTo 0 count).foldlM body a) fun a' => a'.size = a.size ∧ ∀ t, ∀ q < row,
      a'.entry row t q = if written count t q then value t q else a.entry row t q := by
  refine Returns.loop (fun k (a' : Buffer ℝ) => a'.size = a.size ∧ ∀ t, ∀ q < row,
    a'.entry row t q = if written k t q then value t q else a.entry row t q) (Nat.zero_le count) ?_ ?_
  · exact ⟨rfl, fun t q _ => (if_neg (nothing t q)).symm⟩
  · rintro k a' - below ⟨size, entries⟩
    rw [turn k below a' size entries]
    refine Returns.done ⟨size, fun t q inRow => ?_⟩
    rw [Buffer.entry_set (inside k below) inRow, if_congr (more k below t q) rfl rfl]
    by_cases here : t = r k ∧ q = c k
    · rw [if_pos here, if_pos (Or.inr here), here.1, here.2]
    · rw [if_neg here, if_congr (or_iff_left here) rfl rfl]
      exact entries t q inRow

section
variable {row i l : Nat} {a e : Buffer ℝ} {h : ℝ} (rows : row ≤ 46340)
include rows

/-- The entry of the symmetric matrix with this lower half. -/
def lowerEntry (row : Nat) (a : Buffer K) (r c : Nat) : K :=
  if c ≤ r then a.entry row r c else a.entry row c r

theorem tridiagScale_loop (room : row * row ≤ a.size) (inRow : i < row) (order : l < row) :
    Returns ((upTo 0 (l + 1)).foldlM (tridiagScale row i a) 0) fun scale =>
      scale = ∑ k ∈ Finset.range (l + 1), |a.entry row i k| := by
  refine (sum_loop (Nat.zero_le _) (fun k => |a.entry row i k|) 0 fun k s _ below => ?_).weaken
    fun scale same => same.trans ?_
  · rw [tridiagScale, Buffer.readFrom_flat rows room inRow (by omega)]
    rfl
  · rw [zero_add, Finset.range_eq_Ico]

theorem tridiagDivide_loop (room : row * row ≤ a.size) (inRow : i < row) (order : l < row) {scale : ℝ}
    (nonzero : scale ≠ 0) : Returns ((upTo 0 (l + 1)).foldlM (tridiagDivide row i scale) ⟨a, 0⟩)
      fun length => length.a.size = a.size ∧ (∀ t, ∀ q < row, length.a.entry row t q =
        if t = i ∧ q < l + 1 then a.entry row i q / scale else a.entry row t q) ∧
          length.h = ∑ k ∈ Finset.range (l + 1), a.entry row i k / scale * (a.entry row i k / scale) := by
  refine Returns.loop (fun k (length : TridiagLength ℝ) => length.a.size = a.size ∧ (∀ t, ∀ q < row,
    length.a.entry row t q = if t = i ∧ q < k then a.entry row i q / scale else a.entry row t q) ∧
      length.h = ∑ k ∈ Finset.range k, a.entry row i k / scale * (a.entry row i k / scale))
        (Nat.zero_le _) ⟨rfl, fun t q _ => (if_neg (by omega)).symm, rfl⟩ ?_
  rintro k ⟨a', s⟩ - below ⟨size, entries, summed⟩
  have roomA' : row * row ≤ a'.size := size.symm ▸ room
  have old : a'.cells (row * i + k) = a.entry row i k := (entries i k (by omega)).trans (if_neg (by omega))
  apply Returns.known (Buffer.readFrom_flat rows roomA' inRow (by omega))
  apply Returns.known (quotient_nonzero nonzero _)
  apply Returns.known (Buffer.writeFrom_flat rows roomA' inRow (by omega) _)
  refine Returns.done ⟨size, fun t q inRow' => ?_, ?_⟩
  · simp only
    rw [Buffer.entry_set (by omega) inRow', old, entries t q inRow']
    by_cases here : t = i ∧ q = k
    · rw [if_pos here, if_pos (by omega), here.2]
    · rw [if_neg here]
      exact if_congr (by omega) rfl rfl
  · simp only at summed ⊢
    rw [old, Finset.sum_range_succ, summed]

/-- The lower half of the matrix times a row, divided by a number. -/
def tridiagImageOf [Field K] (row l : Nat) (h : K) (a : Buffer K) (j : Nat) : K :=
  (∑ k ∈ Finset.range (l + 1), lowerEntry row a j k * a.entry row (l + 1) k) / h

theorem tridiagImage_loop (room : row * row ≤ a.size) (inside : l + 1 < row) (roomE : row ≤ e.size)
    (nonzero : h ≠ 0) : Returns ((upTo 0 (l + 1)).foldlM (tridiagImage row l h) ⟨a, e, 0⟩)
      fun image => image.a.size = a.size ∧ image.e.size = e.size ∧
        (∀ t, ∀ q < row, image.a.entry row t q =
          if q = l + 1 ∧ t < l + 1 then a.entry row (l + 1) t / h else a.entry row t q) ∧
        (∀ k, image.e.cells k = if k < l + 1 then tridiagImageOf row l h a k else e.cells k) ∧
        image.f = ∑ k ∈ Finset.range (l + 1), tridiagImageOf row l h a k * a.entry row (l + 1) k := by
  refine Returns.loop (fun j (image : TridiagImage ℝ) => image.a.size = a.size ∧ image.e.size = e.size ∧
    (∀ t, ∀ q < row, image.a.entry row t q =
      if q = l + 1 ∧ t < j then a.entry row (l + 1) t / h else a.entry row t q) ∧
    (∀ k, image.e.cells k = if k < j then tridiagImageOf row l h a k else e.cells k) ∧
    image.f = ∑ k ∈ Finset.range j, tridiagImageOf row l h a k * a.entry row (l + 1) k) (Nat.zero_le _)
      ⟨rfl, rfl, fun t q _ => (if_neg (by omega)).symm, fun k => (if_neg (by omega)).symm, rfl⟩ ?_
  rintro j ⟨a', e', f⟩ - below ⟨size, sizeE, entries, cells, summed⟩
  simp only at size sizeE entries cells summed
  have row_same (k : Nat) (before : k < l + 1) : a'.entry row (l + 1) k = a.entry row (l + 1) k :=
    (entries _ k (by omega)).trans (if_neg (by omega))
  have roomA' : row * row ≤ a'.size := size.symm ▸ room
  apply Returns.known (Buffer.readFrom_flat rows roomA' inside (by omega))
  apply Returns.known (quotient_nonzero nonzero _)
  apply Returns.known (Buffer.writeFrom_flat rows roomA' (by omega) inside _)
  have old : a'.cells (row * (l + 1) + j) = a.entry row (l + 1) j := row_same j below
  have entries' (t q : Nat) (inRow : q < row) : (a'.set (row * j + (l + 1))
      (a'.cells (row * (l + 1) + j) / h)).entry row t q =
        if q = l + 1 ∧ t < j + 1 then a.entry row (l + 1) t / h else a.entry row t q := by
    rw [Buffer.entry_set inside inRow, old, entries t q inRow]
    by_cases here : t = j ∧ q = l + 1
    · rw [if_pos here, if_pos (by omega), here.1]
    · rw [if_neg here]
      exact if_congr (by omega) rfl rfl
  have size' : (a'.set (row * j + (l + 1)) (a'.cells (row * (l + 1) + j) / h)).size = a.size := size
  generalize a'.set (row * j + (l + 1)) (a'.cells (row * (l + 1) + j) / h) = b at entries' size'
  have roomB : row * row ≤ b.size := size'.symm ▸ room
  have along (k : Nat) (before : k < l + 1) :
      b.readFrom (row * (l + 1)) k = some (a.entry row (l + 1) k) := by
    rw [Buffer.readFrom_flat rows roomB inside (by omega)]
    exact congrArg some ((entries' _ k (by omega)).trans (if_neg (by omega)))
  have left : Returns ((upTo 0 (j + 1)).foldlM (tridiagLeft row (l + 1) j b) 0) fun g =>
      g = 0 + ∑ k ∈ Finset.Ico 0 (j + 1), lowerEntry row a j k * a.entry row (l + 1) k := by
    refine sum_loop (Nat.zero_le _) _ 0 fun k s _ before => ?_
    have entry : b.readFrom (row * j) k = some (lowerEntry row a j k) := by
      rw [Buffer.readFrom_flat rows roomB (by omega) (by omega), lowerEntry, if_pos (by omega)]
      exact congrArg some ((entries' j k (by omega)).trans (if_neg (by omega)))
    rw [tridiagLeft, entry, along k (by omega)]
    rfl
  refine Returns.next left fun g _ same => ?_
  have under : Returns ((upTo (j + 1) (l + 1)).foldlM (tridiagBelow row (l + 1) j b) g) fun g' =>
      g' = g + ∑ k ∈ Finset.Ico (j + 1) (l + 1), lowerEntry row a j k * a.entry row (l + 1) k := by
    refine sum_loop (Nat.succ_le_of_lt below) _ g fun k s above before => ?_
    have entry : b.readFrom (row * k) j = some (lowerEntry row a j k) := by
      rw [Buffer.readFrom_flat rows roomB (by omega) (by omega), lowerEntry, if_neg (by omega)]
      exact congrArg some ((entries' k j (by omega)).trans (if_neg (by omega)))
    rw [tridiagBelow, entry, along k before]
    rfl
  refine Returns.next under fun g' _ same' => ?_
  apply Returns.known (quotient_nonzero nonzero _)
  apply Returns.known (e'.write_inside (by omega) _)
  apply Returns.known (along j below)
  have value : g' / h = tridiagImageOf row l h a j := by
    rw [same', same, zero_add, Finset.sum_Ico_consecutive _ (Nat.zero_le _) (Nat.succ_le_of_lt below),
      ← Finset.range_eq_Ico]
    rfl
  refine Returns.done ⟨size', sizeE, entries', fun k => ?_, ?_⟩
  · simp only
    by_cases here : k = j
    · rw [here, Buffer.set_same, if_pos (Nat.lt_succ_self j), value]
    · rw [Buffer.set_other _ here, cells k]
      exact if_congr (by omega) rfl rfl
  · simp only
    rw [value, summed, Finset.sum_range_succ]

theorem tridiagReduce_loop (room : row * row ≤ a.size) (inside : l + 1 < row) (roomE : row ≤ e.size)
    (hh : ℝ) : Returns ((upTo 0 (l + 1)).foldlM (tridiagReduce row (l + 1) hh) ⟨a, e⟩)
      fun reduced => reduced.a.size = a.size ∧ reduced.e.size = e.size ∧
        (∀ t, ∀ q < row, reduced.a.entry row t q =
          if t < l + 1 ∧ q ≤ t then a.entry row t q - (a.entry row (l + 1) t *
            (e.cells q - hh * a.entry row (l + 1) q) + (e.cells t - hh * a.entry row (l + 1) t) *
              a.entry row (l + 1) q) else a.entry row t q) ∧
        ∀ k, l + 1 ≤ k → reduced.e.cells k = e.cells k := by
  let u (k : Nat) : ℝ := a.entry row (l + 1) k
  let w (k : Nat) : ℝ := e.cells k - hh * u k
  refine (Returns.loop (fun j (reduced : TridiagReduced ℝ) => reduced.a.size = a.size ∧
    reduced.e.size = e.size ∧ (∀ t, ∀ q < row, reduced.a.entry row t q =
      if t < j ∧ q ≤ t then a.entry row t q - (u t * w q + w t * u q) else a.entry row t q) ∧
    ∀ k, reduced.e.cells k = if k < j then w k else e.cells k) (Nat.zero_le _)
      ⟨rfl, rfl, fun t q _ => (if_neg (by omega)).symm, fun k => (if_neg (by omega)).symm⟩ ?_).weaken
        fun reduced ⟨size, sizeE, entries, cells⟩ => ⟨size, sizeE, entries, fun k behind =>
          (cells k).trans (if_neg (by omega))⟩
  rintro j ⟨a', e'⟩ - below ⟨size, sizeE, entries, cells⟩
  simp only at size sizeE entries cells
  have roomA' : row * row ≤ a'.size := size.symm ▸ room
  have along (k : Nat) (before : k < l + 1) : a'.entry row (l + 1) k = u k :=
    (entries _ k (by omega)).trans (if_neg (by omega))
  apply Returns.known (Buffer.readFrom_flat rows roomA' inside (by omega))
  apply Returns.known (e'.read_inside (by omega))
  apply Returns.known (e'.write_inside (by omega) _)
  have first : a'.cells (row * (l + 1) + j) = u j := along j below
  have second : e'.cells j = e.cells j := (cells j).trans (if_neg (by omega))
  rw [first, second]
  have cells' (k : Nat) :
      (e'.set j (e.cells j - hh * u j)).cells k = if k < j + 1 then w k else e.cells k := by
    by_cases here : k = j
    · rw [here, Buffer.set_same, if_pos (Nat.lt_succ_self j)]
    · rw [Buffer.set_other _ here, cells k]
      exact if_congr (by omega) rfl rfl
  have inner : Returns ((upTo 0 (j + 1)).foldlM
      (tridiagEntry row (l + 1) j (u j) (w j) (e'.set j (w j))) a') fun a'' => a''.size = a'.size ∧
        ∀ t, ∀ q < row, a''.entry row t q = if t = j ∧ q < j + 1 then
          a.entry row t q - (u j * w q + w j * u q) else a'.entry row t q := by
    refine written_loop (fun k t q => t = j ∧ q < k) (fun _ => j) (fun k => k)
      (fun t q => a.entry row t q - (u j * w q + w j * u q)) (by omega) (by omega) (by omega) ?_
    intro k before b sizeB entriesB
    have roomB : row * row ≤ b.size := sizeB.symm ▸ roomA'
    have there : b.cells (row * (l + 1) + k) = u k :=
      (entriesB (l + 1) k (by omega)).trans ((if_neg (by omega)).trans (along k (by omega)))
    have here : b.cells (row * j + k) = a.entry row j k :=
      (entriesB j k (by omega)).trans ((if_neg (by omega)).trans
        ((entries j k (by omega)).trans (if_neg (by omega))))
    have image : (e'.set j (w j)).cells k = w k := (cells' k).trans (if_pos before)
    have inE : k < (e'.set j (w j)).size := by
      rw [Buffer.set_size]
      omega
    have inRow : j < row := by omega
    have inColumn : k < row := by omega
    rw [tridiagEntry, Buffer.read_inside _ inE, Buffer.readFrom_flat rows roomB inside inColumn,
      Buffer.readFrom_flat rows roomB inRow inColumn, there, here, image]
    exact Buffer.writeFrom_flat rows roomB inRow inColumn _
  refine Returns.next inner fun a'' _ ⟨size'', entries''⟩ => ?_
  refine Returns.done ⟨size''.trans size, sizeE, fun t q inRow => ?_, cells'⟩
  rw [entries'' t q inRow, entries t q inRow]
  by_cases here : t = j ∧ q < j + 1
  · rw [if_pos here, if_pos (by omega), here.1]
  · rw [if_neg here]
    exact if_congr (by omega) rfl rfl

end

/-! One reflection. -/

section
variable {row l : Nat}

/-- What a reflection leaves of the entries, with the vectors that it is made of. -/
structure TridiagReflected (row l : Nat) (state state' : Tridiagonalising ℝ) (u w : Nat → ℝ) (h last : ℝ) :
    Prop where
  a : state'.a.size = state.a.size
  e : state'.e.size = state.e.size
  d : state'.d = state.d
  image : ∃ (p : Nat → ℝ) (hh : ℝ),
    (∀ j, p j = (∑ k ∈ Finset.range (l + 1), lowerEntry row state.a j k * u k) / h) ∧
    hh = (∑ k ∈ Finset.range (l + 1), p k * u k) / (h + h) ∧ ∀ k, w k = p k - hh * u k
  entries : ∀ t, ∀ q < row, state'.a.entry row t q =
    if t < l + 1 ∧ q ≤ t then state.a.entry row t q - (u t * w q + w t * u q)
    else if t = l + 1 ∧ q < l + 1 then u q
    else if q = l + 1 ∧ t < l + 1 then u t / h
    else state.a.entry row t q
  next : state'.e.cells (l + 1) = last
  cells : ∀ k, l + 1 < k → state'.e.cells k = state.e.cells k

/-- The row that is reflected, scaled. -/
def scaledRow [Field K] (row l : Nat) (a : Buffer K) (scale : K) (k : Nat) : K :=
  a.entry row (l + 1) k / scale

/-- The square of its length. -/
def scaledLength [Field K] (row l : Nat) (a : Buffer K) (scale : K) : K :=
  ∑ k ∈ Finset.range (l + 1), scaledRow row l a scale k * scaledRow row l a scale k

/-- The root whose sign is not that of the number it is taken from. -/
theorem opposite_root (y : ℝ) {total : ℝ} (nonneg : 0 ≤ total) :
    ∃ g, g = (if 0 ≤ y then -Real.sqrt total else Real.sqrt total) ∧ g * g = total ∧ y * g ≤ 0 := by
  have square := Real.mul_self_sqrt nonneg
  have root := Real.sqrt_nonneg total
  refine ⟨_, rfl, ?_⟩
  split
  case isTrue nonneg =>
    exact ⟨(neg_mul_neg _ _).trans square, mul_nonpos_of_nonneg_of_nonpos nonneg (neg_nonpos.mpr root)⟩
  case isFalse negative =>
    exact ⟨square, mul_nonpos_of_nonpos_of_nonneg (not_le.mp negative).le root⟩

theorem tridiagReflect_returns {state : Tridiagonalising ℝ} (rows : row ≤ 46340)
    (roomA : row * row ≤ state.a.size) (roomE : row ≤ state.e.size) (inside : l + 1 < row) {scale : ℝ}
    (nonzero : scale ≠ 0) (positive : 0 < scaledLength row l state.a scale) :
    Returns (tridiagReflect Real.sqrt row l scale state) fun result => ∃ g,
      g * g = scaledLength row l state.a scale ∧
      scaledRow row l state.a scale l * g ≤ 0 ∧
      result.1 = g * g - scaledRow row l state.a scale l * g ∧ ∃ w, TridiagReflected row l state result.2
        (Function.update (scaledRow row l state.a scale) l (scaledRow row l state.a scale l - g)) w
        result.1 (scale * g) := by
  refine Returns.next (tridiagDivide_loop rows roomA inside (by omega) nonzero)
    fun ⟨a, total⟩ _ ⟨sizeA, entries, summed⟩ => ?_
  simp only at sizeA entries summed
  change total = scaledLength row l state.a scale at summed
  have roomA' : row * row ≤ a.size := sizeA.symm ▸ roomA
  have here : a.cells (row * (l + 1) + l) = scaledRow row l state.a scale l :=
    (entries (l + 1) l (by omega)).trans (if_pos ⟨rfl, Nat.lt_succ_self l⟩)
  apply Returns.known (Buffer.readFrom_flat rows roomA' inside (by omega))
  rw [here]
  rw [← summed] at positive
  apply Returns.known (if_neg (not_lt.mpr positive.le))
  obtain ⟨g, signed, against⟩ := opposite_root (scaledRow row l state.a scale l) positive.le
  obtain ⟨squared, against⟩ := against
  simp only [← signed]
  clear signed
  apply Returns.known (state.e.write_inside (by omega) _)
  rw [← squared] at positive ⊢
  have nonzeroH : g * g - scaledRow row l state.a scale l * g ≠ 0 := by
    have bound : 0 < g * g - scaledRow row l state.a scale l * g := by linarith
    exact bound.ne'
  apply Returns.known (Buffer.writeFrom_flat rows roomA' inside (by omega) _)
  generalize size : scaledRow row l state.a scale = y at *
  have entries' (t q : Nat) (inRow : q < row) : (a.set (row * (l + 1) + l) (y l - g)).entry row t q =
      if t = l + 1 ∧ q < l + 1 then Function.update y l (y l - g) q else state.a.entry row t q := by
    rw [Buffer.entry_set (by omega) inRow]
    by_cases same : t = l + 1 ∧ q = l
    · rw [if_pos same, if_pos (by omega), same.2, Function.update_self]
    · rw [if_neg same, entries t q inRow]
      refine ite_congr rfl (fun before => ?_) fun _ => rfl
      rw [Function.update_of_ne (by omega), ← size]
      rfl
  have size' : (a.set (row * (l + 1) + l) (y l - g)).size = state.a.size := sizeA
  generalize a.set (row * (l + 1) + l) (y l - g) = b at entries' size'
  generalize vector : Function.update y l (y l - g) = u at entries'
  generalize half : g * g - y l * g = h at nonzeroH ⊢
  have along (k : Nat) (before : k < l + 1) : b.entry row (l + 1) k = u k :=
    (entries' _ k (by omega)).trans (if_pos ⟨rfl, before⟩)
  have lower (j k : Nat) (before : j < l + 1) (before' : k < l + 1) :
      lowerEntry row b j k = lowerEntry row state.a j k := by
    refine ite_congr rfl (fun _ => ?_) fun _ => ?_
    · exact (entries' j k (by omega)).trans (if_neg (by omega))
    · exact (entries' k j (by omega)).trans (if_neg (by omega))
  let p (j : Nat) : ℝ := (∑ k ∈ Finset.range (l + 1), lowerEntry row state.a j k * u k) / h
  have image (j : Nat) (before : j < l + 1) : tridiagImageOf row l h b j = p j := by
    refine congrArg (· / h) (Finset.sum_congr rfl fun k member => ?_)
    have before' := Finset.mem_range.mp member
    rw [lower j k before before', along k before']
  have roomB : row * row ≤ b.size := size'.symm ▸ roomA
  have sizeE : (state.e.set (l + 1) (scale * g)).size = state.e.size := rfl
  refine Returns.next (tridiagImage_loop rows roomB inside (sizeE.symm ▸ roomE) nonzeroH)
    fun ⟨b', e', f⟩ _ ⟨sizeB', sizeE', entriesB', cells', along'⟩ => ?_
  simp only at sizeB' sizeE' entriesB' cells' along'
  apply Returns.known (quotient_nonzero (by simpa [← two_mul] using nonzeroH) _)
  have roomB' : row * row ≤ b'.size := sizeB'.symm ▸ roomB
  refine Returns.next (tridiagReduce_loop rows roomB' inside (sizeE'.symm ▸ roomE) (f / (h + h)))
    fun ⟨b'', e''⟩ _ ⟨sizeB'', sizeE'', entriesB'', cells''⟩ => ?_
  simp only at sizeB'' sizeE'' entriesB'' cells''
  have through (k : Nat) (before : k < l + 1) : b'.entry row (l + 1) k = u k :=
    (entriesB' _ k (by omega)).trans ((if_neg (by omega)).trans (along k before))
  have factor : f = ∑ k ∈ Finset.range (l + 1), p k * u k := by
    rw [along']
    refine Finset.sum_congr rfl fun k member => ?_
    have before := Finset.mem_range.mp member
    rw [image k before, along k before]
  refine Returns.done ⟨g, squared.trans summed, against, half.symm, fun k => p k - f / (h + h) * u k, ?_⟩
  rw [vector]
  refine ⟨sizeB''.trans (sizeB'.trans size'), sizeE''.trans (sizeE'.trans sizeE), rfl,
    ⟨p, f / (h + h), fun _ => rfl, by rw [factor], fun _ => rfl⟩, fun t q inRow => ?_, ?_,
    fun k behind => ?_⟩
  · refine (entriesB'' t q inRow).trans ?_
    refine ite_congr rfl (fun left => ?_) fun outside => ?_
    · have entry : b'.entry row t q = state.a.entry row t q :=
        (entriesB' t q inRow).trans
          ((if_neg (by omega)).trans ((entries' t q inRow).trans (if_neg (by omega))))
      rw [entry, through t left.1, through q (by omega), cells' q, cells' t, if_pos (by omega),
        if_pos left.1, image q (by omega), image t left.1]
    · rw [entriesB' t q inRow]
      by_cases column : q = l + 1 ∧ t < l + 1
      · rw [if_pos column, if_neg (by omega), if_pos column, along t column.2]
      · rw [if_neg column, if_neg column]
        exact entries' t q inRow
  · refine (cells'' (l + 1) le_rfl).trans ((cells' (l + 1)).trans ((if_neg (by omega)).trans ?_))
    exact Buffer.set_same _ _ _
  · refine (cells'' k (by omega)).trans ((cells' k).trans ((if_neg (by omega)).trans ?_))
    exact Buffer.set_other _ (by omega) _

/-- A scaled row is not so short that the second half takes its reflection for none. -/
theorem scaledRow_length {a : Buffer ℝ} {scale : ℝ} (small : l + 1 < 65536)
    (scaled : scale = ∑ k ∈ Finset.range (l + 1), |a.entry row (l + 1) k|) (nonzero : scale ≠ 0) :
    fltEpsilon < scaledLength row l a scale := by
  have nonneg : 0 ≤ scale := scaled ▸ Finset.sum_nonneg fun k _ => abs_nonneg _
  have total : ∑ k ∈ Finset.range (l + 1), |scaledRow row l a scale k| = 1 := by
    simp only [scaledRow, abs_div, abs_of_nonneg nonneg]
    rw [← Finset.sum_div, ← scaled, div_self nonzero]
  have squares := sq_sum_le_card_mul_sum_sq (s := Finset.range (l + 1))
    (f := fun k => |scaledRow row l a scale k|)
  simp only [total, one_pow, Finset.card_range, sq_abs] at squares
  simp only [pow_two] at squares
  have count : ((l + 1 : ℕ) : ℝ) ≤ 65536 := by exact_mod_cast small.le
  change 1 ≤ ((l + 1 : ℕ) : ℝ) * scaledLength row l a scale at squares
  have sums : 0 ≤ scaledLength row l a scale := Finset.sum_nonneg fun k _ => mul_self_nonneg _
  have bound := squares.trans (mul_le_mul_of_nonneg_right count sums)
  rw [fltEpsilon]
  norm_num at bound ⊢
  linarith

end

/-! The first half. -/

section
variable {row l i : Nat} {S M : Matrix (Fin row) (Fin row) ℝ} {P : Nat → Matrix (Fin row) (Fin row) ℝ}
  {state : Tridiagonalising ℝ} {size : Nat}

/-- What is left behind of a reflection. -/
def StoredAt (row : Nat) (a d : Buffer ℝ) (p : Nat) (P : Matrix (Fin row) (Fin row) ℝ) : Prop :=
  d.cells p = 0 ∧ P = 1 ∨ ∃ u h, d.cells p = h ∧ fltEpsilon < h ∧
    (∀ k < p, a.entry row p k = u k ∧ a.entry row k p = u k / h) ∧
    firstOf row p u ⬝ᵥ firstOf row p u = h + h ∧ P = mirror (firstOf row p u) h

structure TridiagRoom (row : Nat) (state : Tridiagonalising ℝ) : Prop where
  rows : row ≤ 46340
  a : row * row ≤ state.a.size
  d : row ≤ state.d.size
  e : row ≤ state.e.size

/-- The rows behind a number are done: the rest of the matrix has been reflected by what they keep. -/
structure TridiagTo (row : Nat) (S : Matrix (Fin row) (Fin row) ℝ) (i : Nat)
    (M : Matrix (Fin row) (Fin row) ℝ) (P : Nat → Matrix (Fin row) (Fin row) ℝ)
    (state : Tridiagonalising ℝ) : Prop where
  room : TridiagRoom row state
  symmetric : Mᵀ = M
  low : ∀ r c : Fin row, c ≤ r → (r : Nat) ≤ i → state.a.entry row r c = M r c
  diagonal : ∀ r : Fin row, i < r → state.a.entry row r r = M r r
  tridiagonal : TridiagonalBehind i M
  next : ∀ r c : Fin row, i < r → (c : Nat) + 1 = r → state.e.cells r = M r c
  stored : ∀ p, i < p → p < row → StoredAt row state.a state.d p (P p)
  similar : S = productDown P (i + 1) (row - (i + 1)) * M * (productDown P (i + 1) (row - (i + 1)))ᵀ

theorem StoredAt.orthogonal {a d : Buffer ℝ} {p : Nat} {P : Matrix (Fin row) (Fin row) ℝ}
    (stored : StoredAt row a d p P) : Pᵀ * P = 1 := by
  rcases stored with ⟨-, rfl⟩ | ⟨u, h, -, large, -, half, rfl⟩
  · rw [Matrix.transpose_one, Matrix.one_mul]
  · exact mirror_orthogonal (fltEpsilon_pos.trans large).ne' half

theorem StoredAt.leaves {a d : Buffer ℝ} {p : Nat} {P : Matrix (Fin row) (Fin row) ℝ}
    (stored : StoredAt row a d p P) : LeavesFrom p P := by
  rcases stored with ⟨-, rfl⟩ | ⟨u, h, -, -, -, -, rfl⟩
  · exact leaves_one
  · exact leaves_mirror

/-- Rows and columns that are not written keep what they store. -/
theorem StoredAt.frame {a d a' d' : Buffer ℝ} {p : Nat} {P : Matrix (Fin row) (Fin row) ℝ}
    (stored : StoredAt row a d p P) (cell : d'.cells p = d.cells p)
    (entries : ∀ k < p, a'.entry row p k = a.entry row p k ∧ a'.entry row k p = a.entry row k p) :
    StoredAt row a' d' p P := by
  refine stored.imp (fun idle => ⟨cell.trans idle.1, idle.2⟩) ?_
  rintro ⟨u, h, same, large, kept, half, mirrored⟩
  refine ⟨u, h, cell.trans same, large, fun k before => ?_, half, mirrored⟩
  obtain ⟨first, second⟩ := entries k before
  exact ⟨first.trans (kept k before).1, second.trans (kept k before).2⟩

/-- The product of the reflections with one more of them. -/
theorem TridiagTo.extends (part : TridiagTo row S (l + 1) M P state) (inside : l + 1 < row)
    {R : Matrix (Fin row) (Fin row) ℝ} (orthogonal : Rᵀ * R = 1) (symmetric : Rᵀ = R) :
    S = productDown (Function.update P (l + 1) R) (l + 1) (row - (l + 1)) * (R * M * R) *
      (productDown (Function.update P (l + 1) R) (l + 1) (row - (l + 1)))ᵀ := by
  have count : row - (l + 1) = row - (l + 1 + 1) + 1 := by omega
  have same : productDown (Function.update P (l + 1) R) (l + 1 + 1) (row - (l + 1 + 1)) =
      productDown P (l + 1 + 1) (row - (l + 1 + 1)) :=
    productDown_congr fun p above => Function.update_of_ne (by omega) _ _
  have twice : R * R = 1 := by
    rw [symmetric] at orthogonal
    exact orthogonal
  have similar := part.similar
  rw [count, productDown_first, same, Function.update_self, Matrix.transpose_mul, symmetric]
  generalize productDown P (l + 1 + 1) (row - (l + 1 + 1)) = Q at similar
  calc S = Q * M * Qᵀ := similar
    _ = Q * (R * R) * M * ((R * R) * Qᵀ) := by rw [twice, Matrix.mul_one, Matrix.one_mul]
    _ = Q * R * (R * M * R) * (R * Qᵀ) := by simp only [Matrix.mul_assoc]

/-- A row that has nothing to be reflected. -/
theorem TridiagTo.keep (part : TridiagTo row S (l + 1) M P state) (inside : l + 1 < row)
    (zero : ∀ k < l, state.a.entry row (l + 1) k = 0) :
    Returns (tridiagKeep row l state) fun result => Returns (result.2.d.write (l + 1) result.1) fun d =>
      TridiagTo row S l M (Function.update P (l + 1) 1) { result.2 with d } := by
  apply Returns.known (Buffer.readFrom_flat part.room.rows part.room.a inside (by omega))
  apply Returns.known (state.e.write_inside (inside.trans_le part.room.e) _)
  refine Returns.done ⟨_, state.d.write_inside (inside.trans_le part.room.d) _, ?_⟩
  refine ⟨⟨part.room.rows, part.room.a, part.room.d, part.room.e⟩, part.symmetric, fun r c order before => ?_,
    fun r behind => ?_, fun r c behind left => ?_, fun r c behind same => ?_, fun p behind below => ?_, ?_⟩
  · exact part.low r c order (by omega)
  · rcases Nat.lt_or_eq_of_le (Nat.succ_le_of_lt behind) with later | here
    · exact part.diagonal r later
    · exact part.low r r le_rfl (by omega)
  · rcases Nat.lt_or_eq_of_le (Nat.succ_le_of_lt behind) with later | here
    · exact part.tridiagonal r c later left
    · have entry := part.low r c (by omega) (by omega)
      rw [← entry, ← here]
      exact zero c (by omega)
  · by_cases here : (r : Nat) = l + 1
    · have entry := part.low r c (by omega) (by omega)
      have column : (c : Nat) = l := by omega
      rw [← entry, here, column]
      exact Buffer.set_same _ _ _
    · exact (Buffer.set_other _ here _).trans (part.next r c (by omega) same)
  · by_cases here : p = l + 1
    · subst here
      exact Or.inl ⟨Buffer.set_same _ _ _, Function.update_self _ _ _⟩
    · rw [Function.update_of_ne here]
      exact (part.stored p (by omega) below).frame (Buffer.set_other _ here _) fun k _ => ⟨rfl, rfl⟩
  · have similar := part.extends inside (R := 1) (by rw [Matrix.transpose_one, Matrix.one_mul])
      Matrix.transpose_one
    rwa [Matrix.one_mul, Matrix.mul_one] at similar

theorem TridiagTo.lower (part : TridiagTo row S i M P state) (r c : Fin row) (first : (r : Nat) ≤ i)
    (second : (c : Nat) ≤ i) : lowerEntry row state.a r c = M r c := by
  rw [lowerEntry]
  split
  case isTrue order => exact part.low r c order first
  case isFalse order =>
    rw [part.low c r (by omega) second]
    exact congrFun (congrFun part.symmetric r) c

/-- A row that is reflected. -/
theorem TridiagTo.reflect (part : TridiagTo row S (l + 1) M P state) (inside : l + 1 < row)
    {state' : Tridiagonalising ℝ} {u w : Nat → ℝ} {h last : ℝ}
    (reflected : TridiagReflected row l state state' u w h last) (large : fltEpsilon < h)
    (clears : Clears l M u h last) :
    TridiagTo row S l (mirror (firstOf row (l + 1) u) h * M * mirror (firstOf row (l + 1) u) h)
      (Function.update P (l + 1) (mirror (firstOf row (l + 1) u) h))
      { state' with d := state'.d.set (l + 1) h } := by
  obtain ⟨p, hh, image, along, steps⟩ := reflected.image
  have sums (r : Fin row) (before : (r : Nat) < l + 1) :
      (M *ᵥ firstOf row (l + 1) u) r / h = p r := by
    rw [image]
    congr 1
    rw [← sum_before (n := row) inside.le fun k => lowerEntry row state.a r k * u k, Matrix.mulVec,
      dotProduct]
    apply Finset.sum_congr rfl
    intro c _
    rw [firstOf, mul_ite, mul_zero]
    exact ite_congr rfl (fun left => by rw [part.lower r c (by omega) (by omega)]) fun _ => rfl
  have factor : hh =
      ((fun r => (M *ᵥ firstOf row (l + 1) u) r / h) ⬝ᵥ firstOf row (l + 1) u) / (h + h) := by
    rw [along]
    congr 1
    rw [← sum_before (n := row) inside.le fun k => p k * u k, dotProduct]
    apply Finset.sum_congr rfl
    intro c _
    rw [firstOf, mul_ite, mul_zero]
    exact ite_congr rfl (fun left => by rw [sums c left]) fun _ => rfl
  have inner (r c : Fin row) (first : (r : Nat) < l + 1) (second : (c : Nat) < l + 1) :
      (mirror (firstOf row (l + 1) u) h * M * mirror (firstOf row (l + 1) u) h) r c =
        M r c - (u r * w c + w r * u c) := by
    rw [mirror_both two_ne_zero clears.nonzero part.symmetric (fun _ => rfl) factor, sums r first,
      sums c second, steps, steps, firstOf, firstOf, if_pos first, if_pos second]
  have outer (r c : Fin row) (behind : l + 1 ≤ r) (apart : (r : Nat) = l + 1 → l + 1 ≤ c) :
      (mirror (firstOf row (l + 1) u) h * M * mirror (firstOf row (l + 1) u) h) r c = M r c :=
    mirrored_behind part.tridiagonal r c behind apart
  refine ⟨⟨part.room.rows, reflected.a ▸ part.room.a, reflected.d ▸ part.room.d, reflected.e ▸ part.room.e⟩,
    mirrored_symmetric part.symmetric, fun r c order before => ?_, fun r behind => ?_,
    clears.tridiagonal part.tridiagonal, fun r c behind same => ?_, fun p behind below => ?_,
    part.extends inside clears.orthogonal mirror_transpose⟩
  · rw [inner r c (by omega) (by omega), ← part.low r c order (by omega)]
    exact (reflected.entries r c c.isLt).trans (if_pos ⟨by omega, order⟩)
  · rw [outer r r (by omega) (by omega)]
    refine (reflected.entries r r r.isLt).trans ?_
    rw [if_neg (by omega), if_neg (by omega), if_neg (by omega)]
    rcases Nat.lt_or_eq_of_le (Nat.succ_le_of_lt behind) with later | here
    · exact part.diagonal r later
    · exact part.low r r le_rfl (by omega)
  · by_cases here : (r : Nat) = l + 1
    · rw [clears.row r c here (by omega), if_pos (by omega), here]
      exact reflected.next
    · rw [outer r c (by omega) (by omega), ← part.next r c (by omega) same]
      exact reflected.cells r (by omega)
  · by_cases here : p = l + 1
    · subst here
      rw [Function.update_self]
      refine Or.inr ⟨u, h, Buffer.set_same _ _ _, large, fun k before => ⟨?_, ?_⟩, clears.half, rfl⟩
      · refine (reflected.entries _ k (by omega)).trans ?_
        rw [if_neg (by omega), if_pos ⟨rfl, before⟩]
      · refine (reflected.entries k _ inside).trans ?_
        rw [if_neg (by omega), if_neg (by omega), if_pos ⟨rfl, before⟩]
    · rw [Function.update_of_ne here]
      refine (part.stored p (by omega) below).frame ?_ fun k before => ⟨?_, ?_⟩
      · exact (Buffer.set_other _ here _).trans (by rw [reflected.d])
      · refine (reflected.entries p k (by omega)).trans ?_
        rw [if_neg (by omega), if_neg (by omega), if_neg (by omega)]
      · refine (reflected.entries k p below).trans ?_
        rw [if_neg (by omega), if_neg (by omega), if_neg (by omega)]

theorem TridiagTo.turn (part : TridiagTo row S (l + 1) M P state) (inside : l + 1 < row) :
    Returns (tridiagTurn Real.sqrt row state l) fun state' => ∃ M' P', TridiagTo row S l M' P' state' := by
  have kept (zero : ∀ k < l, state.a.entry row (l + 1) k = 0) :
      Returns (tridiagKeep row l state >>= fun result => do
        let d ← result.2.d.write (l + 1) result.1
        return { result.2 with d }) fun state' => ∃ M' P', TridiagTo row S l M' P' state' := by
    refine Returns.next (part.keep inside zero) fun result _ written => ?_
    exact Returns.next written fun d _ further => Returns.done ⟨_, _, further⟩
  rw [tridiagTurn]
  split
  case isFalse first =>
    exact kept fun k before => absurd before (by omega)
  case isTrue =>
    refine Returns.next (tridiagScale_loop part.room.rows part.room.a inside (by omega))
      fun scale _ scaled => ?_
    split
    case isTrue zero =>
      refine kept fun k before => ?_
      rw [zero] at scaled
      have terms := (Finset.sum_eq_zero_iff_of_nonneg fun k _ => abs_nonneg _).mp scaled.symm
      exact abs_eq_zero.mp (terms k (Finset.mem_range.mpr (by omega)))
    case isFalse nonzero =>
      have small : l + 1 < 65536 := inside.trans (part.room.rows.trans_lt (by decide))
      have length := scaledRow_length small scaled nonzero
      refine Returns.next (tridiagReflect_returns part.room.rows part.room.a part.room.e inside nonzero
        (fltEpsilon_pos.trans length)) fun result _ returned => ?_
      obtain ⟨g, square, against, half, w, reflected⟩ := returned
      rw [← square] at length
      have large : fltEpsilon < result.1 := by
        rw [half]
        linarith
      have clears : Clears l M (Function.update (scaledRow row l state.a scale) l
          (scaledRow row l state.a scale l - g)) result.1 (scale * g) := by
        rw [half]
        refine clears_scaled inside (fun c before => ?_) square.symm ?_
        · rw [scaledRow, mul_div_cancel₀ _ nonzero]
          exact (part.low ⟨l + 1, inside⟩ c before.le le_rfl).symm
        · rw [← half]
          exact (fltEpsilon_pos.trans large).ne'
      have inD : l + 1 < result.2.d.size := by
        rw [reflected.d]
        exact inside.trans_le part.room.d
      apply Returns.known (result.2.d.write_inside inD _)
      exact Returns.done ⟨_, _, part.reflect inside reflected large clears⟩

end

end Simuless.Linalg
