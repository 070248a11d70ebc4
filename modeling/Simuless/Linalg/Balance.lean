import Mathlib.Tactic.IntervalCases
import Simuless.Foundation.Balancing
import Simuless.Foundation.Fuel
import Simuless.Linalg.MatOps

/-! Balancing a matrix.

The loops run until their conditions fail. They are given a number of turns
that each of them may take, which is never too small for long.
-/

set_option autoImplicit false

namespace Simuless.Linalg

open Foundation

variable {K : Type}

section
variable [Field K] [LinearOrder K]

/-- `0.95f`. -/
def balanceRatio : K := (15938355 : Nat) / (16777216 : Nat)

structure BalanceSums (K : Type) where
  c : K
  r : K

/-- `c` and `r`. -/
def balanceSums (row i : Nat) (A : Buffer K) (sums : BalanceSums K) (j : Nat) : Option (BalanceSums K) := do
  if j = i then return sums
  let Aji ← A.readFrom (row * j) i
  let Aij ← A.readFrom (row * i) j
  return ⟨sums.c + |Aji|, sums.r + |Aij|⟩

structure BalanceFactor (K : Type) where
  f : K
  c : K

/-- `f *= 2.0f` and `c *= sqrdx`. -/
def balanceGrow (factor : BalanceFactor K) : Option (BalanceFactor K) :=
  some ⟨factor.f * (2 : Nat), factor.c * (4 : Nat)⟩

/-- `f /= 2.0f` and `c /= sqrdx`. -/
def balanceShrink (factor : BalanceFactor K) : Option (BalanceFactor K) :=
  some ⟨factor.f / (2 : Nat), factor.c / (4 : Nat)⟩

/-- `f`, and `c` as the loops leave it. -/
def balanceFactor (fuel : Nat) (sums : BalanceSums K) : Option (BalanceFactor K) := do
  let factor ← whileLoop (fun factor => decide (factor.c < sums.r / (2 : Nat))) balanceGrow fuel ⟨1, sums.c⟩
  whileLoop (fun factor => decide (sums.r * (2 : Nat) < factor.c)) balanceShrink fuel factor

/-- `*(A + row * i + j) *= g`. -/
def balanceRow (row i : Nat) (g : K) (A : Buffer K) (j : Nat) : Option (Buffer K) := do
  let Aij ← A.readFrom (row * i) j
  A.writeFrom (row * i) j (Aij * g)

/-- `*(A + row * j + i) *= f`. -/
def balanceColumn (row i : Nat) (f : K) (A : Buffer K) (j : Nat) : Option (Buffer K) := do
  let Aji ← A.readFrom (row * j) i
  A.writeFrom (row * j) i (Aji * f)

def balanceScale (row i : Nat) (f : K) (A : Buffer K) : Option (Buffer K) := do
  let g ← quotient 1 f
  let A ← (upTo 0 row).foldlM (balanceRow row i g) A
  (upTo 0 row).foldlM (balanceColumn row i f) A

structure Balancing (K : Type) where
  last : Bool
  A : Buffer K

/-- Where both sums are not zero. -/
def balanceTry (fuel row i : Nat) (balancing : Balancing K) (sums : BalanceSums K) :
    Option (Balancing K) := do
  let factor ← balanceFactor fuel sums
  let t ← quotient (factor.c + sums.r) factor.f
  if t < balanceRatio * (sums.c + sums.r) then
    let A ← balanceScale row i factor.f balancing.A
    return ⟨false, A⟩
  else return balancing

def balanceIndex (fuel row : Nat) (balancing : Balancing K) (i : Nat) : Option (Balancing K) := do
  let sums ← (upTo 0 row).foldlM (balanceSums row i balancing.A) ⟨0, 0⟩
  if sums.c ≠ 0 ∧ sums.r ≠ 0 then balanceTry fuel row i balancing sums else return balancing

def balanceSweep (fuel row : Nat) (balancing : Balancing K) : Option (Balancing K) :=
  (upTo 0 row).foldlM (balanceIndex fuel row) { balancing with last := true }

/-- `A`. -/
def smlsMatBalance (fuel : Nat) (A : Buffer K) (row : Nat) : Option (Buffer K) := do
  let balancing ← whileLoop (fun balancing => !balancing.last) (balanceSweep fuel row) fuel ⟨false, A⟩
  return balancing.A

end

/-! The power of two. -/

theorem balanceRatio_less : (balanceRatio : ℝ) < 1 := by
  rw [balanceRatio]
  norm_num

section
variable {sums : BalanceSums ℝ} {power : ℤ} {factor : BalanceFactor ℝ}

/-- `f` is a power of two, and `c` has been multiplied with its square. -/
structure Powered (sums : BalanceSums ℝ) (power : ℤ) (factor : BalanceFactor ℝ) : Prop where
  f : factor.f = 2 ^ power
  c : factor.c = sums.c * 2 ^ power * 2 ^ power

theorem Powered.start : Powered sums 0 ⟨1, sums.c⟩ := by
  constructor
  · rw [zpow_zero]
  · rw [zpow_zero, mul_one, mul_one]

theorem Powered.grow (powered : Powered sums power factor) :
    Powered sums (power + 1) ⟨factor.f * (2 : Nat), factor.c * (4 : Nat)⟩ := by
  have next : (2 : ℝ) ^ (power + 1) = 2 ^ power * 2 := zpow_add_one₀ two_ne_zero power
  constructor
  · simp only [powered.f, next, Nat.cast_ofNat]
  · simp only [powered.c, next, Nat.cast_ofNat]
    ring

theorem Powered.shrink (powered : Powered sums power factor) :
    Powered sums (power - 1) ⟨factor.f / (2 : Nat), factor.c / (4 : Nat)⟩ := by
  have next : (2 : ℝ) ^ (power - 1) = 2 ^ power / 2 := by
    rw [zpow_sub_one₀ two_ne_zero, div_eq_mul_inv]
  constructor
  · simp only [powered.f, next, Nat.cast_ofNat]
  · simp only [powered.c, next, Nat.cast_ofNat]
    ring

/-- The weighted sum of the column ends near that of the row. -/
structure FactorOf (sums : BalanceSums ℝ) (power : ℤ) (factor : BalanceFactor ℝ) : Prop where
  powered : Powered sums power factor
  low : sums.r ≤ 2 * factor.c
  high : factor.c ≤ 2 * sums.r

theorem balanceFactor_settles (c : 0 < sums.c) (r : 0 < sums.r) :
    Settles (fun fuel => balanceFactor fuel sums) fun factor => ∃ power, FactorOf sums power factor := by
  have four : (1 : ℝ) < 4 := by norm_num
  have reaches {x y : ℝ} (positive : 0 < x) : ∃ count : ℕ, y ≤ x * 4 ^ count := by
    obtain ⟨count, less⟩ := pow_unbounded_of_one_lt (y / x) four
    exact ⟨count, ((div_lt_iff₀' positive).mp less).le⟩
  have grown : Settles (fun fuel => whileLoop (fun factor => decide (factor.c < sums.r / (2 : Nat)))
      balanceGrow fuel ⟨1, sums.c⟩) fun factor => (∃ power, Powered sums power factor) ∧
        0 < factor.c ∧ sums.r ≤ 2 * factor.c := by
    obtain ⟨count, enough⟩ := reaches (x := 2 * sums.c) (y := sums.r) (by linarith)
    refine Settles.descending Nat.lt_wfRel.wf (fun left factor => (∃ power, Powered sums power factor) ∧
      0 < factor.c ∧ sums.r ≤ 2 * factor.c * 4 ^ left) _ ⟨⟨0, Powered.start⟩, c, enough⟩ ?_ ?_
    · rintro left factor ⟨powered, positive, -⟩ stopped
      rw [decide_eq_false_iff_not, Nat.cast_ofNat] at stopped
      exact ⟨powered, positive, by linarith⟩
    · rintro left factor ⟨⟨power, powered⟩, positive, bound⟩ going
      rw [decide_eq_true_iff, Nat.cast_ofNat] at going
      cases left with
      | zero => linarith
      | succ left =>
        refine Settles.done (Or.inr ⟨left, Nat.lt_succ_self left, ⟨_, powered.grow⟩, ?_, ?_⟩)
        · exact mul_pos positive (Nat.cast_pos.mpr (by decide))
        · refine bound.trans_eq ?_
          rw [pow_succ, Nat.cast_ofNat]
          ring
  refine Settles.next grown fun factor ⟨⟨power, powered⟩, positive, low⟩ => ?_
  obtain ⟨count, enough⟩ := reaches (x := 2 * sums.r) (y := factor.c) (by linarith)
  refine Settles.descending Nat.lt_wfRel.wf (fun left factor => (∃ power, Powered sums power factor) ∧
    sums.r ≤ 2 * factor.c ∧ factor.c ≤ 2 * sums.r * 4 ^ left) _ ⟨⟨power, powered⟩, low, enough⟩ ?_ ?_
  · rintro left factor ⟨⟨power, powered⟩, low, -⟩ stopped
    rw [decide_eq_false_iff_not, Nat.cast_ofNat] at stopped
    exact ⟨power, powered, low, by linarith⟩
  · rintro left factor ⟨⟨power, powered⟩, low, bound⟩ going
    rw [decide_eq_true_iff, Nat.cast_ofNat] at going
    cases left with
    | zero => linarith
    | succ left =>
      refine Settles.done (Or.inr ⟨left, Nat.lt_succ_self left, ⟨_, powered.shrink⟩, ?_, ?_⟩)
      · rw [Nat.cast_ofNat]
        linarith
      · rw [pow_succ] at bound
        rw [Nat.cast_ofNat]
        linarith

end

/-! One row and its column. -/

section
variable {row : Nat} {A : Buffer ℝ} {i : Fin row}

theorem balanceSums_loop (rows : row ≤ 46340) (room : row * row ≤ A.size) (i : Fin row) :
    Returns ((upTo 0 row).foldlM (balanceSums row i A) ⟨0, 0⟩) fun sums =>
      sums = ⟨inward (A.matrix row) i, outward (A.matrix row) i⟩ := by
  let columns (t : Nat) : ℝ := ∑ j ∈ Finset.range t, if j = i then 0 else |A.entry row j i|
  let across (t : Nat) : ℝ := ∑ j ∈ Finset.range t, if j = i then 0 else |A.entry row i j|
  have inwards : columns row = inward (A.matrix row) i :=
    (Finset.sum_range _).trans (Finset.sum_congr rfl fun j _ => if_congr Fin.ext_iff.symm rfl rfl)
  have outwards : across row = outward (A.matrix row) i :=
    (Finset.sum_range _).trans (Finset.sum_congr rfl fun j _ => if_congr Fin.ext_iff.symm rfl rfl)
  rw [← inwards, ← outwards]
  refine Returns.loop (fun t (sums : BalanceSums ℝ) => sums = ⟨columns t, across t⟩) (Nat.zero_le row) ?_ ?_
  · simp only [columns, across, Finset.range_zero, Finset.sum_empty]
  · rintro t sums - below rfl
    have more : columns (t + 1) = columns t + (if t = i then 0 else |A.entry row t i|) ∧
        across (t + 1) = across t + if t = i then 0 else |A.entry row i t| :=
      ⟨Finset.sum_range_succ _ t, Finset.sum_range_succ _ t⟩
    rw [more.1, more.2, balanceSums]
    split
    case isTrue same =>
      rw [add_zero, add_zero]
      exact Returns.done rfl
    case isFalse other =>
      apply Returns.known (Buffer.readFrom_flat rows room below i.isLt)
      apply Returns.known (Buffer.readFrom_flat rows room i.isLt below)
      exact Returns.done rfl

/-- The row divided by a number and the column multiplied with it. -/
theorem balanceScale_returns (rows : row ≤ 46340) (room : row * row ≤ A.size) {f : ℝ}
    (nonzero : f ≠ 0) :
    Returns (balanceScale row i f A) fun A' => A'.size = A.size ∧ ∀ p q : Fin row, A'.matrix row p q =
      (if p = i then A.matrix row p q / f else A.matrix row p q) * if q = i then f else 1 := by
  apply Returns.known (quotient_nonzero nonzero 1)
  have across : Returns ((upTo 0 row).foldlM (balanceRow row i (1 / f)) A) fun A' => A'.size = A.size ∧
      ∀ t, ∀ c < row, A'.entry row t c =
        if t = i then A.entry row t c * (1 / f) else A.entry row t c := by
    refine rowwise_loop (fun _ x => x * (1 / f)) fun j below A' size _ => ?_
    have fits : row * row ≤ A'.size := size.symm ▸ room
    rw [balanceRow, Buffer.readFrom_flat rows fits i.isLt below, Option.bind_eq_bind, Option.bind_some,
      Buffer.writeFrom_flat rows fits i.isLt below]
    rfl
  refine Returns.next across fun A' _ ⟨size, entries⟩ => ?_
  have columns : Returns ((upTo 0 row).foldlM (balanceColumn row i f) A') fun A'' =>
      A''.size = A'.size ∧ A''.matrix row = fun p q => A'.matrix row p q * if q = i then f else 1 := by
    refine (rows_entry_loop i (fun p => A'.matrix row p i * f) fun t A'' size' old => ?_).weaken
      fun A'' ⟨size', entries'⟩ => ⟨size', entries'.trans ?_⟩
    · have fits : row * row ≤ A''.size := size'.symm ▸ size.symm ▸ room
      have entry : A''.cells (row * t + i) = A'.matrix row t i := old i
      rw [balanceColumn, Buffer.readFrom_flat rows fits t.isLt i.isLt, entry]
      exact Buffer.writeFrom_flat rows fits t.isLt i.isLt _
    · funext p q
      split
      case isTrue at_i => rw [at_i]
      case isFalse other => rw [mul_one]
  refine columns.weaken fun A'' ⟨size', entries'⟩ => ⟨size'.trans size, fun p q => ?_⟩
  rw [congrFun (congrFun entries' p) q]
  refine congrArg (· * if q = i then f else 1) ?_
  exact (entries p q q.isLt).trans (if_congr Fin.ext_iff.symm (mul_one_div _ _) rfl)

/-- Neither sum is more than two and a half times the other one, unless one of them is zero. -/
def BalancedAt (M : Matrix (Fin row) (Fin row) ℝ) (i : Fin row) : Prop :=
  inward M i ≠ 0 → outward M i ≠ 0 →
    (2 : Nat) * outward M i ≤ (5 : Nat) * inward M i ∧ (2 : Nat) * inward M i ≤ (5 : Nat) * outward M i

/-- What the code does not find worth a step. -/
theorem FactorOf.balanced {sums : BalanceSums ℝ} {power : ℤ} {factor : BalanceFactor ℝ}
    (found : FactorOf sums power factor) (c : 0 < sums.c) (r : 0 < sums.r)
    (kept : ¬ (factor.c + sums.r) / factor.f < balanceRatio * (sums.c + sums.r)) :
    (2 : Nat) * sums.r ≤ (5 : Nat) * sums.c ∧ (2 : Nat) * sums.c ≤ (5 : Nat) * sums.r := by
  have positive : 0 < (2 : ℝ) ^ power := zpow_pos two_pos power
  have large : 13 / 14 ≤ (balanceRatio : ℝ) := by
    rw [balanceRatio]
    norm_num
  obtain ⟨powered, low, high⟩ := found
  rw [not_lt, powered.f, powered.c, le_div_iff₀ positive] at kept
  rw [powered.c] at low high
  have ratio : 13 / 14 * (sums.c + sums.r) * 2 ^ power ≤ sums.c * 2 ^ power * 2 ^ power + sums.r :=
    (mul_le_mul_of_nonneg_right (mul_le_mul_of_nonneg_right large (add_pos c r).le) positive.le).trans kept
  have far : -2 < power ∧ power < 2 := by
    constructor
    · by_contra lower
      have small : (2 : ℝ) ^ power ≤ 2 ^ (-2 : ℤ) := zpow_le_zpow_right₀ one_le_two (not_lt.mp lower)
      have quarter : (2 : ℝ) ^ (-2 : ℤ) = 1 / 4 := by norm_num
      rw [quarter] at small
      nlinarith [mul_pos c positive, mul_pos r positive]
    · by_contra upper
      have big : (2 : ℝ) ^ (2 : ℤ) ≤ 2 ^ power := zpow_le_zpow_right₀ one_le_two (not_lt.mp upper)
      have four : (2 : ℝ) ^ (2 : ℤ) = 4 := by norm_num
      rw [four] at big
      nlinarith [mul_pos c positive, mul_pos r positive]
  obtain ⟨above, below⟩ := far
  rw [Nat.cast_ofNat, Nat.cast_ofNat]
  interval_cases power
  · norm_num at low high ratio
    constructor <;> linarith
  · norm_num at low high ratio
    constructor <;> linarith
  · norm_num at low high ratio
    constructor <;> linarith

/-- A row and its column are left alone or scaled. -/
def IndexDone (i : Fin row) (balancing next : Balancing ℝ) : Prop :=
  next = balancing ∧ BalancedAt (balancing.A.matrix row) i ∨
    next.last = false ∧ next.A.size = balancing.A.size ∧
      ∃ power, Rebalances balanceRatio (balancing.A.matrix row) (next.A.matrix row) i power

theorem balanceIndex_settles {balancing : Balancing ℝ} (rows : row ≤ 46340)
    (room : row * row ≤ balancing.A.size) (i : Fin row) :
    Settles (fun fuel => balanceIndex fuel row balancing i) (IndexDone i balancing) := by
  refine Settles.next (Settles.returns (balanceSums_loop rows room i)) fun sums same => ?_
  subst same
  have positive (x : ℝ) (nonneg : 0 ≤ x) (different : x ≠ 0) : 0 < x := lt_of_le_of_ne nonneg different.symm
  split
  case isFalse zero => exact Settles.done (Or.inl ⟨rfl, fun c r => absurd ⟨c, r⟩ zero⟩)
  case isTrue nonzero =>
    have c := positive _ (inward_nonneg _ _) nonzero.1
    have r := positive _ (outward_nonneg _ _) nonzero.2
    refine Settles.next (balanceFactor_settles c r) fun factor ⟨power, found⟩ => ?_
    have power_pos : 0 < (2 : ℝ) ^ power := zpow_pos two_pos power
    have nonzero : factor.f ≠ 0 := found.powered.f ▸ power_pos.ne'
    refine Settles.returns (Returns.known (quotient_nonzero nonzero _) ?_)
    split
    case isFalse kept => exact Returns.done (Or.inl ⟨rfl, fun _ _ => found.balanced c r kept⟩)
    case isTrue less =>
      refine Returns.next (balanceScale_returns rows room nonzero) fun A _ ⟨size, entries⟩ => ?_
      have scaled : A.matrix row = scaledBy (balancing.A.matrix row) (Pi.single i power) := by
        ext p q
        rw [entries, found.powered.f, scaledBy_single]
      refine Returns.done (Or.inr ⟨rfl, size, power, scaled, c.ne', r.ne', ?_⟩)
      rw [scaled, inward_scaled, outward_scaled]
      refine lt_of_eq_of_lt ?_ less
      rw [found.powered.f, found.powered.c, add_div, mul_div_cancel_right₀ _ power_pos.ne']

end

/-! Sweeps. -/

section
variable {row : Nat} {A : Buffer ℝ} {start balancing : Balancing ℝ}

/-- The code finds nothing worth a step. -/
structure CalmAt (start : Balancing ℝ) (i : Fin row) : Prop where
  balanced : BalancedAt (start.A.matrix row) i
  still : Settles (fun fuel => balanceIndex fuel row start i) fun next => next = start

/-- A sweep up to a row: all has been calm, or there were steps. -/
structure SweptTo (row : Nat) (start : Balancing ℝ) (i : Nat) (balancing : Balancing ℝ) : Prop where
  size : balancing.A.size = start.A.size
  scaled : ∃ k, balancing.A.matrix row = scaledBy (start.A.matrix row) k
  ends : balancing = start ∧ (∀ p : Fin row, (p : Nat) < i → CalmAt start p) ∨ balancing.last = false ∧
    Relation.TransGen (Rebalanced balanceRatio) (balancing.A.matrix row) (start.A.matrix row)

theorem SweptTo.next {i : Nat} (swept : SweptTo row start i balancing) (rows : row ≤ 46340)
    (room : row * row ≤ start.A.size) (below : i < row) :
    Settles (fun fuel => balanceIndex fuel row balancing i) (SweptTo row start (i + 1)) := by
  obtain ⟨fuel, next, done, ran⟩ := balanceIndex_settles rows (swept.size.symm ▸ room) ⟨i, below⟩
  refine ⟨fuel, next, ?_, ran⟩
  rcases done with ⟨rfl, balanced⟩ | ⟨last, size, power, step⟩
  · refine ⟨swept.size, swept.scaled, swept.ends.imp ?_ id⟩
    rintro ⟨rfl, calm⟩
    refine ⟨rfl, fun p before => ?_⟩
    rcases Nat.lt_succ_iff_lt_or_eq.mp before with before | same
    · exact calm p before
    · obtain rfl : p = ⟨i, below⟩ := Fin.ext same
      exact ⟨balanced, fuel, next, rfl, ran⟩
  · obtain ⟨k, scaled⟩ := swept.scaled
    refine ⟨size.trans swept.size, ⟨k + Pi.single ⟨i, below⟩ power, ?_⟩, Or.inr ⟨last, ?_⟩⟩
    · rw [step.scaled, scaled, scaledBy_scaledBy]
    · have once : Rebalanced balanceRatio (next.A.matrix row) (balancing.A.matrix row) := ⟨_, power, step⟩
      rcases swept.ends with ⟨rfl, -⟩ | ⟨-, steps⟩
      · exact Relation.TransGen.single once
      · exact Relation.TransGen.head once steps

theorem balanceSweep_settles (rows : row ≤ 46340) (room : row * row ≤ balancing.A.size) :
    Settles (fun fuel => balanceSweep fuel row balancing) (SweptTo row ⟨true, balancing.A⟩ row) := by
  refine Settles.loop (SweptTo row ⟨true, balancing.A⟩) (Nat.zero_le row) ?_
    fun i next _ below swept => swept.next rows room below
  refine ⟨rfl, ⟨0, (scaledBy_zero _).symm⟩, Or.inl ⟨rfl, fun p before => ?_⟩⟩
  exact absurd before (Nat.not_lt_zero p)

/-- The matrix that a call comes to, and what the last sweep has found. -/
structure BalancedFrom (row : Nat) (A A' : Buffer ℝ) : Prop where
  size : A'.size = A.size
  scaled : ∃ k, A'.matrix row = scaledBy (A.matrix row) k
  less : magnitude (A'.matrix row) ≤ magnitude (A.matrix row)
  calm : ∀ p : Fin row, CalmAt ⟨true, A'⟩ p

theorem smlsMatBalance_settles (rows : row ≤ 46340) (room : row * row ≤ A.size) :
    Settles (fun fuel => smlsMatBalance fuel A row) (BalancedFrom row A) := by
  have looped : Settles (fun fuel => whileLoop (fun balancing => !balancing.last) (balanceSweep fuel row)
      fuel ⟨false, A⟩) fun balancing => BalancedFrom row A balancing.A := by
    refine Settles.descending (rebalanced_wellFounded balanceRatio_less).transGen
      (fun M balancing => balancing.last = false ∧ balancing.A.matrix row = M ∧
        balancing.A.size = A.size ∧ (∃ k, M = scaledBy (A.matrix row) k) ∧
          magnitude M ≤ magnitude (A.matrix row))
      _ ⟨rfl, rfl, rfl, ⟨0, (scaledBy_zero _).symm⟩, le_rfl⟩ ?_ ?_
    · rintro M balancing ⟨last, -⟩ stopped
      rw [last] at stopped
      cases stopped
    · rintro M balancing ⟨-, rfl, size, ⟨k, scaled⟩, less⟩ -
      refine (balanceSweep_settles rows (size.symm ▸ room)).weaken fun next swept => ?_
      rcases swept.ends with ⟨rfl, calm⟩ | ⟨last, steps⟩
      · exact Or.inl ⟨rfl, size, ⟨k, scaled⟩, less, fun p => calm p p.isLt⟩
      · obtain ⟨k', further⟩ := swept.scaled
        refine Or.inr ⟨_, steps, last, rfl, swept.size.trans size, ⟨k + k', ?_⟩, ?_⟩
        · rw [further, scaled, scaledBy_scaledBy]
        · exact (magnitude_descends balanceRatio_less steps).trans less
  exact Settles.next looped fun balancing balanced => Settles.done balanced

/-- A second call leaves the matrix as it is. -/
theorem BalancedFrom.again {A' : Buffer ℝ} (balanced : BalancedFrom row A A') :
    Settles (fun fuel => smlsMatBalance fuel A' row) fun again => again = A' := by
  have swept : Settles (fun fuel => balanceSweep fuel row ⟨false, A'⟩) fun next => next = ⟨true, A'⟩ := by
    refine Settles.loop (fun _ (next : Balancing ℝ) => next = ⟨true, A'⟩) (Nat.zero_le row) rfl ?_
    rintro i _ - below rfl
    exact (balanced.calm ⟨i, below⟩).still
  have looped : Settles (fun fuel => whileLoop (fun balancing => !balancing.last) (balanceSweep fuel row)
      fuel ⟨false, A'⟩) fun balancing => balancing.A = A' := by
    refine Settles.descending Nat.lt_wfRel.wf (fun turns balancing => turns = 0 ∧ balancing = ⟨false, A'⟩) _
      ⟨rfl, rfl⟩ ?_ ?_
    · rintro _ _ ⟨-, rfl⟩ stopped
      cases stopped
    · rintro _ _ ⟨-, rfl⟩ -
      refine swept.weaken fun next same => ?_
      subst same
      exact Or.inl ⟨rfl, rfl⟩
  exact Settles.next looped fun balancing same => Settles.done same

/-- Balancing always comes to an end. The matrix it ends with is similar to the one it started with,
by powers of two, its entries apart from the diagonal are smaller together, no row is far from its
column, and balancing it again changes nothing. -/
theorem balance_settles (rows : row ≤ 46340) (room : row * row ≤ A.size) : ∃ fuel A',
    (∀ more, fuel ≤ more → smlsMatBalance more A row = some A') ∧
    (∃ k : Fin row → ℤ, ∀ p q, A'.matrix row p q = A.matrix row p q * 2 ^ (k q - k p)) ∧
    (A'.matrix row).charpoly = (A.matrix row).charpoly ∧
    magnitude (A'.matrix row) ≤ magnitude (A.matrix row) ∧
    (∀ i, BalancedAt (A'.matrix row) i) ∧
    ∃ fuel', ∀ more, fuel' ≤ more → smlsMatBalance more A' row = some A' := by
  obtain ⟨fuel, A', balanced, ran⟩ := smlsMatBalance_settles rows room
  obtain ⟨k, scaled⟩ := balanced.scaled
  obtain ⟨fuel', _, rfl, ran'⟩ := balanced.again
  have pairs (i : Fin row) := (balanced.calm i).balanced
  refine ⟨fuel, _, ran, ⟨k, fun p q => ?_⟩, ?_, balanced.less, pairs, fuel', ran'⟩
  · rw [scaled, scaledBy_apply]
  · rw [scaled, charpoly_scaledBy]

end

theorem balance_settles_far : ∃ fuel A',
    smlsMatBalance fuel (⟨4, fun k => if k = 1 then 100 else 1⟩ : Buffer ℝ) 2 = some A' ∧
    (A'.matrix 2).charpoly =
      ((⟨4, fun k => if k = 1 then 100 else 1⟩ : Buffer ℝ).matrix 2).charpoly ∧
    (∀ i, BalancedAt (A'.matrix 2) i) ∧ ∃ fuel', smlsMatBalance fuel' A' 2 = some A' := by
  obtain ⟨fuel, A', ran, -, same, -, pairs, fuel', ran'⟩ :=
    @balance_settles 2 (⟨4, fun k => if k = 1 then 100 else 1⟩ : Buffer ℝ) (by decide) le_rfl
  exact ⟨fuel, A', ran fuel le_rfl, same, pairs, fuel', ran' fuel' le_rfl⟩

end Simuless.Linalg
