import Mathlib.Algebra.Order.Star.Real
import Simuless.Foundation.Cholesky
import Simuless.Linalg.CholUpdate
import Simuless.Linalg.Lup

/-! Cholesky factorisation.

Row by row the factor is computed from the entries to the left. A diagonal entry
that is still zero when a later row divides by it is replaced by the machine
epsilon; then the product is no longer the matrix.
-/

set_option autoImplicit false

namespace Simuless.Linalg

open Foundation
open scoped Matrix

variable {K : Type}

section
variable [Field K] [LinearOrder K]

/-- A root that is refused where it has no value. -/
def root (sqrtf : K → K) (t : K) : Option K := if t < 0 then none else some (sqrtf t)

/-- `s += L[row * i + k] * L[row * j + k]`. -/
def cholTerm (row i j : Nat) (L : Buffer K) (s : K) (k : Nat) : Option K := do
  let Lik ← L.readInt (row * i + k)
  let Ljk ← L.readInt (row * j + k)
  return s + Lik * Ljk

/-- The divisor of column `j`, which is not zero afterwards. -/
def cholDivisor (row j : Nat) (L : Buffer K) : Option (Buffer K) := do
  let diagonal ← L.readInt (row * j + j)
  if diagonal = 0 then L.writeInt (row * j + j) fltEpsilon else return L

def cholTurn (sqrtf : K → K) (A : Buffer K) (row i : Nat) (L : Buffer K) (j : Nat) :
    Option (Buffer K) := do
  let s ← (upTo 0 j).foldlM (cholTerm row i j L) 0
  let L ← cholDivisor row j L
  if i = j then
    let Aii ← A.readInt (row * i + i)
    let r ← root sqrtf (Aii - s)
    L.writeInt (row * i + j) r
  else
    let Ljj ← L.readInt (row * j + j)
    let inverse ← quotient 1 Ljj
    let Aij ← A.readInt (row * i + j)
    L.writeInt (row * i + j) (inverse * (Aij - s))

def cholRow (sqrtf : K → K) (A : Buffer K) (row : Nat) (L : Buffer K) (i : Nat) : Option (Buffer K) :=
  (upTo 0 (i + 1)).foldlM (cholTurn sqrtf A row i) L

def smlsMatChol (sqrtf : K → K) (A L : Buffer K) (row : Nat) : Option (Buffer K) := do
  let L ← L.clearInt (row * row)
  (upTo 0 row).foldlM (cholRow sqrtf A row) L

end

/-! One turn. -/

/-- What is left of a diagonal entry behind the first columns of its row. -/
def leftover [Field K] (A L : Nat → Nat → K) (t : Nat) : K := A t t - ∑ m ∈ Finset.range t, L t m * L t m

/-- The turns before that of column `j` in row `i` are done. A root of zero that a later row has
divided by is the machine epsilon by then. -/
structure CholTo [Field K] [LinearOrder K] (sqrtf : K → K) (n : Nat) (A : Nat → Nat → K) (size i j : Nat)
    (L : Buffer K) : Prop where
  size : L.size = size
  zero : ∀ t < n, ∀ c < n, t < c ∨ i < t ∨ t = i ∧ j ≤ c → L.entry n t c = 0
  divided : ∀ t < n, ∀ c < t, t < i ∨ t = i ∧ c < j → L.entry n c c ≠ 0 ∧
    ∑ m ∈ Finset.range c, L.entry n t m * L.entry n c m + L.entry n t c * L.entry n c c = A t c
  rooted : ∀ t < n, t < i ∨ t = i ∧ t < j → 0 ≤ leftover A (L.entry n) t ∧
    (L.entry n t t = sqrtf (leftover A (L.entry n) t) ∨
      t + 1 < n ∧ leftover A (L.entry n) t = 0 ∧ L.entry n t t = fltEpsilon)

/-- A sum of products to the left of an entry, which a change elsewhere leaves as it is. -/
theorem sums_kept [Field K] {L L' : Nat → Nat → K} {t c : Nat}
    (same : ∀ m < c, L' t m = L t m ∧ L' c m = L c m) :
    ∑ m ∈ Finset.range c, L' t m * L' c m = ∑ m ∈ Finset.range c, L t m * L c m := by
  apply Finset.sum_congr rfl
  intro m member
  obtain ⟨first, second⟩ := same m (Finset.mem_range.mp member)
  rw [first, second]

section
variable [Field K] [LinearOrder K] {sqrtf : K → K} {n size i j : Nat} {A L : Buffer K}

omit [LinearOrder K] in
theorem cholTerm_loop (rows : n ≤ 46340) (room : n * n ≤ L.size) (inRow : i < n) (inColumn : j < n) :
    Returns ((upTo 0 j).foldlM (cholTerm n i j L) 0) fun s =>
      s = ∑ m ∈ Finset.range j, L.entry n i m * L.entry n j m := by
  refine Returns.loop (fun k (s : K) => s = ∑ m ∈ Finset.range k, L.entry n i m * L.entry n j m)
    (Nat.zero_le j) (Finset.sum_range_zero _).symm ?_
  rintro k s - before rfl
  have inside : k < n := before.trans inColumn
  apply Returns.known (L.readInt_flat rows room inRow inside)
  apply Returns.known (L.readInt_flat rows room inColumn inside)
  exact Returns.done (Finset.sum_range_succ _ _).symm

variable [IsStrictOrderedRing K]

/-- Only a zero on the diagonal is replaced. -/
theorem cholDivisor_returns (rows : n ≤ 46340) (room : n * n ≤ L.size) (inColumn : j < n) :
    Returns (cholDivisor n j L) fun L' => L'.size = L.size ∧ L'.entry n j j ≠ 0 ∧
      (L'.entry n j j = L.entry n j j ∨ L.entry n j j = 0 ∧ L'.entry n j j = fltEpsilon) ∧
        ∀ t < n, ∀ c < n, ¬ (t = j ∧ c = j) → L'.entry n t c = L.entry n t c := by
  apply Returns.known (L.readInt_flat rows room inColumn inColumn)
  apply Returns.check
  · intro zero
    rw [L.writeInt_flat rows room inColumn inColumn]
    have written : (L.set (n * j + j) fltEpsilon).entry n j j = fltEpsilon := L.set_same _ _
    refine Returns.done ⟨rfl, ?_, Or.inr ⟨zero, written⟩, fun t _ c inside apart => ?_⟩
    · rw [written]
      exact fltEpsilon_pos.ne'
    · rw [Buffer.entry_set inColumn inside, if_neg apart]
  · intro nonzero
    exact Returns.done ⟨rfl, nonzero, Or.inl rfl, fun _ _ _ _ _ => rfl⟩

/-- What a turn to the left of the diagonal does to the entries. -/
structure LeftTurn (n i j : Nat) (A L L' : Nat → Nat → K) : Prop where
  nonzero : L' j j ≠ 0
  divisor : L' j j = L j j ∨ L j j = 0 ∧ L' j j = fltEpsilon
  product : ∑ m ∈ Finset.range j, L i m * L j m + L' i j * L' j j = A i j
  others : ∀ t < n, ∀ c < n, ¬ (t = j ∧ c = j) → ¬ (t = i ∧ c = j) → L' t c = L t c

theorem cholTurn_left (rows : n ≤ 46340) (room : n * n ≤ A.size) (room' : n * n ≤ L.size)
    (inRow : i < n) (before : j < i) :
    Returns (cholTurn sqrtf A n i L j) fun L' =>
      L'.size = L.size ∧ LeftTurn n i j (A.entry n) (L.entry n) (L'.entry n) := by
  have inColumn : j < n := before.trans inRow
  refine Returns.next (cholTerm_loop rows room' inRow inColumn) fun s _ summed => ?_
  refine Returns.next (cholDivisor_returns rows room' inColumn)
    fun L' _ ⟨size, nonzero, divisor, others⟩ => ?_
  have fits : n * n ≤ L'.size := size.symm ▸ room'
  rw [if_neg (Nat.ne_of_gt before)]
  apply Returns.known (L'.readInt_flat rows fits inColumn inColumn)
  apply Returns.known (quotient_nonzero nonzero 1)
  apply Returns.known (A.readInt_flat rows room inRow inColumn)
  rw [L'.writeInt_flat rows fits inRow inColumn]
  have entries (t : Nat) (c : Nat) (inside : c < n) (value : K) : (L'.set (n * i + j) value).entry n t c =
      if t = i ∧ c = j then value else L'.entry n t c := Buffer.entry_set inColumn inside value
  refine Returns.done ⟨size, ?_, ?_, ?_, fun t below c inside apart other => ?_⟩
  · rw [entries j j inColumn, if_neg (by omega)]
    exact nonzero
  · rw [entries j j inColumn, if_neg (by omega)]
    exact divisor
  · rw [entries i j inColumn, entries j j inColumn, if_pos ⟨rfl, rfl⟩, if_neg (by omega), ← summed,
      one_div_mul_eq_div, div_mul_cancel₀ _ nonzero]
    exact add_sub_cancel _ _
  · rw [entries t c inside, if_neg other, others t below c inside apart]

/-- What the turn on the diagonal does, if its root has a value. -/
theorem cholTurn_corner (rows : n ≤ 46340) (room : n * n ≤ A.size) (room' : n * n ≤ L.size) (inRow : i < n)
    (defined : 0 ≤ leftover (A.entry n) (L.entry n) i) :
    Returns (cholTurn sqrtf A n i L i) fun L' => L'.size = L.size ∧
      L'.entry n i i = sqrtf (leftover (A.entry n) (L.entry n) i) ∧
        ∀ t < n, ∀ c < n, ¬ (t = i ∧ c = i) → L'.entry n t c = L.entry n t c := by
  refine Returns.next (cholTerm_loop rows room' inRow inRow) fun s _ summed => ?_
  refine Returns.next (cholDivisor_returns rows room' inRow) fun L' _ ⟨size, _, _, others⟩ => ?_
  have fits : n * n ≤ L'.size := size.symm ▸ room'
  have rest : A.cells (n * i + i) - s = leftover (A.entry n) (L.entry n) i := by
    rw [summed]
    rfl
  rw [if_pos rfl]
  apply Returns.known (A.readInt_flat rows room inRow inRow)
  rw [rest]
  apply Returns.known (if_neg (not_lt.mpr defined))
  rw [L'.writeInt_flat rows fits inRow inRow]
  refine Returns.done ⟨size, L'.set_same _ _, fun t below c inside apart => ?_⟩
  rw [Buffer.entry_set inRow inside, if_neg apart, others t below c inside apart]

/-- It has no result otherwise. -/
theorem cholTurn_negative (rows : n ≤ 46340) (room : n * n ≤ A.size) (room' : n * n ≤ L.size) (inRow : i < n)
    (negative : leftover (A.entry n) (L.entry n) i < 0) : cholTurn sqrtf A n i L i = none := by
  obtain ⟨s, looped, rfl⟩ := cholTerm_loop rows room' inRow inRow
  obtain ⟨L', divided, -⟩ := cholDivisor_returns rows room' inRow
  have rest : A.cells (n * i + i) - ∑ m ∈ Finset.range i, L.entry n i m * L.entry n i m < 0 := negative
  simp only [cholTurn, looped, divided, if_true, A.readInt_flat rows room inRow inRow, root,
    if_pos rest, Option.bind_eq_bind, Option.bind_some, Option.bind_none]

/-! What the turns keep. -/

/-- An entry to the left of the diagonal always goes through. -/
theorem CholTo.left (exact_root : ExactRoot sqrtf) (part : CholTo sqrtf n (A.entry n) size i j L)
    (rows : n ≤ 46340) (room : n * n ≤ A.size) (room' : n * n ≤ size) (inRow : i < n) (before : j < i) :
    Returns (cholTurn sqrtf A n i L j) (CholTo sqrtf n (A.entry n) size i (j + 1)) := by
  have inColumn : j < n := before.trans inRow
  refine (cholTurn_left rows room (part.size.symm ▸ room') inRow before).weaken fun L' ⟨size', turned⟩ => ?_
  have same (t : Nat) (below : t < n) (c : Nat) (left : c < t) (other : ¬ (t = i ∧ c = j)) :
      L'.entry n t c = L.entry n t c := turned.others t below c (by omega) (by omega) other
  have corner (c : Nat) (inside : c < n) (apart : c ≠ j) : L'.entry n c c = L.entry n c c :=
    turned.others c inside c inside (by omega) (by omega)
  refine ⟨size'.trans part.size, fun t below c inside place => ?_, fun t below c left turn => ?_,
    fun t below turn => ?_⟩
  · rw [turned.others t below c inside (by omega) (by omega)]
    exact part.zero t below c inside (by omega)
  · rw [sums_kept fun m first => ⟨same t below m (by omega) (by omega),
      same c (by omega) m first (by omega)⟩]
    by_cases here : t = i ∧ c = j
    · rw [here.1, here.2]
      exact ⟨turned.nonzero, turned.product⟩
    · obtain ⟨divided, product⟩ := part.divided t below c left (by omega)
      have kept : L'.entry n c c = L.entry n c c := by
        by_cases column : c = j
        · rw [column] at divided ⊢
          exact turned.divisor.resolve_right fun replaced => divided replaced.1
        · exact corner c (by omega) column
      rw [kept, same t below c left here]
      exact ⟨divided, product⟩
  · have above : t < i := by omega
    obtain ⟨defined, rooted⟩ := part.rooted t below (Or.inl above)
    have kept : leftover (A.entry n) (L'.entry n) t = leftover (A.entry n) (L.entry n) t := by
      rw [leftover, leftover, sums_kept fun m first => ⟨same t below m first (by omega),
        same t below m first (by omega)⟩]
    rw [kept]
    refine ⟨defined, ?_⟩
    by_cases column : t = j
    · subst column
      rcases turned.divisor with kept | ⟨zero, replaced⟩
      · rw [kept]
        exact rooted
      · -- a root that is zero is one of zero
        refine Or.inr ⟨by omega, ?_, replaced⟩
        rcases rooted with rooted | ⟨-, none_left, -⟩
        · by_contra left
          have positive := (exact_root _ (lt_of_le_of_ne defined (Ne.symm left))).1
          exact positive.ne' (rooted.symm.trans zero)
        · exact none_left
    · rw [corner t below column]
      exact rooted

/-- The diagonal entry of a row goes through unless it is the root of a negative number. -/
theorem CholTo.corner (part : CholTo sqrtf n (A.entry n) size i i L) (rows : n ≤ 46340)
    (room : n * n ≤ A.size) (room' : n * n ≤ size) (inRow : i < n)
    (defined : 0 ≤ leftover (A.entry n) (L.entry n) i) :
    Returns (cholTurn sqrtf A n i L i) (CholTo sqrtf n (A.entry n) size (i + 1) 0) := by
  refine (cholTurn_corner rows room (part.size.symm ▸ room') inRow defined).weaken
    fun L' ⟨size', rooted, others⟩ => ?_
  have same (t : Nat) (below : t < n) (c : Nat) (left : c < t) : L'.entry n t c = L.entry n t c :=
    others t below c (by omega) (by omega)
  refine ⟨size'.trans part.size, fun t below c inside place => ?_, fun t below c left turn => ?_,
    fun t below turn => ?_⟩
  · rw [others t below c inside (by omega)]
    exact part.zero t below c inside (by omega)
  · rw [sums_kept fun m first => ⟨same t below m (by omega), same c (by omega) m first⟩,
      same t below c left, others c (by omega) c (by omega) (by omega)]
    exact part.divided t below c left (by omega)
  · have kept : leftover (A.entry n) (L'.entry n) t = leftover (A.entry n) (L.entry n) t := by
      rw [leftover, leftover, sums_kept fun m first => ⟨same t below m first, same t below m first⟩]
    rw [kept]
    by_cases here : t = i
    · rw [here, rooted]
      exact ⟨defined, Or.inl rfl⟩
    · rw [others t below t below (by omega)]
      exact part.rooted t below (by omega)

/-- A row up to its diagonal. -/
theorem CholTo.lefts (exact_root : ExactRoot sqrtf) (part : CholTo sqrtf n (A.entry n) size i 0 L)
    (rows : n ≤ 46340) (room : n * n ≤ A.size) (room' : n * n ≤ size) (inRow : i < n) :
    Returns ((upTo 0 i).foldlM (cholTurn sqrtf A n i) L) (CholTo sqrtf n (A.entry n) size i i) :=
  Returns.loop (CholTo sqrtf n (A.entry n) size i) (Nat.zero_le i) part
    fun _ _ _ before part => part.left exact_root rows room room' inRow before

/-- The call goes through all rows, or stops where a root has no value. -/
theorem smlsMatChol_cases (exact_root : ExactRoot sqrtf) (rows : n ≤ 46340) (room : n * n ≤ A.size)
    (room' : n * n ≤ L.size) :
    Returns (smlsMatChol sqrtf A L n) (CholTo sqrtf n (A.entry n) L.size n 0) ∨
      smlsMatChol sqrtf A L n = none ∧ ∃ i < n, ∃ L', CholTo sqrtf n (A.entry n) L.size i i L' ∧
        leftover (A.entry n) (L'.entry n) i < 0 := by
  let cleared : Buffer K := ⟨L.size, fun i => if i < n * n then 0 else L.cells i⟩
  have program : smlsMatChol sqrtf A L n = (upTo 0 n).foldlM (cholRow sqrtf A n) cleared := by
    rw [smlsMatChol, L.clearInt_small (square_small rows), Buffer.clear, if_pos room', Option.bind_eq_bind,
      Option.bind_some]
  have start : CholTo sqrtf n (A.entry n) L.size 0 0 cleared :=
    ⟨rfl, fun t below c inside _ => if_pos (flat_lt below inside), fun t _ c _ turn => by omega,
      fun t _ turn => by omega⟩
  rw [program]
  refine (Returns.loop_or_stops (fun i => CholTo sqrtf n (A.entry n) L.size i 0) (fun i _ => ∃ L',
    CholTo sqrtf n (A.entry n) L.size i i L' ∧ leftover (A.entry n) (L'.entry n) i < 0)
    (Nat.zero_le n) start fun i reached _ inside part => ?_).imp id
      fun ⟨stopped, i, _, _, inside, _, L', part, negative⟩ => ⟨stopped, i, inside, L', part, negative⟩
  obtain ⟨L', ran, part'⟩ := part.lefts exact_root rows room room' inside
  simp only [cholRow, upTo_append (Nat.zero_le i), List.foldlM_append, ran, List.foldlM_cons,
    List.foldlM_nil, Option.bind_eq_bind, Option.bind_some, Option.pure_def, Option.bind_fun_some]
  rcases le_or_gt 0 (leftover (A.entry n) (L'.entry n) i) with defined | negative
  · exact Or.inl (part'.corner rows room room' inside defined)
  · exact Or.inr ⟨cholTurn_negative rows room (part'.size.symm ▸ room') inside negative, L', part', negative⟩

end

/-! What the factor stands for. -/

section
variable {n size i j t : Nat} {A : Nat → Nat → ℝ} {L : Buffer ℝ}

/-- The rows that are done, seen from one of their diagonal entries. -/
theorem CholTo.bordered (part : CholTo Real.sqrt n A size i j L)
    (symmetric : ∀ a < n, ∀ b < n, A a b = A b a) (inside : t < n) (turn : t < i ∨ t = i ∧ t ≤ j)
    (squares : ∀ s < t, L.entry n s s * L.entry n s s = leftover A (L.entry n) s) :
    Bordered t A (L.entry n) (leftover A (L.entry n) t) := by
  have cut (a b : Nat) (above : a ≤ t) (inner : b < t) (order : b ≤ a) :
      ∑ m ∈ Finset.range t, L.entry n a m * L.entry n b m =
        ∑ m ∈ Finset.range b, L.entry n a m * L.entry n b m + L.entry n a b * L.entry n b b := by
    rw [← Finset.sum_range_succ fun m => L.entry n a m * L.entry n b m]
    symm
    apply Finset.sum_subset (Finset.range_subset_range.mpr inner)
    intro m member outside
    rw [Finset.mem_range] at member outside
    rw [part.zero b (by omega) m (by omega) (by omega), mul_zero]
  have ordered (a b : Nat) (above : a ≤ t) (order : b ≤ a) : A a b =
      ∑ m ∈ Finset.range t, L.entry n a m * L.entry n b m +
        if a = t ∧ b = t then leftover A (L.entry n) t else 0 := by
    by_cases last : b = t
    · obtain rfl : a = t := by omega
      rw [if_pos ⟨rfl, last⟩, last, leftover]
      exact (add_sub_cancel _ _).symm
    · rw [if_neg (by omega), add_zero, cut a b above (by omega) order]
      rcases Nat.lt_or_eq_of_le order with before | rfl
      · exact (part.divided a (by omega) b before (by omega)).2.symm
      · rw [squares b (by omega), leftover]
        exact (add_sub_cancel _ _).symm
  refine ⟨fun a above b before order => part.zero a (by omega) b (by omega) (Or.inl order),
    fun a above b above' => ?_⟩
  rcases le_total b a with order | order
  · exact ordered a b above order
  · rw [symmetric a (by omega) b (by omega), ordered b a above' order]
    congr 1
    · exact Finset.sum_congr rfl fun m _ => mul_comm _ _
    · exact if_congr and_comm rfl rfl

/-- Where the leading part is positive definite, so is what is left on the diagonal. -/
theorem CholTo.left_positive (part : CholTo Real.sqrt n A size i j L)
    (symmetric : ∀ a < n, ∀ b < n, A a b = A b a) {k : Nat} (inside : k ≤ n)
    (definite : (Foundation.corner k A).PosDef) : ∀ t < k, t < i ∨ t = i ∧ t ≤ j →
      0 < leftover A (L.entry n) t ∧ (t < i ∨ t < j → 0 < L.entry n t t ∧
        L.entry n t t * L.entry n t t = leftover A (L.entry n) t) := by
  intro t
  induction t using Nat.strong_induction_on with
  | _ t ih =>
    intro below turn
    have earlier (s : Nat) (before : s < t) := (ih s before (by omega) (by omega)).2 (by omega)
    have bordered := part.bordered symmetric (by omega) turn fun s before => (earlier s before).2
    have positive := (bordered.posDef_iff
      fun s before => (earlier s before).1.ne').mp (posDef_corner definite below)
    refine ⟨positive, fun done => ?_⟩
    obtain ⟨-, rooted | ⟨-, none_left, -⟩⟩ := part.rooted t (by omega) (by omega)
    · rw [rooted]
      exact sqrt_exact _ positive
    · exact absurd none_left positive.ne'

/-- The product of the finished factor with its transpose. -/
theorem CholTo.gram (part : CholTo Real.sqrt n A size n 0 L)
    (symmetric : ∀ a < n, ∀ b < n, A a b = A b a)
    (squares : ∀ s < n, L.entry n s s * L.entry n s s = leftover A (L.entry n) s) {a b : Nat}
    (inRow : a < n) (inColumn : b < n) : Foundation.gram n (L.entry n) a b = A a b := by
  obtain ⟨k, rfl⟩ : ∃ k, n = k + 1 := Nat.exists_eq_succ_of_ne_zero (by omega)
  have last : k < k + 1 := Nat.lt_succ_self k
  have whole := part.bordered symmetric last (Or.inl last) fun s before => squares s (before.trans last)
  have lower : ∀ i < k + 1, ∀ j < k + 1, i < j → L.entry (k + 1) i j = 0 :=
    fun i inRow j inColumn before => part.zero i inRow j inColumn (Or.inl before)
  rw [(gram_bordered lower last).entries a (by omega) b (by omega), squares k last,
    whole.entries a (by omega) b (by omega)]

end

section
variable {n : Nat} {A L : Buffer ℝ}

theorem symmetric_entries (symmetric : (A.matrix n).IsSymm) :
    ∀ a < n, ∀ b < n, A.entry n a b = A.entry n b a :=
  fun a inRow b inColumn => symmetric.apply ⟨b, inColumn⟩ ⟨a, inRow⟩

theorem gram_product {L : Buffer ℝ} (same : ∀ a < n, ∀ b < n, gram n (L.entry n) a b = A.entry n a b) :
    L.matrix n * (L.matrix n)ᵀ = A.matrix n := by
  ext a b
  rw [gram_matrix, same a a.isLt b b.isLt]
  rfl

theorem product_gram {L : Buffer ℝ} (product : L.matrix n * (L.matrix n)ᵀ = A.matrix n) :
    ∀ a < n, ∀ b < n, gram n (L.entry n) a b = A.entry n a b := by
  intro a inRow b inColumn
  have entry := congrFun (congrFun product ⟨a, inRow⟩) ⟨b, inColumn⟩
  rwa [gram_matrix] at entry

/-- A positive definite matrix is factored. -/
theorem smlsMatChol_factors (rows : n ≤ 46340) (room : n * n ≤ A.size) (room' : n * n ≤ L.size)
    (definite : (A.matrix n).PosDef) : Returns (smlsMatChol Real.sqrt A L n) fun L' =>
      L'.size = L.size ∧ CholFactor n (L'.entry n) ∧
        ∀ a < n, ∀ b < n, gram n (L'.entry n) a b = A.entry n a b := by
  have symmetric := symmetric_entries (A := A) definite.isHermitian
  rcases smlsMatChol_cases sqrt_exact rows room room' with called | ⟨-, i, inside, L', part, negative⟩
  · refine called.weaken fun L' part => ?_
    have pivots (t : Nat) (below : t < n) :=
      (part.left_positive symmetric le_rfl definite t below (Or.inl below)).2 (Or.inl below)
    refine ⟨part.size, ⟨fun t below c inside before => part.zero t below c inside (Or.inl before),
      fun t below => (pivots t below).1⟩, fun a inRow b inColumn => ?_⟩
    exact part.gram symmetric (fun t below => (pivots t below).2) inRow inColumn
  · have positive := (part.left_positive symmetric le_rfl definite i inside (Or.inr ⟨rfl, le_rfl⟩)).1
    exact absurd negative (not_lt.mpr positive.le)

/-- The call returns a factor with positive diagonal whose product is the matrix if and only if
the matrix is positive definite. -/
theorem chol_factors_iff (rows : n ≤ 46340) (room : n * n ≤ A.size) (room' : n * n ≤ L.size) :
    (∃ L', smlsMatChol Real.sqrt A L n = some L' ∧ CholFactor n (L'.entry n) ∧
      L'.matrix n * (L'.matrix n)ᵀ = A.matrix n) ↔ (A.matrix n).PosDef := by
  constructor
  · rintro ⟨L', -, factor, product⟩
    have definite := gram_posDef factor.lower fun i inside => (factor.diagonal i inside).ne'
    rwa [corner_congr fun a inRow b inColumn => product_gram product a inRow b inColumn] at definite
  · intro definite
    obtain ⟨L', called, -, factor, product⟩ := smlsMatChol_factors rows room room' definite
    exact ⟨L', called, factor, gram_product product⟩

/-- The rows `1, 1` and `1, 2`, the product of `lowerOnes` with its transpose. -/
def onesGram : Buffer ℝ := ⟨4, fun i => if i = 3 then 1 + 1 else 1⟩

theorem onesGram_posDef : (onesGram.matrix 2).PosDef := by
  have definite := gram_posDef lowerOnes_factor.lower fun i inside =>
    (lowerOnes_factor.diagonal i inside).ne'
  refine Eq.mp (congrArg Matrix.PosDef ?_) definite
  ext a b
  fin_cases a <;> fin_cases b <;>
    simp [corner, gram, Finset.sum_range_succ, Buffer.entry, Buffer.matrix, lowerOnes, onesGram]

theorem chol_factors_iff_ones : ∃ L', smlsMatChol Real.sqrt onesGram ⟨4, fun _ => 0⟩ 2 = some L' ∧
    CholFactor 2 (L'.entry 2) ∧ L'.matrix 2 * (L'.matrix 2)ᵀ = onesGram.matrix 2 := by
  have room : 2 * 2 ≤ onesGram.size := by decide
  have room' : 2 * 2 ≤ (⟨4, fun _ => 0⟩ : Buffer ℝ).size := by decide
  exact (chol_factors_iff (by decide) room room').mpr onesGram_posDef

/-- With a zero on the diagonal the product is the matrix only if nothing is behind it. -/
theorem chol_exact_iff (rows : n ≤ 46340) (room : n * n ≤ A.size) (room' : n * n ≤ L.size)
    (symmetric : (A.matrix n).IsSymm) :
    (∃ L', smlsMatChol Real.sqrt A L n = some L' ∧ L'.matrix n * (L'.matrix n)ᵀ = A.matrix n) ↔
      (A.matrix n).PosSemidef ∧ (corner (n - 1) (A.entry n)).PosDef := by
  have entries := symmetric_entries symmetric
  constructor
  · rintro ⟨L', called, product⟩
    have semidefinite := Matrix.posSemidef_self_mul_conjTranspose (L'.matrix n)
    rw [Matrix.conjTranspose_eq_transpose_of_trivial, product] at semidefinite
    refine ⟨semidefinite, ?_⟩
    rcases smlsMatChol_cases sqrt_exact rows room room' with ⟨_, called', part⟩ | ⟨stopped, -⟩
    · cases called.symm.trans called'
      have lower : ∀ a < n, ∀ b < n, a < b → L'.entry n a b = 0 :=
        fun a inRow b inColumn before => part.zero a inRow b inColumn (Or.inl before)
      have squares (t : Nat) (below : t < n) :
          L'.entry n t t * L'.entry n t t = leftover (A.entry n) (L'.entry n) t := by
        rw [leftover, ← product_gram product t below t below, gram_cut lower below]
        exact (add_sub_cancel_left _ _).symm
      by_cases single : n ≤ 1
      · rw [Nat.sub_eq_zero_of_le single]
        exact posDef_empty _
      · obtain ⟨k, rfl⟩ : ∃ k, n = k + 2 := Nat.exists_eq_add_of_le' (by omega)
        have nonzero (t : Nat) (below : t ≤ k) : L'.entry (k + 2) t t ≠ 0 :=
          (part.divided (t + 1) (by omega) t (Nat.lt_succ_self t) (Or.inl (by omega))).1
        have bordered := part.bordered entries (t := k) (by omega) (Or.inl (by omega))
          fun t before => squares t (by omega)
        refine (bordered.posDef_iff fun t before => nonzero t before.le).mpr ?_
        rw [← squares k (by omega)]
        exact mul_self_pos.mpr (nonzero k le_rfl)
    · cases stopped.symm.trans called
  · rintro ⟨semidefinite, definite⟩
    have inside : n - 1 ≤ n := Nat.sub_le n 1
    rcases smlsMatChol_cases sqrt_exact rows room room' with called | ⟨-, i, below, L', part, negative⟩
    · obtain ⟨L', called, part⟩ := called
      refine ⟨L', called, gram_product fun a inRow b inColumn => part.gram entries (fun t below => ?_)
        inRow inColumn⟩
      by_cases last : t + 1 < n
      · exact ((part.left_positive entries inside definite t (by omega) (Or.inl below)).2
          (Or.inl below)).2
      · obtain ⟨defined, rooted | ⟨other, -⟩⟩ := part.rooted t below (Or.inl below)
        · rw [rooted, Real.mul_self_sqrt defined]
        · exact absurd other last
    · have pivots (t : Nat) (before : t < i) :=
        (part.left_positive entries inside definite t (by omega) (Or.inl before)).2 (Or.inl before)
      have bordered := part.bordered entries below (Or.inr ⟨rfl, le_rfl⟩) fun t before => (pivots t before).2
      have defined := bordered.pivot_nonneg (fun t before => (pivots t before).1.ne')
        (posSemidef_corner semidefinite below)
      exact absurd negative (not_lt.mpr defined)

end

/-- A second row that repeats the first leaves a zero on the diagonal, and the third row divides
by it. -/
theorem chol_exact_iff_repeated : ¬ ∃ L', smlsMatChol Real.sqrt ⟨9, fun _ => 1⟩ ⟨9, fun _ => 0⟩ 3 = some L' ∧
    L'.matrix 3 * (L'.matrix 3)ᵀ = (⟨9, fun _ => 1⟩ : Buffer ℝ).matrix 3 := by
  have room (item : ℝ) : 3 * 3 ≤ (⟨9, fun _ => item⟩ : Buffer ℝ).size := Nat.le_refl 9
  have symmetric : ((⟨9, fun _ => 1⟩ : Buffer ℝ).matrix 3).IsSymm := Matrix.IsSymm.ext fun _ _ => rfl
  rw [chol_exact_iff (by decide) (room 1) (room 0) symmetric]
  rintro ⟨-, definite⟩
  have regular := posDef_det definite
  rw [Matrix.det_fin_two] at regular
  simp [corner, Buffer.entry] at regular

end Simuless.Linalg
