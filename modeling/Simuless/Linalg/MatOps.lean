import Mathlib.Data.Matrix.Mul
import Mathlib.Algebra.BigOperators.Fin
import Mathlib.Algebra.Field.Basic
import Simuless.Linalg.Buffer

/-! Transposes and products.

Both walk through their buffers with running pointers.
-/

set_option autoImplicit false

namespace Simuless.Linalg

open Foundation

variable {K : Type} [Field K]

/-- `EINVAL`. -/
def einval : Int := 22

/-- The result so far and both pointers, as indices. -/
structure Transposing (K : Type) where
  B : Buffer K
  ptrA : Nat
  transpose : Nat

def transposeEntry (row : Nat) (A : Buffer K) (walk : Transposing K) (_j : Nat) :
    Option (Transposing K) := do
  let item ← A.read walk.ptrA
  let B ← walk.B.write walk.transpose item
  return ⟨B, walk.ptrA + 1, walk.transpose + row⟩

def transposeRow (row column : Nat) (A : Buffer K) (walk : Transposing K) (i : Nat) :
    Option (Transposing K) :=
  (upTo 0 column).foldlM (transposeEntry row A) { walk with transpose := i }

/-- The array of the call itself is not set before it is written. -/
def smlsMatTranspose (At A : Buffer K) (row column : Nat) : Option (Buffer K) := do
  let walk ← (upTo 0 row).foldlM (transposeRow row column A) ⟨⟨row * column, fun _ => 0⟩, 0, 0⟩
  At.copy walk.B (row * column)

/-- The result so far and the pointers `C`, `data_a` and `data_b`, as indices. -/
structure Multiplying (K : Type) where
  C : Buffer K
  c : Nat
  dataA : Nat
  dataB : Nat

/-- `*C += *data_a * *data_b`. -/
def mulTerm (columnB : Nat) (A B : Buffer K) (walk : Multiplying K) (_k : Nat) :
    Option (Multiplying K) := do
  let sum ← walk.C.read walk.c
  let a ← A.read walk.dataA
  let b ← B.read walk.dataB
  let C ← walk.C.write walk.c (sum + a * b)
  return { walk with C, dataA := walk.dataA + 1, dataB := walk.dataB + columnB }

def mulEntry (columnA columnB : Nat) (A B : Buffer K) (i : Nat) (walk : Multiplying K) (j : Nat) :
    Option (Multiplying K) := do
  let C ← walk.C.write walk.c 0
  let walk ← (upTo 0 columnA).foldlM (mulTerm columnB A B) ⟨C, walk.c, i * columnA, j⟩
  return { walk with c := walk.c + 1 }

def mulRow (columnA columnB : Nat) (A B : Buffer K) (walk : Multiplying K) (i : Nat) :
    Option (Multiplying K) :=
  (upTo 0 columnB).foldlM (mulEntry columnA columnB A B i) walk

/-- The return value and `C`. -/
def smlsMatMul (C A B : Buffer K) (rowA columnA rowB columnB : Nat) : Option (Int × Buffer K) := do
  if columnA ≠ rowB then return (-einval, C)
  let walk ← (upTo 0 rowA).foldlM (mulRow columnA columnB A B) ⟨C, 0, 0, 0⟩
  return (0, walk.C)

/-! Transposes. -/

section
variable {row column i j : Nat} {A : Buffer K}

/-- The entries before this one, row by row, are in place. -/
structure TransposedTo (row column : Nat) (A : Buffer K) (i j : Nat) (walk : Transposing K) : Prop where
  size : walk.B.size = row * column
  ptrA : walk.ptrA = column * i + j
  entries : ∀ t < row, ∀ c < column, t < i ∨ t = i ∧ c < j → walk.B.entry row c t = A.entry column t c

omit [Field K] in
theorem TransposedTo.next {walk : Transposing K} (part : TransposedTo row column A i j walk)
    (at_entry : walk.transpose = i + row * j) (room : row * column ≤ A.size) (inRow : i < row)
    (inColumn : j < column) : Returns (transposeEntry row A walk j) fun walk =>
      TransposedTo row column A i (j + 1) walk ∧ walk.transpose = i + row * (j + 1) := by
  have index : walk.transpose = row * j + i := at_entry.trans (Nat.add_comm _ _)
  have inB : row * j + i < walk.B.size := by
    rw [part.size, Nat.mul_comm row column]
    exact flat_lt_product inColumn inRow
  have inA : walk.ptrA < A.size := by
    rw [part.ptrA]
    exact (flat_lt_product inRow inColumn).trans_le room
  apply Returns.known (A.read_inside inA)
  rw [index]
  apply Returns.known (walk.B.write_inside inB _)
  refine Returns.done ⟨⟨part.size, ?_, fun t inRow' c inColumn' before => ?_⟩, ?_⟩
  · simp only [part.ptrA, Nat.add_assoc]
  · rw [Buffer.entry_set inRow inRow']
    by_cases here : c = j ∧ t = i
    · rw [if_pos here, part.ptrA, here.1, here.2]
      rfl
    · rw [if_neg here]
      exact part.entries t inRow' c inColumn' (by omega)
  · simp only [Nat.mul_succ]
    omega

/-- A call puts the transposed matrix into place. -/
theorem smlsMatTranspose_returns {At : Buffer K} (room : row * column ≤ A.size)
    (room' : row * column ≤ At.size) : Returns (smlsMatTranspose At A row column) fun At' =>
      At'.size = At.size ∧ ∀ i < row, ∀ j < column, At'.entry row j i = A.entry column i j := by
  refine Returns.next (Returns.loop (fun i => TransposedTo row column A i 0) (Nat.zero_le row)
    ⟨rfl, rfl, fun t _ c _ before => by omega⟩ ?_) fun walk _ part => ?_
  · intro i walk _ inRow part
    have start : TransposedTo row column A i 0 { walk with transpose := i } :=
      ⟨part.size, part.ptrA, part.entries⟩
    have inner := Returns.loop (fun j walk => TransposedTo row column A i j walk ∧
      walk.transpose = i + row * j) (Nat.zero_le column) ⟨start, rfl⟩
      fun j walk _ inColumn ⟨part, at_entry⟩ => part.next at_entry room inRow inColumn
    refine inner.weaken fun walk ⟨part, _⟩ => ⟨part.size, part.ptrA, fun t inRow c inColumn before => ?_⟩
    exact part.entries t inRow c inColumn (by omega)
  · refine ⟨_, if_pos ⟨room', part.size.ge⟩, rfl, fun i inRow j inColumn => ?_⟩
    have inside : row * j + i < row * column := by
      rw [Nat.mul_comm row column]
      exact flat_lt_product inColumn inRow
    exact (if_pos inside).trans (part.entries i inRow j inColumn (Or.inl inRow))

end

/-! Products. -/

section
variable {rowA columnA columnB i j : Nat} {A B : Buffer K}

/-- The first terms of an entry of the product. -/
def mulSum (columnA columnB : Nat) (A B : Buffer K) (i j k : Nat) : K :=
  ∑ t ∈ Finset.range k, A.entry columnA i t * B.entry columnB t j

/-- The entries before this one, row by row, are in place. -/
structure MultipliedTo (size columnA columnB : Nat) (A B : Buffer K) (i j : Nat)
    (walk : Multiplying K) : Prop where
  size : walk.C.size = size
  c : walk.c = columnB * i + j
  entries : ∀ t, ∀ k < columnB, t < i ∨ t = i ∧ k < j →
    walk.C.entry columnB t k = mulSum columnA columnB A B t k columnA

theorem mulTerm_loop {walk : Multiplying K} (inC : walk.c < walk.C.size) (cleared : walk.C.cells walk.c = 0)
    (dataA : walk.dataA = i * columnA) (dataB : walk.dataB = j) (room : rowA * columnA ≤ A.size)
    (room' : columnA * columnB ≤ B.size) (inRow : i < rowA) (inColumn : j < columnB) :
    Returns ((upTo 0 columnA).foldlM (mulTerm columnB A B) walk) fun walk' =>
      walk'.C = walk.C.set walk.c (mulSum columnA columnB A B i j columnA) ∧ walk'.c = walk.c := by
  refine (Returns.loop (fun k (walk' : Multiplying K) =>
    walk'.C = walk.C.set walk.c (mulSum columnA columnB A B i j k) ∧ walk'.c = walk.c ∧
      walk'.dataA = columnA * i + k ∧ walk'.dataB = columnB * k + j) (Nat.zero_le columnA) ?_ ?_).weaken
        fun walk' part => ⟨part.1, part.2.1⟩
  · refine ⟨?_, rfl, ?_, ?_⟩
    · rw [mulSum, Finset.sum_range_zero, ← cleared, Buffer.set_cells]
    · rw [dataA, Nat.mul_comm, Nat.add_zero]
    · rw [dataB, Nat.mul_zero, Nat.zero_add]
  · rintro k ⟨C, c, dataA, dataB⟩ - inside ⟨rfl, rfl, rfl, rfl⟩
    have inA := (flat_lt_product inRow inside).trans_le room
    have inB := (flat_lt_product inside inColumn).trans_le room'
    apply Returns.known (Buffer.read_inside (walk.C.set walk.c _) inC)
    apply Returns.known (A.read_inside inA)
    apply Returns.known (B.read_inside inB)
    apply Returns.known (Buffer.write_inside (walk.C.set walk.c _) inC _)
    refine Returns.done ⟨?_, rfl, Nat.add_assoc _ _ _, ?_⟩
    · have longer : mulSum columnA columnB A B i j (k + 1) =
          mulSum columnA columnB A B i j k + A.entry columnA i k * B.entry columnB k j :=
        Finset.sum_range_succ _ _
      rw [longer, Buffer.set_same, Buffer.set_set]
      rfl
    · simp only [Nat.mul_succ]
      omega

theorem MultipliedTo.next {size : Nat} {walk : Multiplying K}
    (part : MultipliedTo size columnA columnB A B i j walk) (room : rowA * columnA ≤ A.size)
    (room' : columnA * columnB ≤ B.size) (room'' : rowA * columnB ≤ size) (inRow : i < rowA)
    (inColumn : j < columnB) : Returns (mulEntry columnA columnB A B i walk j)
      (MultipliedTo size columnA columnB A B i (j + 1)) := by
  have inC : walk.c < walk.C.size := by
    rw [part.size, part.c]
    exact (flat_lt_product inRow inColumn).trans_le room''
  apply Returns.known (walk.C.write_inside inC _)
  have loop : Returns ((upTo 0 columnA).foldlM (mulTerm columnB A B)
      ⟨walk.C.set walk.c 0, walk.c, i * columnA, j⟩) fun walk' =>
        walk'.C = (walk.C.set walk.c 0).set walk.c (mulSum columnA columnB A B i j columnA) ∧
          walk'.c = walk.c :=
    mulTerm_loop inC (Buffer.set_same _ _ _) rfl rfl room room' inRow inColumn
  rw [Buffer.set_set] at loop
  refine Returns.next loop fun walk' _ ⟨written, c⟩ => Returns.done ⟨?_, ?_, fun t k inColumn' before => ?_⟩
  · simp only [written, Buffer.set_size, part.size]
  · simp only [c, part.c, Nat.add_assoc]
  · simp only [written, part.c, Buffer.entry_set inColumn inColumn']
    by_cases here : t = i ∧ k = j
    · rw [if_pos here, here.1, here.2]
    · rw [if_neg here]
      exact part.entries t k inColumn' (by omega)

/-- A call with matching sizes puts the product into place. -/
theorem smlsMatMul_returns {C : Buffer K} (room : rowA * columnA ≤ A.size)
    (room' : columnA * columnB ≤ B.size) (room'' : rowA * columnB ≤ C.size) :
    Returns (smlsMatMul C A B rowA columnA columnA columnB) fun result => result.1 = 0 ∧
      result.2.size = C.size ∧
        result.2.rectangle rowA columnB = A.rectangle rowA columnA * B.rectangle columnA columnB := by
  rw [smlsMatMul, if_neg (not_not.mpr rfl)]
  refine Returns.next (Returns.loop (fun i => MultipliedTo C.size columnA columnB A B i 0)
    (Nat.zero_le rowA) ⟨rfl, rfl, fun t k _ before => by omega⟩ ?_) fun walk _ part => ?_
  · intro i walk _ inRow part
    have inner := Returns.loop (fun j => MultipliedTo C.size columnA columnB A B i j)
      (Nat.zero_le columnB) part fun j walk _ inColumn part => part.next room room' room'' inRow inColumn
    refine inner.weaken fun walk part => ⟨part.size, part.c, fun t k inColumn before => ?_⟩
    exact part.entries t k inColumn (by omega)
  · refine Returns.done ⟨rfl, part.size, ?_⟩
    ext i j
    rw [Matrix.mul_apply]
    exact (part.entries i j j.isLt (Or.inl i.isLt)).trans (Finset.sum_range _)

end

/-! Entry by entry. -/

omit [Field K] in
/-- A loop that gives each entry a value of its own. -/
theorem entrywise_loop {body : Buffer K → Nat → Option (Buffer K)} {count : Nat} {target : Buffer K}
    (value : Nat → K → K) (turn : ∀ i < count, ∀ target' : Buffer K, target'.size = target.size →
      body target' i = some (target'.set i (value i (target'.cells i)))) :
    Returns ((upTo 0 count).foldlM body target) fun target' => target'.size = target.size ∧
      ∀ k < count, target'.cells k = value k (target.cells k) := by
  refine (Returns.loop (fun i (target' : Buffer K) => target'.size = target.size ∧
    ∀ k, target'.cells k = if k < i then value k (target.cells k) else target.cells k)
      (Nat.zero_le count) ⟨rfl, fun k => (if_neg (Nat.not_lt_zero k)).symm⟩ ?_).weaken
        fun target' ⟨size, cells⟩ => ⟨size, fun k below => (cells k).trans (if_pos below)⟩
  rintro i target' - below ⟨size, cells⟩
  rw [turn i below target' size]
  refine Returns.done ⟨size, fun k => ?_⟩
  by_cases here : k = i
  · rw [here, Buffer.set_same, cells i, if_neg (Nat.lt_irrefl i), if_pos (Nat.lt_succ_self i)]
  · rw [Buffer.set_other _ here, cells k]
    exact if_congr (by omega) rfl rfl

omit [Field K] in
/-- A loop over one row of a matrix that changes every entry of the row once. -/
theorem rowwise_loop {body : Buffer K → Nat → Option (Buffer K)} {column i : Nat} {target : Buffer K}
    (value : Nat → K → K) (turn : ∀ j < column, ∀ target' : Buffer K, target'.size = target.size →
      (∀ t, t ≠ i → ∀ c < column, target'.entry column t c = target.entry column t c) →
        body target' j = some (target'.set (column * i + j) (value j (target'.entry column i j)))) :
    Returns ((upTo 0 column).foldlM body target) fun target' => target'.size = target.size ∧
      ∀ t, ∀ c < column, target'.entry column t c =
        if t = i then value c (target.entry column t c) else target.entry column t c := by
  refine (Returns.loop (fun j (target' : Buffer K) => target'.size = target.size ∧
    ∀ t, ∀ c < column, target'.entry column t c =
      if t = i ∧ c < j then value c (target.entry column t c) else target.entry column t c)
    (Nat.zero_le column) ⟨rfl, fun t c _ => (if_neg (by omega)).symm⟩ ?_).weaken
      fun target' ⟨size, entries⟩ => ⟨size, fun t c inColumn =>
        (entries t c inColumn).trans (if_congr (and_iff_left inColumn) rfl rfl)⟩
  rintro j target' - inColumn ⟨size, entries⟩
  rw [turn j inColumn target' size fun t other c inColumn =>
    (entries t c inColumn).trans (if_neg fun both => other both.1)]
  refine Returns.done ⟨size, fun t c inColumn' => ?_⟩
  refine (Buffer.entry_set inColumn inColumn' _).trans ?_
  by_cases here : t = i ∧ c = j
  · rw [if_pos here, here.1, here.2, if_pos ⟨rfl, Nat.lt_succ_self j⟩, entries i j inColumn,
      if_neg (by omega)]
  · rw [if_neg here, entries t c inColumn']
    exact if_congr (by omega) rfl rfl

omit [Field K] in
/-- A loop over the rows of a square matrix that gives each row new entries. -/
theorem rows_loop {row : Nat} {body : Buffer K → Nat → Option (Buffer K)} {M : Buffer K}
    (value : Matrix (Fin row) (Fin row) K) (turn : ∀ t : Fin row, ∀ M' : Buffer K, M'.size = M.size →
      (∀ q, M'.matrix row t q = M.matrix row t q) → Returns (body M' t) fun M'' => M''.size = M.size ∧
        ∀ k q, M''.matrix row k q = if k = t then value k q else M'.matrix row k q) :
    Returns ((upTo 0 row).foldlM body M) fun M' => M'.size = M.size ∧ M'.matrix row = value := by
  refine (Returns.loop (fun t (M' : Buffer K) => M'.size = M.size ∧ ∀ k q : Fin row,
    M'.matrix row k q = if (k : Nat) < t then value k q else M.matrix row k q) (Nat.zero_le row)
      ⟨rfl, fun k q => rfl⟩ ?_).weaken fun M' ⟨size, entries⟩ =>
        ⟨size, Matrix.ext fun k q => (entries k q).trans (if_pos k.isLt)⟩
  rintro t M' - below ⟨size, entries⟩
  have old (q : Fin row) : M'.matrix row ⟨t, below⟩ q = M.matrix row ⟨t, below⟩ q :=
    (entries ⟨t, below⟩ q).trans (if_neg (Nat.lt_irrefl t))
  refine (turn ⟨t, below⟩ M' size old).weaken fun M'' ⟨size', entries'⟩ => ⟨size', fun k q => ?_⟩
  rw [entries', entries]
  by_cases here : k = ⟨t, below⟩
  · rw [if_pos here, here, if_pos (Nat.lt_succ_self t)]
  · rw [if_neg here]
    rw [Fin.ext_iff] at here
    exact if_congr (by simp only at here; omega) rfl rfl

omit [Field K] in
/-- A loop over the last columns of a square matrix that gives each column new entries. -/
theorem columns_loop {row first : Nat} {body : Buffer K → Nat → Option (Buffer K)} {M : Buffer K}
    (value : Matrix (Fin row) (Fin row) K) (order : first ≤ row)
    (turn : ∀ t : Fin row, first ≤ t → ∀ M' : Buffer K, M'.size = M.size →
      (∀ r, M'.matrix row r t = M.matrix row r t) → Returns (body M' t) fun M'' => M''.size = M.size ∧
        ∀ r q, M''.matrix row r q = if q = t then value r q else M'.matrix row r q) :
    Returns ((upTo first row).foldlM body M) fun M' => M'.size = M.size ∧
      ∀ r q : Fin row, M'.matrix row r q = if first ≤ q then value r q else M.matrix row r q := by
  refine (Returns.loop (fun t (M' : Buffer K) => M'.size = M.size ∧ ∀ r q : Fin row,
    M'.matrix row r q = if first ≤ q ∧ (q : Nat) < t then value r q else M.matrix row r q) order
      ⟨rfl, fun r q => (if_neg (by omega)).symm⟩ ?_).weaken fun M' ⟨size, entries⟩ =>
        ⟨size, fun r q => (entries r q).trans (if_congr (and_iff_left q.isLt) rfl rfl)⟩
  rintro t M' since below ⟨size, entries⟩
  have old (r : Fin row) : M'.matrix row r ⟨t, below⟩ = M.matrix row r ⟨t, below⟩ :=
    (entries r ⟨t, below⟩).trans (if_neg fun both => Nat.lt_irrefl t both.2)
  refine (turn ⟨t, below⟩ since M' size old).weaken fun M'' ⟨size', entries'⟩ => ⟨size', fun r q => ?_⟩
  rw [entries', entries]
  by_cases here : q = ⟨t, below⟩
  · rw [if_pos here, here, if_pos ⟨since, Nat.lt_succ_self t⟩]
  · rw [if_neg here]
    rw [Fin.ext_iff] at here
    exact if_congr (by simp only at here; omega) rfl rfl

omit [Field K] in
/-- A loop over the rows of a square matrix that writes one entry of each row. -/
theorem rows_entry_loop {row : Nat} {body : Buffer K → Nat → Option (Buffer K)} {M : Buffer K} (c : Fin row)
    (value : Fin row → K) (turn : ∀ t : Fin row, ∀ M' : Buffer K, M'.size = M.size →
      (∀ q, M'.matrix row t q = M.matrix row t q) → body M' t = some (M'.set (row * t + c) (value t))) :
    Returns ((upTo 0 row).foldlM body M) fun M' => M'.size = M.size ∧
      M'.matrix row = fun r q => if q = c then value r else M.matrix row r q := by
  refine rows_loop _ fun t M' size old => ⟨_, turn t M' size old, size, fun r q => ?_⟩
  refine (Buffer.entry_set c.isLt q.isLt _).trans ?_
  simp only [← Fin.ext_iff]
  by_cases here : r = t
  · subst here
    have same : M'.entry row r q = M.matrix row r q := old q
    simp only [true_and, if_true, same]
  · simp only [here, false_and, if_false]
    rfl

omit [Field K] in
/-- A loop over the last columns of a square matrix that writes one entry of each column. -/
theorem columns_entry_loop {row first : Nat} {body : Buffer K → Nat → Option (Buffer K)} {M : Buffer K}
    (order : first ≤ row) (i : Fin row) (value : Fin row → K)
    (turn : ∀ t : Fin row, ∀ M' : Buffer K, M'.size = M.size →
      (∀ r, M'.matrix row r t = M.matrix row r t) → body M' t = some (M'.set (row * i + t) (value t))) :
    Returns ((upTo first row).foldlM body M) fun M' => M'.size = M.size ∧ ∀ r q : Fin row,
      M'.matrix row r q = if first ≤ q then if r = i then value q else M.matrix row r q
        else M.matrix row r q := by
  refine columns_loop _ order fun t _ M' size old => ⟨_, turn t M' size old, size, fun r q => ?_⟩
  refine (Buffer.entry_set t.isLt q.isLt _).trans ?_
  simp only [← Fin.ext_iff]
  by_cases here : q = t
  · subst here
    have same : M'.entry row r q = M.matrix row r q := old r
    simp only [and_true, if_true, same]
  · simp only [here, and_false, if_false]
    rfl

/-- A loop that sets the diagonal of a matrix of zeros. -/
theorem identity_loop {row : Nat} {body : Buffer K → Nat → Option (Buffer K)} {M : Buffer K}
    (zeros : M.matrix row = 0) (turn : ∀ i < row, ∀ M' : Buffer K, M'.size = M.size →
      body M' i = some (M'.set (row * i + i) 1)) :
    Returns ((upTo 0 row).foldlM body M) fun M' => M'.size = M.size ∧ M'.matrix row = 1 := by
  refine (Returns.loop (fun i (M' : Buffer K) => M'.size = M.size ∧ ∀ t c : Fin row,
    M'.matrix row t c = if t = c ∧ (t : Nat) < i then 1 else 0) (Nat.zero_le row) ⟨rfl, ?_⟩
    ?_).weaken fun M' ⟨size, entries⟩ => ⟨size, ?_⟩
  · intro t c
    rw [if_neg (by omega), zeros, Matrix.zero_apply]
  · rintro i M' - below ⟨size, entries⟩
    refine ⟨_, turn i below M' size, size, fun t c => ?_⟩
    refine (Buffer.entry_set below c.isLt _).trans ?_
    by_cases here : (t : Nat) = i ∧ (c : Nat) = i
    · rw [if_pos here, if_pos ⟨Fin.ext (here.1.trans here.2.symm), by omega⟩]
    · rw [if_neg here]
      refine (entries t c).trans (if_congr ?_ rfl rfl)
      rw [Fin.ext_iff]
      omega
  · ext t c
    rw [entries, Matrix.one_apply]
    exact if_congr (and_iff_left t.isLt) rfl rfl

end Simuless.Linalg
