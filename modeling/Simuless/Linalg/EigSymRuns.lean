import Simuless.Linalg.EigSym

/-! Whole calls.

A call always comes to its end, and the vectors are orthogonal. Unless a
rotation was too short, they are eigenvectors up to the entries that are left
next to the diagonal. A row that has had its thirty sweeps keeps its entry, and
the sweeps of later rows pass it by.
-/

set_option autoImplicit false

namespace Simuless.Linalg

open Foundation
open scoped Matrix Matrix.Norms.Frobenius

section
variable {row : Nat}

theorem tqli_returns {state : Eigen ℝ} (keeps : Keeps row state) (positive : 0 < row) :
    Returns (tqli Real.sqrt row state) fun final => ∃ e, tqliEntries row state.e = some e ∧
      (∀ t, t + 1 < row → e.cells t = state.e.cells (t + 1)) ∧
        RowsDone row row 0 { state with e } final := by
  refine Returns.next (tqliEntries_returns keeps.room.e positive) fun e same ⟨size, last, cells⟩ => ?_
  have start : RowsDone row 0 0 { state with e } { state with e } :=
    ⟨⟨⟨keeps.room.rows, keeps.room.d, size.symm ▸ keeps.room.e, keeps.room.z⟩, keeps.orthogonal⟩, last,
      Or.inr ⟨.first, by rw [sub_self, norm_zero, Finset.sum_range_zero]⟩⟩
  refine (Returns.loop (fun l => RowsDone row l 0 { state with e }) (Nat.zero_le row) start
    fun l state _ below part => part.next below).weaken fun final done => ⟨e, same, cells, done⟩

/-- A row without a sweep. -/
theorem tqliPass_done {state : Eigen ℝ} {l iter : Nat} (room : EigenRoom row state)
    (zeros : ∀ t < row, state.e.cells t = 0) (inside : l < row) :
    tqliPass Real.sqrt row l state iter = some (.leave state) := by
  obtain ⟨m, found, above, -, -, apart⟩ := tqliSplit_returns room.d room.e inside
  have here : m = l := Nat.le_antisymm (Nat.le_of_not_lt fun later => apart later (zeros l inside)) above
  rw [tqliPass, found, here]
  exact if_pos (Or.inl rfl)

/-- A sweep of the call comes to a rotation shorter than the machine epsilon. -/
def eigSymBreaks (AA ev d : Buffer ℝ) (row : Nat) : Prop :=
  ∃ copied cleared tri e, ev.copy AA (row * row) = some copied ∧ d.clear row = some cleared ∧
    tridiag Real.sqrt row ⟨copied, cleared, ⟨row, fun _ => 0⟩⟩ = some tri ∧ tqliEntries row tri.e = some e ∧
      ComesToBreak row ⟨tri.d, e, tri.a⟩

/-- A call returns orthogonal vectors. Unless a sweep was broken off, the entries that are left
next to the diagonal bound how far they are from eigenvectors, with the diagonal as eigenvalues. -/
theorem eigSym_returns {AA ev d : Buffer ℝ} (positive : 0 < row) (rows : row ≤ 46340)
    (room : row * row ≤ AA.size ∧ row * row ≤ ev.size ∧ row ≤ d.size)
    (symmetric : (AA.matrix row)ᵀ = AA.matrix row) : ∃ state,
      eigSymArrays Real.sqrt AA ev d row = some state ∧
      smlsMatEigSym Real.sqrt AA ev d row = some (state.z, state.d) ∧
      (state.z.matrix row)ᵀ * state.z.matrix row = 1 ∧
      (eigSymBreaks AA ev d row ∨
        ‖AA.matrix row * state.z.matrix row - state.z.matrix row * Matrix.diagonal (state.d.vector row)‖ ≤
          ∑ t ∈ Finset.range row, √2 * |state.e.cells t|) := by
  let copied : Buffer ℝ := ⟨ev.size, fun i => if i < row * row then AA.cells i else ev.cells i⟩
  let cleared : Buffer ℝ := ⟨d.size, fun i => if i < row then 0 else d.cells i⟩
  have start : TridiagRoom row ⟨copied, cleared, ⟨row, fun _ => 0⟩⟩ := ⟨rows, room.2.1, room.2.2, le_rfl⟩
  have first : ev.copy AA (row * row) = some copied := if_pos ⟨room.2.1, room.1⟩
  have second : d.clear row = some cleared := if_pos room.2.2
  have third : (⟨row, fun _ => 0⟩ : Buffer ℝ).clear row = some ⟨row, fun _ => 0⟩ := by
    simp [Buffer.clear]
  obtain ⟨tri, formed, roomed, orthogonal, product⟩ := tridiag_brings start positive
  have keeps : Keeps row ⟨tri.d, tri.e, tri.a⟩ := ⟨⟨rows, roomed.d, roomed.e, roomed.a⟩, orthogonal⟩
  obtain ⟨state, turned, e, shifted, cells, done⟩ := tqli_returns keeps positive
  have arrays : eigSymArrays Real.sqrt AA ev d row = some state := by
    simp only [eigSymArrays, first, second, third, formed, Option.bind_eq_bind, Option.bind_some]
    exact turned
  have call : smlsMatEigSym Real.sqrt AA ev d row = some (state.z, state.d) := by
    rw [smlsMatEigSym, arrays]
    rfl
  refine ⟨state, arrays, call, done.keeps.orthogonal, ?_⟩
  rcases done.ends with broken | ⟨-, close⟩
  · exact Or.inl ⟨copied, cleared, tri, e, first, second, formed, shifted, broken⟩
  · right
    have whole : lowerMatrix row copied = AA.matrix row := by
      ext r c
      have entry (r c : Fin row) : copied.entry row r c = AA.matrix row r c :=
        if_pos (flat_lt r.isLt c.isLt)
      rw [lowerMatrix, Matrix.of_apply, lowerEntry, entry, entry]
      split
      · rfl
      · exact congrFun (congrFun symmetric r) c
    have same : eigenMatrix row 0 ⟨tri.d, e, tri.a⟩ = AA.matrix row := by
      rw [← whole, product, eigenMatrix, keptFrom_zero]
      congr 2
      exact bulged_congr (fun _ _ => rfl) cells fun _ _ _ => rfl
    have none (t : Nat) (inside : t < row) : keptFrom row state.e.cells t = 0 := if_pos inside
    rw [same, eigenMatrix, band_diagonal none] at close
    exact (residual_vectors done.keeps.orthogonal).trans_le close

end

/-! A matrix that takes one sweep. -/

/-- The symmetric matrix with these entries. -/
def mirroredPair : Buffer ℝ := ⟨4, fun i => if i = 1 ∨ i = 2 then 1 else 0⟩

section
variable {state : Eigen ℝ}

/-- What its sweeps begin with. -/
structure PairStart (state : Eigen ℝ) : Prop where
  room : EigenRoom 2 state
  d : state.d.cells 0 = 0 ∧ state.d.cells 1 = 0
  e : state.e.cells 0 = 1

/-- The state inside of its sweep, before the rotation. -/
def pairRotating (state : Eigen ℝ) : Rotating ℝ := { state with s := 1, c := 1, p := 0, g := 1, r := 1 }

theorem epsilon_below_one : ¬ (1 : ℝ) < fltEpsilon := by
  rw [fltEpsilon]
  norm_num

theorem PairStart.begun (start : PairStart state) :
    tqliStart Real.sqrt 0 1 state = some (pairRotating state) := by
  have inD : 0 < state.d.size ∧ 1 < state.d.size := by
    have := start.room.d
    omega
  have inE : 0 < state.e.size := Nat.two_pos.trans_le start.room.e
  simp [tqliStart, pairRotating, state.d.read_inside inD.1, state.d.read_inside inD.2,
    state.e.read_inside inE, start.d, start.e, quotient, pythagFloat, pythagRatio, root, absSign,
    epsilon_below_one, not_lt.mpr zero_le_one]

/-- The rotation clears the entry. -/
theorem PairStart.rotated (start : PairStart state) {r : ℝ} (positive : 0 < r) (square : r ^ 2 = 2) :
    Returns (tqliRotate 2 0 1 1 (state.e.set 1 r) r (pairRotating state)) fun rotated =>
      EigenRoom 2 rotated.toEigen ∧ rotated.g = 0 := by
  obtain ⟨⟨rows, roomD, roomE, roomZ⟩, ⟨d0, d1⟩, e0⟩ := start
  apply Returns.known (quotient_nonzero positive.ne' _)
  apply Returns.known (quotient_nonzero positive.ne' _)
  apply Returns.known (state.d.read_inside (Nat.one_lt_two.trans_le roomD))
  apply Returns.known (state.d.read_inside (Nat.two_pos.trans_le roomD))
  apply Returns.known (state.d.write_inside (Nat.one_lt_two.trans_le roomD) _)
  refine Returns.next (tqliVector_loop rows roomZ Nat.one_lt_two _ _) fun z _ turned => ?_
  refine Returns.done ⟨⟨rows, roomD, roomE, turned.1.symm ▸ roomZ⟩, ?_⟩
  simp only [pairRotating, d0, d1, Nat.cast_ofNat]
  field_simp
  rw [square]
  norm_num

theorem PairStart.turns (start : PairStart state) : Returns (tqliTurns Real.sqrt 2 0 1 state) fun flow =>
    ∃ rotated, flow = .proceed rotated ∧ EigenRoom 2 rotated.toEigen ∧ rotated.g = 0 := by
  apply Returns.known start.begun
  have turned : Returns (tqliTurn Real.sqrt 2 0 1 (pairRotating state) 0) fun flow =>
      ∃ rotated, flow = .proceed rotated ∧ EigenRoom 2 rotated.toEigen ∧ rotated.g = 0 := by
    apply Returns.known (state.e.read_inside (Nat.two_pos.trans_le start.room.e))
    simp only [pairRotating, start.e, mul_one]
    refine Returns.next (pythagFloat_returns 1 1) fun r _ length => ?_
    obtain ⟨-, short⟩ | ⟨positive, square⟩ := length
    · rw [abs_one] at short
      exact absurd short epsilon_below_one
    · apply Returns.known (state.e.write_inside (Nat.one_lt_two.trans_le start.room.e) _)
      have long : ¬ |r| < fltEpsilon := by
        have one := epsilon_below_one
        rw [abs_of_pos positive]
        nlinarith
      rw [if_neg long]
      have squared : r ^ 2 = 2 := by linear_combination square
      exact Returns.next (start.rotated positive squared) fun rotated _ held =>
        Returns.done ⟨rotated, rfl, held⟩
  obtain ⟨_, ran, rotated, rfl, held⟩ := turned
  exact ⟨_, flowLoop_proceed ran, rotated, rfl, held⟩

theorem PairStart.sweep (start : PairStart state) : Returns (tqliSweep Real.sqrt 2 0 1 state) fun next =>
    EigenRoom 2 next ∧ ∀ t < 2, next.e.cells t = 0 := by
  refine Returns.next start.turns fun flow _ held => ?_
  obtain ⟨rotated, rfl, room, zero⟩ := held
  simp only
  rw [tqliFinish_returns room Nat.one_pos Nat.one_lt_two, zero]
  refine Returns.done ⟨⟨room.rows, room.d, room.e, room.z⟩, fun t inside => ?_⟩
  obtain rfl | rfl : t = 0 ∨ t = 1 := by omega
  · exact (Buffer.set_other _ Nat.zero_ne_one _).trans (Buffer.set_same _ _ _)
  · exact Buffer.set_same _ _ _

theorem PairStart.split (start : PairStart state) : tqliSplit 2 0 state.d state.e = some 1 := by
  obtain ⟨m, found, -, inside, ends, -⟩ := tqliSplit_returns start.room.d start.room.e Nat.two_pos
  have apart : m ≠ 0 := by
    rintro rfl
    rcases ends with last | zero
    · omega
    · exact one_ne_zero (start.e.symm.trans zero)
  have last : m = 1 := by omega
  rw [found, last]

theorem PairStart.pass (start : PairStart state) {next : Eigen ℝ}
    (swept : tqliSweep Real.sqrt 2 0 1 state = some next) :
    tqliPass Real.sqrt 2 0 state 0 = some (.proceed next) := by
  have going : ¬((1 : Nat) = 0 ∨ (0 : Nat) = 30) := by decide
  rw [tqliPass, start.split, Option.bind_eq_bind, Option.bind_some, if_neg going, swept]
  rfl

theorem PairStart.rows (start : PairStart state) :
    Returns ((upTo 0 2).foldlM (tqliRow Real.sqrt 2) state) fun final => ∀ t < 2, final.e.cells t = 0 := by
  obtain ⟨next, swept, room, zeros⟩ := start.sweep
  have first : tqliRow Real.sqrt 2 state 0 = some next := by
    rw [tqliRow, upTo_cons (Nat.zero_lt_succ 30), flowLoop_proceed (start.pass swept),
      upTo_cons (by decide : 0 + 1 < 31), flowLoop_leave (tqliPass_done room zeros Nat.two_pos)]
    rfl
  have second : tqliRow Real.sqrt 2 next 1 = some next := by
    rw [tqliRow, upTo_cons (Nat.zero_lt_succ 30), flowLoop_leave (tqliPass_done room zeros Nat.one_lt_two)]
    rfl
  apply Returns.known first
  apply Returns.known second
  exact Returns.done zeros

/-- Behind its one sweep there is nothing left next to the diagonal. -/
theorem PairStart.reached (start : PairStart state) {l iter : Nat} {state' : Eigen ℝ}
    (reached : Reaches 2 state l iter state') : l = 0 ∧ iter = 0 ∧ state' = state ∨
      EigenRoom 2 state' ∧ ∀ t < 2, state'.e.cells t = 0 := by
  obtain ⟨next, swept, done⟩ := start.sweep
  have first := start.pass swept
  induction reached with
  | first => exact Or.inl ⟨rfl, rfl, rfl⟩
  | again inside _ passed ih =>
    right
    rcases ih with ⟨rfl, rfl, rfl⟩ | ⟨room, zeros⟩
    · cases first.symm.trans passed
      exact done
    · cases (tqliPass_done room zeros inside).symm.trans passed
  | later inside _ passed ih =>
    right
    rcases ih with ⟨rfl, rfl, rfl⟩ | ⟨room, zeros⟩
    · cases first.symm.trans passed
    · cases (tqliPass_done room zeros inside).symm.trans passed
      exact ⟨room, zeros⟩

/-- No sweep of this matrix is broken off. -/
theorem PairStart.unbroken (start : PairStart state) : ¬ ComesToBreak 2 state := by
  rintro ⟨l, iter, state', inside, reached, -, m, apart, found, broken, turned⟩
  rcases start.reached reached with ⟨rfl, rfl, rfl⟩ | ⟨room, zeros⟩
  · cases start.split.symm.trans found
    obtain ⟨_, turned', _, rfl, _⟩ := start.turns
    cases turned.symm.trans turned'
  · obtain ⟨m', found', above, -, -, later⟩ := tqliSplit_returns room.d room.e inside
    cases found'.symm.trans found
    exact later (by omega) (zeros l inside)

/-- Two rows have nothing to be reflected. -/
theorem pair_formed : Returns (tridiag Real.sqrt 2 ⟨mirroredPair, ⟨2, fun _ => 0⟩, ⟨2, fun _ => 0⟩⟩)
    fun tri => tri.d.cells 0 = 0 ∧ tri.d.cells 1 = 0 ∧ tri.e.cells 1 = 1 := by
  have idle (i : Nat) (a : Buffer ℝ) : tridiagMultiply 2 i 0 a = some a := by
    refine if_neg ?_
    rw [abs_zero]
    exact not_lt.mpr fltEpsilon_pos.le
  have reduced : (downFrom (2 - 1)).foldlM (tridiagTurn Real.sqrt 2)
      ⟨mirroredPair, ⟨2, fun _ => 0⟩, ⟨2, fun _ => 0⟩⟩ =
        some ⟨mirroredPair, Buffer.set ⟨2, fun _ => 0⟩ 1 0, Buffer.set ⟨2, fun _ => 0⟩ 1 1⟩ := rfl
  apply Returns.known reduced
  apply Returns.known rfl
  apply Returns.known rfl
  have first (a d e : Buffer ℝ) (sizes : a.size = 4 ∧ d.size = 2) (zero : d.cells 0 = 0) :
      tridiagAccumulate 2 ⟨a, d, e⟩ 0 = some ⟨a.set 0 1, d.set 0 (a.cells 0), e⟩ := by
    simp [tridiagAccumulate, Buffer.read, Buffer.readFrom, Buffer.write, Buffer.writeFrom, asInt, intMax,
      sizes, zero, idle, upTo]
  have second (a d e : Buffer ℝ) (sizes : a.size = 4 ∧ d.size = 2) (zero : d.cells 1 = 0) :
      tridiagAccumulate 2 ⟨a, d, e⟩ 1 =
        some ⟨((a.set 3 1).set 2 0).set 1 0, d.set 1 (a.cells 3), e⟩ := by
    simp [tridiagAccumulate, Buffer.read, Buffer.readFrom, Buffer.write, Buffer.writeFrom, asInt, intMax,
      sizes, zero, idle, upTo, tridiagClear]
  apply Returns.known (first _ _ _ ⟨rfl, rfl⟩ rfl)
  apply Returns.known (second _ _ _ ⟨rfl, rfl⟩ rfl)
  exact Returns.done ⟨rfl, rfl, rfl⟩

theorem pair_start : ∃ tri e,
    tridiag Real.sqrt 2 ⟨mirroredPair, ⟨2, fun _ => 0⟩, ⟨2, fun _ => 0⟩⟩ = some tri ∧
    tqliEntries 2 tri.e = some e ∧ PairStart ⟨tri.d, e, tri.a⟩ := by
  obtain ⟨tri, formed, d0, d1, e1⟩ := pair_formed
  obtain ⟨_, formed', room, -, -⟩ := @tridiag_brings 2 ⟨mirroredPair, ⟨2, fun _ => 0⟩, ⟨2, fun _ => 0⟩⟩
    ⟨by decide, le_rfl, le_rfl, le_rfl⟩ Nat.two_pos
  rw [formed] at formed'
  cases formed'
  obtain ⟨e, shifted, size, -, cells⟩ := tqliEntries_returns room.e Nat.two_pos
  exact ⟨tri, e, formed, shifted, ⟨room.rows, room.d, size.symm ▸ room.e, room.a⟩, ⟨d0, d1⟩,
    (cells 0 Nat.one_lt_two).trans e1⟩

theorem eigSym_returns_pair : ∃ ev d,
    smlsMatEigSym Real.sqrt mirroredPair ⟨4, fun _ => 0⟩ ⟨2, fun _ => 0⟩ 2 = some (ev, d) ∧
    (ev.matrix 2)ᵀ * ev.matrix 2 = 1 ∧
    mirroredPair.matrix 2 * ev.matrix 2 = ev.matrix 2 * Matrix.diagonal (d.vector 2) := by
  have symmetric : (mirroredPair.matrix 2)ᵀ = mirroredPair.matrix 2 := by
    ext r c
    fin_cases r <;> fin_cases c <;> rfl
  obtain ⟨state, arrays, called, orthogonal, ends⟩ :=
    @eigSym_returns 2 mirroredPair ⟨4, fun _ => 0⟩ ⟨2, fun _ => 0⟩ Nat.two_pos (by decide)
      ⟨le_rfl, le_rfl, le_rfl⟩ symmetric
  have copy : Buffer.copy ⟨4, fun _ => 0⟩ mirroredPair (2 * 2) = some mirroredPair := by
    refine (if_pos ⟨le_rfl, le_rfl⟩).trans (congrArg some ?_)
    rw [mirroredPair]
    congr 1
    funext i
    grind
  have clear : Buffer.clear (⟨2, fun _ => 0⟩ : Buffer ℝ) 2 = some ⟨2, fun _ => 0⟩ := by
    simp [Buffer.clear]
  obtain ⟨tri, e, formed, shifted, start⟩ := pair_start
  refine ⟨state.z, state.d, called, orthogonal, ?_⟩
  rcases ends with ⟨_, _, _, _, copied, cleared, formed', shifted', broken⟩ | close
  · rw [copy] at copied
    cases copied
    rw [clear] at cleared
    cases cleared
    rw [formed] at formed'
    cases formed'
    rw [shifted] at shifted'
    cases shifted'
    exact absurd broken start.unbroken
  · obtain ⟨final, ran, zeros⟩ := start.rows
    have same : final = state := by
      simp only [eigSymArrays, copy, clear, formed, tqli, shifted, ran, Option.bind_eq_bind,
        Option.bind_some] at arrays
      exact Option.some.inj arrays
    have none : ∑ t ∈ Finset.range 2, √2 * |state.e.cells t| = 0 := by
      refine Finset.sum_eq_zero fun t member => ?_
      rw [← same, zeros t (Finset.mem_range.mp member), abs_zero, mul_zero]
    rw [none, norm_le_zero_iff, sub_eq_zero] at close
    exact close

end

end Simuless.Linalg
