import Mathlib.Data.List.Basic
import Simuless.Runtime.Node

/-! The scalar difference equation operator.

`y[k] = (sum (b_i * x[k-i]) - sum (a_j * y[k-j])) / a0`, over two histories
that every step shifts by one sample. The histories are as long as the
coefficient arrays need: `num_order` and `den_order - 1` samples.
-/

set_option autoImplicit false

namespace Simuless.Runtime

variable {Value : Type}

def diffEqValidate [Zero Value] [BEq Value] (node : Option (Node Value)) (memory : Memory Value) :
    Option NodeErr := do
  if node.isNone then return .nullPtr
  let node ← node
  if node.param.isNone then return .paramNull
  if node.state.isNone then return .nullPtr
  let param ← node.param
  let state ← node.state
  if (node.inputs 0).isNone then return .inputMissing
  if (node.outputs 0).isNone then return .outputMissing
  if param.diffEq.num.isNone ∨ param.diffEq.den.isNone then return .paramNull
  if param.diffEq.numOrder = 0 ∨ param.diffEq.denOrder = 0 then return .paramNull
  let den ← param.diffEq.den
  if den 0 == 0 then return .paramNull
  if state.diffEq.inputHist.isNone then return .nullPtr
  if 1 < param.diffEq.denOrder ∧ state.diffEq.outputHist.isNone then return .nullPtr
  let inEdge ← node.inputs 0
  let outEdge ← node.outputs 0
  if (memory.edges inEdge).signal.isNone ∨ (memory.edges outEdge).signal.isNone then return .nullPtr
  if (memory.edges inEdge).type ≠ .float32 ∨ (memory.edges outEdge).type ≠ .float32 then
    return .shapeMismatch
  if dtypeElementCount (some (memory.edges inEdge)) ≠ 1 then return .unsurppotedShape
  if dtypeElementCount (some (memory.edges outEdge)) ≠ 1 then return .unsurppotedShape
  return .ok

def diffEqInferShape (node : Option (Node Value)) (memory : Memory Value) :
    Option (NodeErr × Memory Value) := do
  if node.isNone then return (.nullPtr, memory)
  let node ← node
  if (node.inputs 0).isNone then return (.inputMissing, memory)
  if (node.outputs 0).isNone then return (.outputMissing, memory)
  let inEdge ← node.inputs 0
  let outEdge ← node.outputs 0
  if dtypeElementCount (some (memory.edges inEdge)) ≠ 1 then return (.unsurppotedShape, memory)
  let memory ← memory.copyDescriptor outEdge inEdge
  return (.ok, memory)

/-- `for (i = last; i > 0; i--) hist[i] = hist[i - 1]`. -/
def shiftHistory (hist : Nat → Cell) : (last : Nat) → Memory Value → Memory Value
  | 0, memory => memory
  | i + 1, memory =>
      let (sample, memory) := memory.load (hist i)
      shiftHistory hist i (memory.store (hist (i + 1)) sample)

/-- The input history after the new sample. -/
def takeInput (numOrder : UInt8) (inputHist source : Nat) (memory : Memory Value) : Memory Value :=
  let memory := shiftHistory (.inputHist inputHist) (numOrder.toNat - 1) memory
  let (x, memory) := memory.load (.signal source 0)
  memory.store (.inputHist inputHist 0) x

/-- One turn of the feedforward loop: `y += num[i] * input_hist[i]`. -/
def feedforward [Add Value] [Mul Value] (num : Nat → Value) (inputHist : Nat)
    (sum : Value × Memory Value) (i : Nat) : Value × Memory Value :=
  let (sample, memory) := sum.2.load (.inputHist inputHist i)
  (sum.1 + num i * sample, memory)

/-- One turn of the feedback loop: `y -= den[i] * output_hist[i - 1]`. -/
def feedback [Sub Value] [Mul Value] (den : Nat → Value) (outputHist : Option Nat)
    (sum : Value × Memory Value) (i : Nat) : Option (Value × Memory Value) := do
  let outputHist ← outputHist
  let (sample, memory) := sum.2.load (.outputHist outputHist (i - 1))
  return (sum.1 - den i * sample, memory)

/-- The output history after the new sample, when there is one. -/
def recordOutput (denOrder : UInt8) (outputHist : Option Nat) (y : Value) (memory : Memory Value) :
    Option (Memory Value) := do
  if 1 < denOrder then
    let outputHist ← outputHist
    let memory := shiftHistory (.outputHist outputHist) (denOrder.toNat - 2) memory
    return memory.store (.outputHist outputHist 0) y
  else return memory

section
variable [Zero Value] [Add Value] [Sub Value] [Mul Value] [Div Value] [BEq Value]

def diffEqStep (node : Option (Node Value)) (memory : Memory Value) :
    Option (NodeErr × Memory Value) := do
  let ret ← diffEqValidate node memory
  if ret.code < 0 then return (ret, memory)
  let node ← node
  let param ← node.param
  let state ← node.state
  let inEdge ← node.inputs 0
  let outEdge ← node.outputs 0
  let source ← (memory.edges inEdge).signal
  let target ← (memory.edges outEdge).signal
  let inputHist ← state.diffEq.inputHist
  let num ← param.diffEq.num
  let den ← param.diffEq.den
  let memory := takeInput param.diffEq.numOrder inputHist source memory
  let sum := (List.range param.diffEq.numOrder.toNat).foldl (feedforward num inputHist) (0, memory)
  let (y, memory) ← (List.range' 1 (param.diffEq.denOrder.toNat - 1)).foldlM
    (feedback den state.diffEq.outputHist) sum
  let y := y / den 0
  let memory ← recordOutput param.diffEq.denOrder state.diffEq.outputHist y memory
  return (.ok, memory.store (.signal target 0) y)

end

/-- `if (hist != NULL) memset(hist, 0, sizeof(float) * count)`. -/
def clearHistory [Zero Value] (hist : Nat → Nat → Cell) (pointer : Option Nat) (count : Nat)
    (memory : Memory Value) : Memory Value :=
  match pointer with
  | some array => (List.range count).foldl (fun memory i => memory.store (hist array i) 0) memory
  | none => memory

def diffEqReset [Zero Value] (node : Option (Node Value)) (memory : Memory Value) :
    Option (Memory Value) := do
  if node.isNone then return memory
  let node ← node
  if node.param.isNone ∨ node.state.isNone then return memory
  let param ← node.param
  let state ← node.state
  let memory := clearHistory .inputHist state.diffEq.inputHist param.diffEq.numOrder.toNat memory
  if 1 < param.diffEq.denOrder then
    return clearHistory .outputHist state.diffEq.outputHist (param.diffEq.denOrder.toNat - 1) memory
  else return memory

/-! A step with everything in place. -/

/-- What a validated node refers to. -/
structure DiffEqWiring (Value : Type) where
  num : Nat → Value
  den : Nat → Value
  numOrder : UInt8
  denOrder : UInt8
  input : Nat
  output : Nat
  source : Nat
  target : Nat
  inputHist : Nat
  outputHist : Nat

structure DiffEqReady [Zero Value] [BEq Value] (node : Node Value) (memory : Memory Value)
    (wiring : DiffEqWiring Value) : Prop extends
    Wired node memory wiring.input wiring.output wiring.source wiring.target where
  parameter : ∃ param, node.param = some param ∧ param.diffEq =
    ⟨some wiring.num, some wiring.den, wiring.numOrder, wiring.denOrder⟩
  state : ∃ state, node.state = some state ∧ state.diffEq.inputHist = some wiring.inputHist ∧
    (1 < wiring.denOrder → state.diffEq.outputHist = some wiring.outputHist)
  orders : wiring.numOrder ≠ 0 ∧ wiring.denOrder ≠ 0
  leading : (wiring.den 0 == 0) = false
  scalar : dtypeElementCount (some (memory.edges wiring.input)) = 1 ∧
    dtypeElementCount (some (memory.edges wiring.output)) = 1

theorem diffEqValidate_ok [Zero Value] [BEq Value] {node : Node Value} {memory : Memory Value} :
    diffEqValidate (some node) memory = some .ok ↔ ∃ wiring, DiffEqReady node memory wiring := by
  constructor
  · intro valid
    simp only [diffEqValidate, Option.isNone_some, Option.bind_eq_bind, Option.bind_some,
      Option.bind_eq_some_iff, check_passed, ne_eq, reduceCtorEq, not_false_eq_true, not_or,
      Option.isNone_iff_eq_none, not_and, Bool.not_eq_true, not_not] at valid
    obtain ⟨-, -, -, param, parameter, state, stateBlock, -, -, ⟨numerator, -⟩, orders, den,
      denominator, leading, inputHist, outputHist, input, boundIn, output, boundOut,
      ⟨inSignal, outSignal⟩, ⟨inType, outType⟩, inCount, outCount, -⟩ := valid
    obtain ⟨num, numerator⟩ := Option.ne_none_iff_exists'.mp numerator
    obtain ⟨inputHist, inputs⟩ := Option.ne_none_iff_exists'.mp inputHist
    obtain ⟨source, inSignal⟩ := Option.ne_none_iff_exists'.mp inSignal
    obtain ⟨target, outSignal⟩ := Option.ne_none_iff_exists'.mp outSignal
    refine ⟨⟨num, den, param.diffEq.numOrder, param.diffEq.denOrder, input, output, source, target,
      inputHist, state.diffEq.outputHist.getD 0⟩,
      ⟨⟨boundIn, boundOut⟩, inSignal, outSignal, inType, outType⟩, ⟨param, parameter, ?_⟩,
      ⟨state, stateBlock, inputs, ?_⟩, orders, leading, inCount, outCount⟩
    · rw [← numerator, ← denominator]
    · intro feedback
      obtain ⟨array, outputs⟩ := Option.ne_none_iff_exists'.mp (outputHist feedback)
      rw [outputs]
      rfl
  · rintro ⟨wiring, ready⟩
    obtain ⟨⟨⟨boundIn, boundOut⟩, inSignal, outSignal, inType, outType⟩, ⟨param, parameter, coefficients⟩,
      ⟨state, stateBlock, inputHist, outputHist⟩, orders, leading, scalar⟩ := ready
    by_cases feedback : 1 < wiring.denOrder
    · simp [diffEqValidate, boundIn, boundOut, inSignal, outSignal, inType, outType, parameter,
        coefficients, stateBlock, inputHist, outputHist feedback, orders, leading, scalar]
    · simp [diffEqValidate, boundIn, boundOut, inSignal, outSignal, inType, outType, parameter,
        coefficients, stateBlock, inputHist, feedback, orders, leading, scalar]

section
variable [Zero Value] [Add Value] [Sub Value] [Mul Value] [Div Value] (wiring : DiffEqWiring Value)
  (memory : Memory Value)

/-- The input history after a step, newest sample first. -/
def DiffEqWiring.sample (i : Nat) : Value :=
  if i = 0 then memory.cells (.signal wiring.source 0)
  else memory.cells (.inputHist wiring.inputHist (i - 1))

/-- The feedforward term of a step. -/
def DiffEqWiring.forward : Value :=
  (List.range wiring.numOrder.toNat).foldl (fun y i => y + wiring.num i * wiring.sample memory i) 0

/-- The output of a step. -/
def DiffEqWiring.value : Value :=
  (List.range' 1 (wiring.denOrder.toNat - 1)).foldl
    (fun y i => y - wiring.den i * memory.cells (.outputHist wiring.outputHist (i - 1)))
    (wiring.forward memory) / wiring.den 0

/-- What a step does to memory. -/
structure DiffEqWiring.Stepped (after : Memory Value) : Prop where
  inputHist : ∀ i < wiring.numOrder.toNat,
    after.cells (.inputHist wiring.inputHist i) = wiring.sample memory i
  outputHist : ∀ i < wiring.denOrder.toNat - 1, after.cells (.outputHist wiring.outputHist i) =
    if i = 0 then wiring.value memory else memory.cells (.outputHist wiring.outputHist (i - 1))
  target : after.cells (.signal wiring.target 0) = wiring.value memory

/-- The accesses a step may make. -/
def DiffEqWiring.Within : Access → Prop
  | .read (.signal array i) => array = wiring.source ∧ i = 0
  | .write (.signal array i) => array = wiring.target ∧ i = 0
  | .read (.inputHist array i) | .write (.inputHist array i) =>
      array = wiring.inputHist ∧ i < wiring.numOrder.toNat
  | .read (.outputHist array i) | .write (.outputHist array i) =>
      array = wiring.outputHist ∧ i < wiring.denOrder.toNat - 1
  | .read (.accumulator _ _) | .write (.accumulator _ _) => False

end

section
variable {memory : Memory Value} {hist : Nat → Cell}

theorem shiftHistory_other {cell : Cell} (last : Nat) (other : ∀ i, 0 < i → i ≤ last → cell ≠ hist i) :
    (shiftHistory hist last memory).cells cell = memory.cells cell := by
  induction last generalizing memory with
  | zero => rfl
  | succ last ih =>
    rw [shiftHistory]
    rw [ih fun i positive below => other i positive (Nat.le_succ_of_le below)]
    exact Function.update_of_ne (other (last + 1) (Nat.succ_pos last) (Nat.le_refl _)) _ _

theorem shiftHistory_moved (injective : Function.Injective hist) (last : Nat) {i : Nat}
    (positive : 0 < i) (below : i ≤ last) :
    (shiftHistory hist last memory).cells (hist i) = memory.cells (hist (i - 1)) := by
  induction last generalizing memory with
  | zero => omega
  | succ last ih =>
    rw [shiftHistory]
    by_cases moved : i = last + 1
    · -- the loop has moved this sample and goes on below it
      subst moved
      rw [shiftHistory_other last fun j _ below same => by
        have := injective same
        omega]
      simp only [Memory.load_value, Memory.store_cells, Function.update_self, Nat.add_sub_cancel]
    · rw [ih (by omega)]
      refine Function.update_of_ne (fun same => ?_) _ _
      have := injective same
      omega

theorem shiftHistory_reaches {property : Access → Prop} (last : Nat)
    (good : ∀ i ≤ last, property (.read (hist i)) ∧ property (.write (hist i))) :
    Memory.Reaches property memory (shiftHistory hist last memory) := by
  induction last generalizing memory with
  | zero => exact .refl memory
  | succ last ih =>
    rw [shiftHistory]
    have loaded := Memory.Reaches.load memory (good last (Nat.le_succ last)).1
    have stored := Memory.Reaches.store (memory.load (hist last)).2 (memory.cells (hist last))
      (good (last + 1) (Nat.le_refl _)).2
    exact (loaded.trans stored).trans (ih fun i below => good i (Nat.le_succ_of_le below))

end

section
variable (property : Access → Prop) (memory : Memory Value) (list : List Nat) (y : Value)

theorem feedforward_sum [Add Value] [Mul Value] (num : Nat → Value) (inputHist : Nat)
    (good : ∀ i ∈ list, property (.read (.inputHist inputHist i))) :
    ∃ after, list.foldl (feedforward num inputHist) (y, memory) =
        (list.foldl (fun y i => y + num i * memory.cells (.inputHist inputHist i)) y, after) ∧
      after.cells = memory.cells ∧ Memory.Reaches property memory after := by
  induction list generalizing memory y with
  | nil => exact ⟨memory, rfl, rfl, .refl memory⟩
  | cons i rest ih =>
    obtain ⟨after, summed, cells, reaches⟩ := ih (memory.load (.inputHist inputHist i)).2
      (y + num i * memory.cells (.inputHist inputHist i))
      fun j member => good j (List.mem_cons_of_mem i member)
    refine ⟨after, summed, cells, ?_⟩
    exact (Memory.Reaches.load memory (good i List.mem_cons_self)).trans reaches

theorem feedback_sum [Sub Value] [Mul Value] (den : Nat → Value) {pointer : Option Nat}
    {outputHist : Nat} (present : ∀ i ∈ list, pointer = some outputHist)
    (good : ∀ i ∈ list, property (.read (.outputHist outputHist (i - 1)))) :
    ∃ after, list.foldlM (feedback den pointer) (y, memory) =
        some (list.foldl (fun y i => y - den i * memory.cells (.outputHist outputHist (i - 1))) y,
          after) ∧
      after.cells = memory.cells ∧ Memory.Reaches property memory after := by
  induction list generalizing memory y with
  | nil => exact ⟨memory, rfl, rfl, .refl memory⟩
  | cons i rest ih =>
    obtain ⟨after, summed, cells, reaches⟩ :=
      ih (memory.load (.outputHist outputHist (i - 1))).2
        (y - den i * memory.cells (.outputHist outputHist (i - 1)))
        (fun j member => present j (List.mem_cons_of_mem i member))
        (fun j member => good j (List.mem_cons_of_mem i member))
    have pointed := present i List.mem_cons_self
    subst pointed
    refine ⟨after, summed, cells, ?_⟩
    exact (Memory.Reaches.load memory (good i List.mem_cons_self)).trans reaches

end

theorem recordOutput_spec (property : Access → Prop) (memory : Memory Value) {denOrder : UInt8}
    {pointer : Option Nat} {outputHist : Nat} (y : Value)
    (present : 1 < denOrder → pointer = some outputHist)
    (good : ∀ i < denOrder.toNat - 1, property (.read (.outputHist outputHist i)) ∧
      property (.write (.outputHist outputHist i))) :
    ∃ after, recordOutput denOrder pointer y memory = some after ∧
      (∀ i < denOrder.toNat - 1, after.cells (.outputHist outputHist i) =
        if i = 0 then y else memory.cells (.outputHist outputHist (i - 1))) ∧
      (∀ cell, (∀ i < denOrder.toNat - 1, cell ≠ .outputHist outputHist i) →
        after.cells cell = memory.cells cell) ∧
      Memory.Reaches property memory after := by
  by_cases feedback : 1 < denOrder
  · have pointed := present feedback
    subst pointed
    have long : 1 < denOrder.toNat := UInt8.lt_iff_toNat_lt.mp feedback
    have injective : Function.Injective (Cell.outputHist outputHist) := by
      intro i j same
      injection same
    refine ⟨_, by simp only [recordOutput, if_pos feedback]; rfl, ?_, ?_, ?_⟩
    · intro i inside
      by_cases newest : i = 0
      · subst newest
        rw [if_pos rfl]
        exact Function.update_self _ _ _
      · have different : Cell.outputHist outputHist i ≠ .outputHist outputHist 0 := by
          intro same
          exact newest (injective same)
        rw [if_neg newest]
        refine (Function.update_of_ne different _ _).trans ?_
        exact shiftHistory_moved injective _ (by omega) (by omega)
    · intro cell other
      refine (Function.update_of_ne (other 0 (by omega)) _ _).trans ?_
      exact shiftHistory_other _ fun i _ inside => other i (by omega)
    · have shifted : Memory.Reaches property memory
          (shiftHistory (.outputHist outputHist) (denOrder.toNat - 2) memory) :=
        shiftHistory_reaches _ fun i below => good i (by omega)
      exact shifted.trans (.store _ _ (good 0 (by omega)).2)
  · refine ⟨memory, if_neg feedback, ?_, fun _ _ => rfl, .refl memory⟩
    intro i inside
    have short : ¬ 1 < denOrder.toNat := fun long => feedback (UInt8.lt_iff_toNat_lt.mpr long)
    omega

section
variable (wiring : DiffEqWiring Value) (memory : Memory Value)

def DiffEqWiring.take : Memory Value :=
  takeInput wiring.numOrder wiring.inputHist wiring.source memory

theorem DiffEqWiring.take_other {cell : Cell}
    (other : ∀ i, i = 0 ∨ i < wiring.numOrder.toNat → cell ≠ .inputHist wiring.inputHist i) :
    (wiring.take memory).cells cell = memory.cells cell := by
  rw [take, takeInput, Memory.store_other _ (other 0 (.inl rfl)), Memory.load_cells]
  exact shiftHistory_other _ fun i positive inside => other i (.inr (by omega))

theorem DiffEqWiring.take_inputHist {i : Nat} (inside : i < wiring.numOrder.toNat) :
    (wiring.take memory).cells (.inputHist wiring.inputHist i) = wiring.sample memory i := by
  have injective : Function.Injective (Cell.inputHist wiring.inputHist) := by
    intro i j same
    injection same
  by_cases newest : i = 0
  · subst newest
    rw [take, takeInput, Memory.store_cells, Function.update_self, Memory.load_value, sample,
      if_pos rfl]
    apply shiftHistory_other
    intro i _ _ same
    cases same
  · have different : Cell.inputHist wiring.inputHist i ≠ .inputHist wiring.inputHist 0 := by
      intro same
      exact newest (injective same)
    rw [take, takeInput, Memory.store_other _ different, Memory.load_cells, sample, if_neg newest]
    exact shiftHistory_moved injective _ (by omega) (by omega)

theorem DiffEqWiring.take_reaches (positive : 0 < wiring.numOrder.toNat) :
    Memory.Reaches wiring.Within memory (wiring.take memory) := by
  let shifted := shiftHistory (.inputHist wiring.inputHist) (wiring.numOrder.toNat - 1) memory
  have moved : Memory.Reaches wiring.Within memory shifted :=
    shiftHistory_reaches _ fun i below => ⟨⟨rfl, by omega⟩, rfl, by omega⟩
  have reads : wiring.Within (.read (.signal wiring.source 0)) := ⟨rfl, rfl⟩
  have writes : wiring.Within (.write (.inputHist wiring.inputHist 0)) := ⟨rfl, positive⟩
  exact (moved.trans (.load shifted reads)).trans (.store _ _ writes)

end

section
variable [Zero Value] [Add Value] [Sub Value] [Mul Value] [Div Value] {node : Node Value}
  {memory : Memory Value} {wiring : DiffEqWiring Value}

omit [Sub Value] [Div Value] in
theorem DiffEqWiring.forward_eq : (List.range wiring.numOrder.toNat).foldl
    (fun y i => y + wiring.num i * (wiring.take memory).cells (.inputHist wiring.inputHist i)) 0 =
      wiring.forward memory := by
  apply List.foldl_ext
  intro y i member
  rw [take_inputHist _ _ (List.mem_range.mp member)]

theorem DiffEqWiring.value_eq {added : Memory Value}
    (cells : added.cells = (wiring.take memory).cells) :
    (List.range' 1 (wiring.denOrder.toNat - 1)).foldl
      (fun y i => y - wiring.den i * added.cells (.outputHist wiring.outputHist (i - 1)))
      (wiring.forward memory) / wiring.den 0 = wiring.value memory := by
  have past (i : Nat) : added.cells (.outputHist wiring.outputHist i) =
      memory.cells (.outputHist wiring.outputHist i) := by
    rw [cells, take_other]
    intro j _ same
    cases same
  simp only [past, value]

variable [BEq Value]

/-- A step with everything in place succeeds and stays within its histories, which
are all it changes beside its output. -/
theorem diffEqStep_frame (ready : DiffEqReady node memory wiring) :
    ∃ after, diffEqStep (some node) memory = some (.ok, after) ∧ wiring.Stepped memory after ∧
      Memory.Reaches wiring.Within memory after ∧
      ∀ cell, (∀ i < wiring.numOrder.toNat, cell ≠ .inputHist wiring.inputHist i) →
        (∀ i < wiring.denOrder.toNat - 1, cell ≠ .outputHist wiring.outputHist i) →
          cell ≠ .signal wiring.target 0 → after.cells cell = memory.cells cell := by
  have valid := diffEqValidate_ok.mpr ⟨wiring, ready⟩
  obtain ⟨⟨⟨boundIn, boundOut⟩, inSignal, outSignal, -, -⟩, ⟨param, parameter, coefficients⟩,
    ⟨state, stateBlock, inputs, outputs⟩, orders, -, -⟩ := ready
  have positive : 0 < wiring.numOrder.toNat :=
    Nat.pos_of_ne_zero fun zero => orders.1 (UInt8.toNat_inj.mp zero)
  -- the feedback loop runs only if there is an output history
  have feeds : ∀ i ∈ List.range' 1 (wiring.denOrder.toNat - 1),
      1 < wiring.denOrder.toNat ∧ i - 1 < wiring.denOrder.toNat - 1 := by
    intro i member
    have inside := List.mem_range'_1.mp member
    omega
  -- the sums read both histories
  obtain ⟨added, summed, cells, reads⟩ := feedforward_sum wiring.Within (wiring.take memory)
    (List.range wiring.numOrder.toNat) 0 wiring.num wiring.inputHist
    fun i member => ⟨rfl, List.mem_range.mp member⟩
  rw [DiffEqWiring.forward_eq] at summed
  obtain ⟨fed, subtracted, cells', reads'⟩ := feedback_sum wiring.Within added
    (List.range' 1 (wiring.denOrder.toNat - 1)) (wiring.forward memory) wiring.den
    (fun i member => outputs (UInt8.lt_iff_toNat_lt.mpr (feeds i member).1))
    (fun i member => ⟨rfl, (feeds i member).2⟩)
  have value := DiffEqWiring.value_eq cells
  -- the output history takes in the result
  obtain ⟨recorded, kept, newest, others, writes⟩ := recordOutput_spec wiring.Within fed
    (wiring.value memory) outputs fun i inside => ⟨⟨rfl, inside⟩, rfl, inside⟩
  have history (cell : Cell)
      (other : ∀ i < wiring.denOrder.toNat - 1, cell ≠ .outputHist wiring.outputHist i) :
      recorded.cells cell = (wiring.take memory).cells cell := by
    rw [others cell other, cells', cells]
  refine ⟨recorded.store (.signal wiring.target 0) (wiring.value memory), ?_, ?_, ?_, ?_⟩
  · have took : takeInput wiring.numOrder wiring.inputHist wiring.source memory =
        wiring.take memory := rfl
    simp only [diffEqStep, valid, NodeErr.code, Int.lt_irrefl, if_false, Option.bind_eq_bind,
      Option.bind_some, parameter, stateBlock, boundIn, boundOut, inSignal, outSignal, inputs,
      coefficients, took, summed, subtracted, value, kept]
    rfl
  · exact {
      inputHist := by
        intro i inside
        rw [Memory.store_other _ (by intro same; cases same), history _ (by intro j _ same; cases same)]
        exact wiring.take_inputHist memory inside
      outputHist := by
        intro i inside
        rw [Memory.store_other _ (by intro same; cases same), newest i inside, cells', cells]
        rw [wiring.take_other _ (by intro j _ same; cases same)]
      target := Function.update_self _ _ _ }
  · have output : wiring.Within (.write (.signal wiring.target 0)) := ⟨rfl, rfl⟩
    exact ((((wiring.take_reaches memory positive).trans reads).trans reads').trans writes).trans
      (.store _ _ output)
  · intro cell otherInput otherOutput otherTarget
    rw [Memory.store_other _ otherTarget, history cell otherOutput, wiring.take_other]
    rintro i (rfl | inside)
    · exact otherInput 0 positive
    · exact otherInput i inside

theorem diffEqStep_ready (ready : DiffEqReady node memory wiring) :
    ∃ after, diffEqStep (some node) memory = some (.ok, after) ∧ wiring.Stepped memory after ∧
      Memory.Reaches wiring.Within memory after := by
  obtain ⟨after, stepped, kept, reaches, -⟩ := diffEqStep_frame ready
  exact ⟨after, stepped, kept, reaches⟩

theorem diffEqStep_ok {after : Memory Value} (stepped : diffEqStep (some node) memory = some (.ok, after)) :
    ∃ wiring, DiffEqReady node memory wiring := by
  simp only [diffEqStep, Option.bind_eq_bind, validated] at stepped
  exact diffEqValidate_ok.mp stepped.1

end

end Simuless.Runtime
