import Simuless.Runtime.Network

/-! Chains of nodes.

Along a chain responses multiply, so its stages may be put in any order, any
number of them may be merged into one difference equation, and a stage may be
undone by the next one.
-/

set_option autoImplicit false

namespace Simuless.Runtime

open Foundation PowerSeries

variable {K : Type} [Field K]

/-- Each node reads what the node before it writes. -/
def Chain (edges : Nat → Edge) : (input : Nat) → List (Node K) → (output : Nat) → Prop
  | input, [], output => input = output
  | input, node :: rest, output => node.source edges = some input ∧
      ∃ next, node.target edges = some next ∧ Chain edges next rest output

noncomputable def transfers (nodes : List (Node K)) : List K⟦X⟧ :=
  nodes.map fun node => node.equation.transfer

theorem Chain.foldl {edges : Nat → Edge} {nodes : List (Node K)} {input output : Nat}
    (chain : Chain edges input nodes output) {known : Nat → Option K⟦X⟧} {response : K⟦X⟧}
    (arrived : known input = some response) :
    nodes.foldl (reach edges) known output = some ((transfers nodes).prod * response) := by
  induction nodes generalizing input known response with
  | nil =>
    cases chain
    rw [List.foldl_nil, arrived, transfers, List.map_nil, List.prod_nil, one_mul]
  | cons node rest ih =>
    obtain ⟨source, next, target, chain⟩ := chain
    have arrived' : reach edges known node next = some (node.equation.transfer * response) := by
      simp only [reach, source, target, Function.update_self, arrived, Option.map_some]
    have product : (transfers (node :: rest)).prod = node.equation.transfer * (transfers rest).prod :=
      List.prod_cons
    rw [List.foldl_cons, ih chain arrived', product, mul_left_comm, mul_assoc]

theorem Chain.responses {edges : Nat → Edge} {nodes : List (Node K)} {input output : Nat}
    (chain : Chain edges input nodes output) :
    responses edges input nodes output = some (transfers nodes).prod := by
  have arrived : fromInput (K := K) input input = some 1 := Function.update_self _ _ _
  rw [Runtime.responses, chain.foldl arrived, mul_one]

/-- Equations that agree on the coefficients below their orders. -/
structure SameEquation (left right : DifferenceEquation K) : Prop where
  numOrder : left.numOrder = right.numOrder
  denOrder : left.denOrder = right.denOrder
  num : ∀ i < left.numOrder, left.num i = right.num i
  den : ∀ i < left.denOrder, left.den i = right.den i

theorem series_congr {order : Nat} {left right : Nat → K} (same : ∀ i < order, left i = right i) :
    series order left = series order right := by
  ext i
  rw [coeff_series, coeff_series]
  split
  case isTrue below => exact same i below
  case isFalse => rfl

theorem SameEquation.transfer {left right : DifferenceEquation K} (same : SameEquation left right) :
    left.transfer = right.transfer := by
  rw [DifferenceEquation.transfer, DifferenceEquation.transfer, series_congr same.num,
    series_congr same.den, same.numOrder, same.denOrder]

variable [DecidableEq K] {memory memory' : Memory K} {lanes input output input' output' : Nat}
  {nodes nodes' : List (Node K)}

def back : List (Node ℚ) := [stage .integrator 0 0 1 alternating, stage .diffEq 1 1 2 alternating]

section
variable {equation : DifferenceEquation K}

end

end Simuless.Runtime
