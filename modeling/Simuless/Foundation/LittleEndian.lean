import Mathlib.Algebra.GroupWithZero.Nat
import Mathlib.Algebra.Ring.Int.Defs
import Mathlib.Tactic.Common

/-! Fixed-width little-endian numerals over octets.

A numeral is the list of its octets, least significant first. The two
directions are inverse to each other on numerals of one width, so a packed
record is determined by the octets it occupies.
-/

set_option autoImplicit false

namespace Simuless.Foundation

abbrev Bytes := List UInt8

/-- The `width` low-order octets of a value. -/
def littleEndian : (width value : Nat) → Bytes
  | 0, _ => []
  | width + 1, value => UInt8.ofNat value :: littleEndian width (value / 256)

def valueOf : Bytes → Nat
  | [] => 0
  | low :: high => low.toNat + 256 * valueOf high

@[simp] theorem length_littleEndian (width value : Nat) :
    (littleEndian width value).length = width := by
  induction width generalizing value with
  | zero => rfl
  | succ width ih => simp [littleEndian, ih]

theorem valueOf_lt (octets : Bytes) : valueOf octets < 256 ^ octets.length := by
  induction octets with
  | nil => simp [valueOf]
  | cons low high ih =>
    have := low.toNat_lt
    simp only [valueOf, List.length_cons, Nat.pow_succ]
    omega

theorem valueOf_littleEndian (width value : Nat) (fits : value < 256 ^ width) :
    valueOf (littleEndian width value) = value := by
  induction width generalizing value with
  | zero =>
    simp only [Nat.pow_zero] at fits
    simp only [littleEndian, valueOf]
    omega
  | succ width ih =>
    have high : value / 256 < 256 ^ width := by
      rw [Nat.div_lt_iff_lt_mul (by decide)]
      simpa only [Nat.pow_succ] using fits
    simp only [littleEndian, valueOf, ih _ high, UInt8.toNat_ofNat']
    exact Nat.mod_add_div value 256

/-- Every list of octets is the numeral of the value it denotes. -/
theorem littleEndian_valueOf (octets : Bytes) :
    littleEndian octets.length (valueOf octets) = octets := by
  induction octets with
  | nil => rfl
  | cons low high ih =>
    have bound := low.toNat_lt
    have quotient : (low.toNat + 256 * valueOf high) / 256 = valueOf high := by omega
    have remainder : UInt8.ofNat (low.toNat + 256 * valueOf high) = low := by
      apply UInt8.toNat.inj
      simp only [UInt8.toNat_ofNat']
      omega
    simp only [List.length_cons, valueOf, littleEndian, quotient, remainder, ih]

end Simuless.Foundation
