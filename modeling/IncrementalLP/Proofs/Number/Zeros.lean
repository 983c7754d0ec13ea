import Mathlib
import IncrementalLP.Number.Instances
/-!
# Zeros

A float has two zeros, which are equal as numbers. A sum that starts at zero keeps its first value,
except that it makes the positive zero of either of them.
-/
namespace IncrementalLP

namespace Scalar

/-- A sum that starts at zero keeps its first value, and makes the one zero of all of them. -/
class AddsZero (α : Type) [Scalar α] : Prop where
  zero_beq : ((0 : α) == 0) = true
  add_of_ne {v : α} : (v == 0) = false → 0 + v = v
  add_of_eq {v : α} : (v == 0) = true → 0 + v = 0

instance : AddsZero ℚ where
  zero_beq := rfl
  add_of_ne _ := zero_add _
  add_of_eq h := by rw [eq_of_beq h, zero_add]

end Scalar

open Float.Model

private theorem unpacked_zero_add {u : UnpackedFloat} (h : u ≠ .zero .negative) :
    UnpackedFloat.add .binary64 (.zero .positive) u = u := by
  cases u with
  | zero sign =>
      cases sign with
      | positive => rfl
      | negative => exact absurd rfl h
  | _ => rfl

private theorem unpack_negative_zero : (-0 : Float).toModel.unpack = .zero .negative :=
  @UnpackedFloat.unpack_packedZero Format.binary64 .negative

private theorem pack_unpack (v : Float) : Float.ofModel (.pack v.toModel.unpack) = v := by
  rw [← Float.toBits_inj, ← UInt64.toBitVec_inj]
  exact UnpackedFloat.pack_unpack_of_valid v.toModel.valid

private theorem float_zero_add {v : Float} (h : v ≠ -0) : 0 + v = v := by
  have hunpacked : v.toModel.unpack ≠ .zero .negative := by
    rw [← unpack_negative_zero]
    intro hzero
    exact h (by rw [← pack_unpack v, hzero, pack_unpack])
  calc
    0 + v = .ofModel (.pack (.add .binary64 (.zero .positive) v.toModel.unpack)) := rfl
    _ = .ofModel (.pack v.toModel.unpack) := by rw [unpacked_zero_add hunpacked]
    _ = v := pack_unpack v

instance : Scalar.AddsZero Float where
  zero_beq := by decide
  add_of_ne h := by
    refine float_zero_add ?_
    rintro rfl
    exact absurd h (by decide)
  add_of_eq h := by
    obtain ⟨-, -, rfl | ⟨rfl, -⟩ | ⟨rfl, -⟩⟩ := Float.beq_iff_ne_nan_and_eq.mp h <;> decide

end IncrementalLP
