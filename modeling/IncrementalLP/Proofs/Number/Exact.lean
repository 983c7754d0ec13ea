import Mathlib
import IncrementalLP.Dense.Basic
import IncrementalLP.Number.Instances
/-!
# Exact arithmetic

On rationals a tolerance of zero changes nothing, and the sums of the library are finite sums.
-/
namespace IncrementalLP

namespace Scalar

theorem magnitude_eq_abs (x : ℚ) : magnitude x = |x| := by
  unfold magnitude
  split
  · next h => exact (abs_of_neg h).symm
  · next h => exact (abs_of_nonneg (not_lt.mp h)).symm

@[simp] theorem snap_zero (x : ℚ) : snap (0 : ℚ) x = x := by
  unfold snap
  rw [magnitude_eq_abs, if_neg (not_lt.mpr (abs_nonneg x))]

theorem ne_zero_of_snap_ne_zero {t x : ℚ} (h : snap t x ≠ 0) : x ≠ 0 := by
  intro hx
  apply h
  subst x
  unfold snap
  split <;> rfl

theorem abs_snap_sub_lt {t : ℚ} (ht : 0 < t) (x : ℚ) : |snap t x - x| < t := by
  unfold snap
  rw [magnitude_eq_abs]
  split
  · next h => rwa [zero_sub, abs_neg]
  · rwa [sub_self, abs_zero]

end Scalar

namespace Dense

theorem sum_eq {n : ℕ} (f : Fin n → ℚ) : Dense.sum n f = ∑ i, f i := by
  unfold Dense.sum
  induction n with
  | zero => rw [Fin.foldl_zero]; rfl
  | succ n ih =>
      rw [Fin.foldl_succ_last, Fin.sum_univ_castSucc, ih]

theorem dot_eq {n : ℕ} (u v : Vector ℚ n) : dot u v = u.get ⬝ᵥ v.get := sum_eq _

@[simp] theorem get_unit {n : ℕ} (k : Fin n) : (unit k : Vector ℚ n).get = Pi.single k 1 := by
  funext i
  simp only [unit, Vector.get_ofFn, Pi.single_apply]

@[simp] theorem snap_zero {n : ℕ} (v : Vector ℚ n) : snap (0 : ℚ) v = v := by
  simp [snap, funext Scalar.snap_zero]

end Dense

end IncrementalLP
