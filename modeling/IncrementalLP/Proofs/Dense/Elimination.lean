import IncrementalLP.Proofs.Number.Exact
import IncrementalLP.Dense.LeastSquares
/-!
# Elimination solves regular systems

On rationals, what elimination answers satisfies every equation, and it answers whenever only the
zero vector annihilates all equations.
-/
namespace IncrementalLP.Dense

open Matrix

namespace Equation

variable {k : ℕ}

def Holds (e : Equation ℚ k) (v : Fin k → ℚ) : Prop := e.coefficients.get ⬝ᵥ v = e.rhs

def Vanishes (e : Equation ℚ k) (v : Fin k → ℚ) : Prop := e.coefficients.get ⬝ᵥ v = 0

private theorem coefficients_dot_cons (e : Equation ℚ (k + 1)) (x : ℚ) (v : Fin k → ℚ) :
    e.coefficients.get ⬝ᵥ (Fin.cons x v : Fin (k + 1) → ℚ) = e.head * x + e.tail.get ⬝ᵥ v := by
  simp [dotProduct, Fin.sum_univ_succ, head, tail]

private theorem reduce_coefficients_dot (p e : Equation ℚ (k + 1)) (v : Fin k → ℚ) :
    (p.reduce e).coefficients.get ⬝ᵥ v =
      e.tail.get ⬝ᵥ v - e.head / p.head * (p.tail.get ⬝ᵥ v) := by
  simp only [reduce, dotProduct, Vector.get_ofFn, Finset.mul_sum, ← Finset.sum_sub_distrib]
  apply Finset.sum_congr rfl
  intro j _
  ring

private theorem solveHead_mul {p : Equation ℚ (k + 1)} (hp : p.head ≠ 0) (v : Vector ℚ k) :
    p.head * p.solveHead v = p.rhs - p.tail.get ⬝ᵥ v.get := by
  rw [solveHead, dot_eq, mul_div_cancel₀ _ hp]

end Equation

variable {k : ℕ}

private theorem get_cons (x : ℚ) (v : Vector ℚ k) : (cons x v).get = Fin.cons x v.get := by
  funext i
  simp only [cons, Vector.get_ofFn]
  rfl

private theorem pivotOf_eq_none {l : List (Equation ℚ (k + 1))} (h : pivotOf l = none) :
    l = [] := by
  cases l with
  | nil => rfl
  | cons e rest =>
      rw [pivotOf] at h
      split at h
      · cases h
      · split at h <;> cases h

private theorem pivotOf_perm {l others : List (Equation ℚ (k + 1))} {p : Equation ℚ (k + 1)}
    (h : pivotOf l = some (p, others)) : l.Perm (p :: others) := by
  induction l generalizing p others with
  | nil => cases h
  | cons e rest ih =>
      rw [pivotOf] at h
      split at h
      · next hnone =>
        cases h
        rw [pivotOf_eq_none hnone]
      · next q others' hsome =>
        split at h
        · cases h
          exact ((ih hsome).cons e).trans (List.Perm.swap _ _ _)
        · cases h
          exact List.Perm.refl _

private theorem pivotOf_magnitude {l others : List (Equation ℚ (k + 1))}
    {p : Equation ℚ (k + 1)} (h : pivotOf l = some (p, others)) :
    ∀ e ∈ l, |e.head| ≤ |p.head| := by
  induction l generalizing p others with
  | nil => cases h
  | cons e rest ih =>
      rw [pivotOf] at h
      split at h
      · next hnone =>
        cases h
        rw [pivotOf_eq_none hnone]
        simp
      · next q others' hsome =>
        have hq := ih hsome
        simp only [Scalar.magnitude_eq_abs] at h
        split at h
        · next hlt =>
          cases h
          intro a ha
          rcases List.mem_cons.mp ha with rfl | ha
          · exact hlt.le
          · exact hq a ha
        · next hle =>
          cases h
          intro a ha
          rcases List.mem_cons.mp ha with rfl | ha
          · exact le_rfl
          · exact (hq a ha).trans (not_lt.mp hle)

private theorem holds_of_eliminate {l : List (Equation ℚ k)} (hlen : l.length = k) {v : Vector ℚ k}
    (h : eliminate k l = some v) : ∀ e ∈ l, e.Holds v.get := by
  induction k with
  | zero =>
      rw [List.length_eq_zero_iff.mp hlen]
      simp
  | succ k ih =>
      rw [eliminate] at h
      split at h
      · cases h
      · next p others hpivot =>
        split at h
        · cases h
        · next hhead =>
          obtain ⟨w, hw, rfl⟩ := Option.map_eq_some_iff.mp h
          have hp : p.head ≠ 0 := by simpa using hhead
          have hperm := pivotOf_perm hpivot
          have hothers : (others.map p.reduce).length = k := by
            simpa [hlen] using hperm.length_eq.symm
          have hrest := ih hothers hw
          intro e he
          unfold Equation.Holds
          rw [get_cons, Equation.coefficients_dot_cons]
          rcases List.mem_cons.mp (hperm.mem_iff.mp he) with rfl | he
          · rw [Equation.solveHead_mul hp]
            ring
          · have hred := hrest _ (List.mem_map_of_mem he)
            unfold Equation.Holds at hred
            rw [Equation.reduce_coefficients_dot] at hred
            have hx := Equation.solveHead_mul hp w
            have hsolve : p.solveHead w = (p.rhs - p.tail.get ⬝ᵥ w.get) / p.head := by
              rw [eq_div_iff hp, mul_comm, hx]
            have hrhs : (p.reduce e).rhs = e.rhs - e.head / p.head * p.rhs := rfl
            rw [hrhs] at hred
            rw [hsolve]
            linear_combination hred

/-- Elimination answers if only the zero vector annihilates all equations. -/
theorem eliminate_isSome {l : List (Equation ℚ k)} (hlen : l.length = k)
    (hker : ∀ v : Fin k → ℚ, (∀ e ∈ l, e.Vanishes v) → v = 0) :
    ∃ v, eliminate k l = some v := by
  induction k with
  | zero => exact ⟨#v[], rfl⟩
  | succ k ih =>
      rw [eliminate]
      split
      · next hnone =>
        rw [pivotOf_eq_none hnone] at hlen
        cases hlen
      · next p others hpivot =>
        have hperm := pivotOf_perm hpivot
        have hp : p.head ≠ 0 := by
          intro hzero
          have hfirst := hker (Fin.cons 1 0) (by
            intro e he
            have hle := pivotOf_magnitude hpivot e he
            rw [hzero, abs_zero] at hle
            have hhead : e.head = 0 := abs_nonpos_iff.mp hle
            unfold Equation.Vanishes
            rw [Equation.coefficients_dot_cons, hhead, dotProduct_zero]
            ring)
          have := congrFun hfirst 0
          simp at this
        have hothers : (others.map p.reduce).length = k := by
          simpa [hlen] using hperm.length_eq.symm
        obtain ⟨w, hw⟩ := ih hothers (by
          intro v hv
          -- a vector that annihilates the reduced equations extends to all of them
          have hext := hker (Fin.cons (-(p.tail.get ⬝ᵥ v) / p.head) v) (by
            intro e he
            unfold Equation.Vanishes
            rw [Equation.coefficients_dot_cons]
            rcases List.mem_cons.mp (hperm.mem_iff.mp he) with rfl | he
            · rw [mul_div_cancel₀ _ hp]
              ring
            · have hred := hv _ (List.mem_map_of_mem he)
              unfold Equation.Vanishes at hred
              rw [Equation.reduce_coefficients_dot] at hred
              linear_combination hred)
          funext j
          have := congrFun hext j.succ
          simpa using this)
        rw [if_neg (by simpa using hp), hw]
        exact ⟨_, rfl⟩

def toMatrix {m : ℕ} (rows : Vector (Vector ℚ m) m) : Matrix (Fin m) (Fin m) ℚ :=
  .of fun i j => (rows.get i).get j

/-- Elimination answers whatever the right-hand side is, so that the least-squares solution of the
system is never asked for. -/
def Eliminable {m : ℕ} (rows : Vector (Vector ℚ m) m) : Prop :=
  ∀ rhs : Vector ℚ m,
    (eliminate m ((List.finRange m).map fun i => ⟨rows.get i, rhs.get i⟩)).isSome = true

theorem eliminable_of_det {m : ℕ} {rows : Vector (Vector ℚ m) m}
    (hdet : (toMatrix rows).det ≠ 0) : Eliminable rows := by
  intro rhs
  rw [Option.isSome_iff_exists]
  apply eliminate_isSome
  · rw [List.length_map, List.length_finRange]
  · intro v hv
    apply Matrix.eq_zero_of_mulVec_eq_zero hdet
    funext i
    exact hv _ (List.mem_map_of_mem (List.mem_finRange i))

/-- A regular square system is solved exactly. -/
theorem toMatrix_mulVec_solve {m : ℕ} {rows : Vector (Vector ℚ m) m}
    (hdet : (toMatrix rows).det ≠ 0) (rhs : Vector ℚ m) :
    toMatrix rows *ᵥ (solve rows rhs).get = rhs.get := by
  have hlen : ((List.finRange m).map fun i =>
      (⟨rows.get i, rhs.get i⟩ : Equation ℚ m)).length = m := by simp
  obtain ⟨v, hv⟩ := Option.isSome_iff_exists.mp (eliminable_of_det hdet rhs)
  have hsolve : solve rows rhs = v := by rw [solve, hv]
  rw [hsolve]
  funext i
  exact holds_of_eliminate hlen hv _ (List.mem_map_of_mem (List.mem_finRange i))

end IncrementalLP.Dense
