import IncrementalLP.Proofs.Dense.Elimination
import IncrementalLP.Simplex.Program
/-!
# Regular bases

A basis is regular if its columns are independent. It then has one point, one vector of prices and
one direction for each column, and the linear systems of the simplex method find them.
-/
namespace IncrementalLP

open Matrix

variable {m n : ℕ}

theorem Basis.mem_iff {β : Basis m n} {j : Fin n} : j ∈ β ↔ ∃ k, β.get k = j := by
  rw [Vector.mem_iff_getElem]
  constructor
  · rintro ⟨k, hk, h⟩
    exact ⟨⟨k, hk⟩, h⟩
  · rintro ⟨k, h⟩
    exact ⟨k, k.isLt, h⟩

theorem Basis.get_mem (β : Basis m n) (k : Fin m) : β.get k ∈ β := Basis.mem_iff.mpr ⟨k, rfl⟩

theorem Basis.get_set (β : Basis m n) (k l : Fin m) (j : Fin n) :
    (β.set k j k.isLt).get l = if l = k then j else β.get l := by
  simp only [Vector.get_eq_getElem, Vector.getElem_set, Fin.ext_iff, eq_comm]

private theorem Basis.contains_iff {β : Basis m n} {j : Fin n} : β.contains j = true ↔ j ∈ β := by
  simp

/-- Every column outside the basis has the value zero. -/
def Basis.Carries (β : Basis m n) (x : Fin n → ℚ) : Prop := ∀ j, j ∉ β → x j = 0

theorem Basis.Carries.sum_eq {β : Basis m n} {x : Fin n → ℚ} (hx : β.Carries x)
    (hβ : Function.Injective β.get) (f : Fin n → ℚ) :
    ∑ j, f j * x j = ∑ k, f (β.get k) * x (β.get k) := by
  symm
  apply Fintype.sum_of_injective β.get hβ
  · intro j hj
    rw [hx j (fun h => hj (Basis.mem_iff.mp h)), mul_zero]
  · intro k
    rfl

namespace Dense

private theorem foldl_choose {g : Fin m → Fin n} (hg : Function.Injective g) (v : Fin m → ℚ)
    (k : Fin m) : Fin.foldl m (fun x l => if g l = g k then v l else x) 0 = v k := by
  induction m with
  | zero => exact k.elim0
  | succ m ih =>
      rw [Fin.foldl_succ_last]
      by_cases hk : Fin.last m = k
      · rw [if_pos (congrArg g hk), hk]
      · rw [if_neg fun h => hk (hg h)]
        obtain ⟨l, rfl⟩ := Fin.exists_castSucc_eq.mpr (Ne.symm hk)
        exact ih (hg.comp (Fin.castSucc_injective m)) (v ∘ Fin.castSucc) l

private theorem foldl_skip {g : Fin m → Fin n} {j : Fin n} (hg : ∀ k, g k ≠ j) (v : Fin m → ℚ) :
    Fin.foldl m (fun x l => if g l = j then v l else x) 0 = 0 := by
  induction m with
  | zero => rw [Fin.foldl_zero]
  | succ m ih =>
      rw [Fin.foldl_succ_last, if_neg (hg _)]
      exact ih (fun k => hg k.castSucc) (v ∘ Fin.castSucc)

private theorem get_scatter {β : Basis m n} (hβ : Function.Injective β.get) (v : Vector ℚ m)
    (k : Fin m) : (scatter β v).get (β.get k) = v.get k := by
  rw [scatter, Vector.get_ofFn]
  exact foldl_choose hβ v.get k

private theorem carries_scatter (β : Basis m n) (v : Vector ℚ m) : β.Carries (scatter β v).get := by
  intro j hj
  rw [scatter, Vector.get_ofFn]
  exact foldl_skip (fun k h => hj (Basis.mem_iff.mpr ⟨k, h⟩)) v.get

end Dense

namespace Program

def matrix (p : Program ℚ m n) : Matrix (Fin m) (Fin n) ℚ :=
  .of fun i j => (p.columns.get j).get i

def basisMatrix (p : Program ℚ m n) (β : Basis m n) : Matrix (Fin m) (Fin m) ℚ :=
  p.matrix.submatrix id β.get

def Regular (p : Program ℚ m n) (β : Basis m n) : Prop := (p.basisMatrix β).det ≠ 0

def objective (p : Program ℚ m n) (x : Fin n → ℚ) : ℚ := p.cost.get ⬝ᵥ x

/-- The reduced costs at given prices of the rows. -/
def surplus (p : Program ℚ m n) (y : Fin m → ℚ) : Fin n → ℚ := p.cost.get - y ᵥ* p.matrix

/-- The point at which the basic variables solve the equations and the others are zero. -/
def point (p : Program ℚ m n) (β : Basis m n) : Fin n → ℚ :=
  (Dense.scatter β (p.basicValues β)).get

variable {p : Program ℚ m n} {β : Basis m n}

theorem Regular.injective (hβ : p.Regular β) : Function.Injective β.get := by
  intro k l hkl
  by_contra hne
  refine hβ (Matrix.det_zero_of_column_eq hne fun i => ?_)
  simp only [basisMatrix, submatrix_apply, hkl]

private theorem mulVec_of_carries (hβ : Function.Injective β.get) {x : Fin n → ℚ}
    (hx : β.Carries x) :
    p.matrix *ᵥ x = p.basisMatrix β *ᵥ (x ∘ β.get) := by
  funext i
  exact hx.sum_eq hβ _

theorem Regular.eq_of_mulVec_eq (hβ : p.Regular β) {x z : Fin n → ℚ} (hx : β.Carries x)
    (hz : β.Carries z) (h : p.matrix *ᵥ x = p.matrix *ᵥ z) : x = z := by
  rw [mulVec_of_carries hβ.injective hx, mulVec_of_carries hβ.injective hz] at h
  have hbasic := Matrix.mulVec_injective_of_isUnit
    ((Matrix.isUnit_iff_isUnit_det _).mpr (isUnit_iff_ne_zero.mpr hβ)) h
  funext j
  by_cases hj : j ∈ β
  · obtain ⟨k, rfl⟩ := Basis.mem_iff.mp hj
    exact congrFun hbasic k
  · rw [hx j hj, hz j hj]

/-- A basis whose columns carry only the zero solution of the homogeneous equations is regular. -/
theorem regular_of_kernel (hβ : Function.Injective β.get)
    (hker : ∀ x : Fin n → ℚ, β.Carries x → p.matrix *ᵥ x = 0 → x = 0) : p.Regular β := by
  intro hdet
  obtain ⟨v, hv, hzero⟩ := Matrix.exists_mulVec_eq_zero_iff.mpr hdet
  apply hv
  let x := (Dense.scatter β (Vector.ofFn v)).get
  have hx : β.Carries x := Dense.carries_scatter β _
  have hxv : x ∘ β.get = v := by
    funext k
    simp only [x, Function.comp_apply, Dense.get_scatter hβ, Vector.get_ofFn]
  have hx0 : x = 0 := by
    apply hker x hx
    rw [mulVec_of_carries hβ hx, hxv, hzero]
  funext k
  have := congrFun hxv k
  rw [hx0] at this
  exact this.symm

theorem toMatrix_transpose_basic :
    Dense.toMatrix (Dense.transpose (p.basic β)) = p.basisMatrix β := by
  ext i k
  simp [Dense.toMatrix, Dense.transpose, basic, basisMatrix, matrix]

theorem toMatrix_basic : Dense.toMatrix (p.basic β) = (p.basisMatrix β)ᵀ := by
  ext k i
  simp [Dense.toMatrix, basic, basisMatrix, matrix]

theorem basisMatrix_mulVec_inBasis (hβ : p.Regular β) (v : Vector ℚ m) :
    p.basisMatrix β *ᵥ (p.inBasis β v).get = v.get := by
  have h := @Dense.toMatrix_mulVec_solve _ (Dense.transpose (p.basic β))
    (by rw [toMatrix_transpose_basic]; exact hβ) v
  rwa [toMatrix_transpose_basic] at h

private theorem solve_basic_vecMul (hβ : p.Regular β) (v : Vector ℚ m) :
    (Dense.solve (p.basic β) v).get ᵥ* p.basisMatrix β = v.get := by
  have h := @Dense.toMatrix_mulVec_solve _ (p.basic β)
    (by rw [toMatrix_basic, det_transpose]; exact hβ) v
  rwa [toMatrix_basic, mulVec_transpose] at h

theorem carries_point (p : Program ℚ m n) (β : Basis m n) : β.Carries (p.point β) :=
  Dense.carries_scatter β _

theorem point_get (hβ : p.Regular β) (k : Fin m) :
    p.point β (β.get k) = (p.basicValues β).get k := Dense.get_scatter hβ.injective _ k

theorem matrix_mulVec_point (hβ : p.Regular β) : p.matrix *ᵥ p.point β = p.rhs.get := by
  rw [mulVec_of_carries hβ.injective (carries_point p β)]
  have h : p.point β ∘ β.get = (p.basicValues β).get := funext (point_get hβ)
  rw [h]
  exact basisMatrix_mulVec_inBasis hβ p.rhs

theorem Regular.eq_point (hβ : p.Regular β) {x : Fin n → ℚ} (hx : β.Carries x)
    (h : p.matrix *ᵥ x = p.rhs.get) : x = p.point β :=
  hβ.eq_of_mulVec_eq hx (carries_point p β) (h.trans (matrix_mulVec_point hβ).symm)

theorem surplus_apply (p : Program ℚ m n) (y : Fin m → ℚ) (j : Fin n) :
    p.surplus y j = p.cost.get j - y ⬝ᵥ (p.columns.get j).get := rfl

theorem surplus_prices_get (hβ : p.Regular β) (k : Fin m) :
    p.surplus (p.prices β).get (β.get k) = 0 := by
  have h := congrFun (solve_basic_vecMul hβ (p.basicCosts β)) k
  have hcost : (p.basicCosts β).get k = p.cost.get (β.get k) := by simp [basicCosts]
  rw [hcost] at h
  rw [surplus_apply, sub_eq_zero]
  exact h.symm

theorem surplus_prices_of_mem (hβ : p.Regular β) {j : Fin n} (hj : j ∈ β) :
    p.surplus (p.prices β).get j = 0 := by
  obtain ⟨k, rfl⟩ := Basis.mem_iff.mp hj
  exact surplus_prices_get hβ k

theorem Regular.eq_prices (hβ : p.Regular β) {y : Fin m → ℚ}
    (hy : ∀ k, p.surplus y (β.get k) = 0) : y = (p.prices β).get := by
  apply Matrix.vecMul_injective_of_isUnit
    ((Matrix.isUnit_iff_isUnit_det (p.basisMatrix β)).mpr (isUnit_iff_ne_zero.mpr hβ))
  funext k
  have h₁ := sub_eq_zero.mp (hy k)
  have h₂ := sub_eq_zero.mp (surplus_prices_get hβ k)
  exact h₁.symm.trans h₂

theorem objective_eq (p : Program ℚ m n) (y : Fin m → ℚ) (x : Fin n → ℚ) :
    p.objective x = y ⬝ᵥ (p.matrix *ᵥ x) + p.surplus y ⬝ᵥ x := by
  rw [objective, surplus, sub_dotProduct, dotProduct_mulVec]
  ring

theorem get_reducedCosts (hβ : p.Regular β) (j : Fin n) :
    (p.reducedCosts 0 β (p.prices β)).get j = p.surplus (p.prices β).get j := by
  rw [reducedCosts, Vector.get_ofFn]
  split
  · next h => exact (surplus_prices_of_mem hβ (Basis.contains_iff.mp h)).symm
  · rw [Scalar.snap_zero, Dense.dot_eq, dotProduct_comm, surplus_apply]

/-- How the point moves when a column outside the basis grows by one. -/
def ray (p : Program ℚ m n) (β : Basis m n) (j : Fin n) : Fin n → ℚ :=
  Pi.single j 1 - (Dense.scatter β (p.inBasis β (p.columns.get j))).get

theorem ray_entering {j : Fin n} (hj : j ∉ β) : p.ray β j j = 1 := by
  rw [ray, Pi.sub_apply, Pi.single_eq_same, Dense.carries_scatter β _ j hj, sub_zero]

theorem ray_get (hβ : p.Regular β) {j : Fin n} (hj : j ∉ β) (k : Fin m) :
    p.ray β j (β.get k) = -(p.inBasis β (p.columns.get j)).get k := by
  have hne : β.get k ≠ j := fun h => hj (h ▸ β.get_mem k)
  rw [ray, Pi.sub_apply, Pi.single_eq_of_ne hne, Dense.get_scatter hβ.injective, zero_sub]

theorem ray_of_not_mem {i j : Fin n} (hi : i ∉ β) (hij : i ≠ j) : p.ray β j i = 0 := by
  rw [ray, Pi.sub_apply, Pi.single_eq_of_ne hij, Dense.carries_scatter β _ i hi, sub_zero]

theorem matrix_mulVec_ray (hβ : p.Regular β) (j : Fin n) : p.matrix *ᵥ p.ray β j = 0 := by
  rw [ray, mulVec_sub, sub_eq_zero,
    mulVec_of_carries hβ.injective (Dense.carries_scatter β _)]
  have h : (Dense.scatter β (p.inBasis β (p.columns.get j))).get ∘ β.get =
      (p.inBasis β (p.columns.get j)).get := funext (Dense.get_scatter hβ.injective _)
  rw [h, basisMatrix_mulVec_inBasis hβ, mulVec_single_one]
  rfl

theorem surplus_dot_ray (hβ : p.Regular β) {j : Fin n} (hj : j ∉ β) (y : Fin m → ℚ) :
    p.surplus y ⬝ᵥ p.ray β j = p.surplus (p.prices β).get j := by
  have h₁ := p.objective_eq y (p.ray β j)
  have h₂ := p.objective_eq (p.prices β).get (p.ray β j)
  rw [matrix_mulVec_ray hβ, dotProduct_zero, zero_add] at h₁ h₂
  rw [← h₁, h₂, dotProduct, Fintype.sum_eq_single j]
  · rw [ray_entering hj, mul_one]
  · intro i hij
    by_cases hi : i ∈ β
    · rw [surplus_prices_of_mem hβ hi, zero_mul]
    · rw [ray_of_not_mem hi hij, mul_zero]

/-- The multipliers of the rows that single out a basic variable. -/
def multipliers (p : Program ℚ m n) (β : Basis m n) (k : Fin m) : Fin m → ℚ :=
  (Dense.solve (p.basic β) (Dense.unit k)).get

/-- The entries of all columns in the row of a basic variable. -/
def tableauRow (p : Program ℚ m n) (β : Basis m n) (k : Fin m) : Fin n → ℚ :=
  p.multipliers β k ᵥ* p.matrix

theorem tableauRow_apply (p : Program ℚ m n) (β : Basis m n) (k : Fin m) (j : Fin n) :
    p.tableauRow β k j = p.multipliers β k ⬝ᵥ (p.columns.get j).get := rfl

theorem tableauRow_get (hβ : p.Regular β) (k l : Fin m) :
    p.tableauRow β k (β.get l) = if l = k then 1 else 0 := by
  have h := congrFun (solve_basic_vecMul hβ (Dense.unit k)) l
  rw [Dense.get_unit, Pi.single_apply] at h
  exact h

theorem tableauRow_of_mem (hβ : p.Regular β) {k : Fin m} {j : Fin n} (hj : j ∈ β)
    (hk : j ≠ β.get k) : p.tableauRow β k j = 0 := by
  obtain ⟨l, rfl⟩ := Basis.mem_iff.mp hj
  rw [tableauRow_get hβ, if_neg fun h => hk (by rw [h])]

theorem tableauRow_dot (p : Program ℚ m n) (β : Basis m n) (k : Fin m) (x : Fin n → ℚ) :
    p.tableauRow β k ⬝ᵥ x = p.multipliers β k ⬝ᵥ (p.matrix *ᵥ x) :=
  (dotProduct_mulVec _ _ _).symm

theorem multipliers_dot_rhs (hβ : p.Regular β) (k : Fin m) :
    p.multipliers β k ⬝ᵥ p.rhs.get = (p.basicValues β).get k := by
  rw [← matrix_mulVec_point hβ, ← tableauRow_dot, dotProduct,
    (carries_point p β).sum_eq hβ.injective, Fintype.sum_eq_single k]
  · rw [tableauRow_get hβ, if_pos rfl, one_mul, point_get hβ]
  · intro l hl
    rw [tableauRow_get hβ, if_neg hl, zero_mul]

theorem tableauRow_eq_inBasis (hβ : p.Regular β) (k : Fin m) (j : Fin n) :
    p.tableauRow β k j = (p.inBasis β (p.columns.get j)).get k := by
  have hcol : (p.columns.get j).get = p.basisMatrix β *ᵥ (p.inBasis β (p.columns.get j)).get :=
    (basisMatrix_mulVec_inBasis hβ _).symm
  have hmult : p.multipliers β k ᵥ* p.basisMatrix β = Pi.single k 1 := by
    rw [multipliers, solve_basic_vecMul hβ, Dense.get_unit]
  rw [tableauRow_apply, hcol, dotProduct_mulVec, hmult, single_one_dotProduct]

private theorem basisMatrix_set (p : Program ℚ m n) (β : Basis m n) (k : Fin m) (j : Fin n) :
    p.basisMatrix (β.set k j k.isLt) = (p.basisMatrix β).updateCol k (p.columns.get j).get := by
  ext i l
  rw [basisMatrix, submatrix_apply, Basis.get_set, updateCol_apply]
  split <;> rfl

/-- A basis stays regular if a column is exchanged for one with an entry in its row. -/
theorem Regular.set (hβ : p.Regular β) {k : Fin m} {j : Fin n}
    (hpivot : (p.inBasis β (p.columns.get j)).get k ≠ 0) : p.Regular (β.set k j k.isLt) := by
  unfold Regular
  rw [basisMatrix_set, ← cramer_apply, ← basisMatrix_mulVec_inBasis hβ (p.columns.get j),
    cramer_eq_adjugate_mulVec, mulVec_mulVec, adjugate_mul, smul_mulVec, one_mulVec,
    Pi.smul_apply, smul_eq_mul]
  exact mul_ne_zero hβ hpivot

end Program

end IncrementalLP
