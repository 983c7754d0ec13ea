import IncrementalLP.Proofs.Simplex.Dual
/-!
# Larger programs

A program may hold an earlier one among its rows and columns. A dominant basis of the earlier
program is dominant again together with a column of its own for each new row.
-/
namespace IncrementalLP.Program

open Matrix

variable {m n m' n' : ℕ}

/-- The second program holds the first one; its other columns are free of cost and have no entry
in the rows of the first. -/
structure Extension (q : Program ℚ m n) (g : Program ℚ m' n') (row : Fin m → Fin m')
    (column : Fin n → Fin n') : Prop where
  row_injective : Function.Injective row
  column_injective : Function.Injective column
  entry : ∀ i j, g.matrix (row i) (column j) = q.matrix i j
  cost : ∀ j, g.cost.get (column j) = q.cost.get j
  barred : ∀ j, g.barred.get (column j) = q.barred.get j
  fresh : ∀ j, (∀ j', column j' ≠ j) → ∀ i, g.matrix (row i) j = 0
  fresh_cost : ∀ j, (∀ j', column j' ≠ j) → g.cost.get j = 0

/-- Each new row has a new column of its own. -/
structure Natural (g : Program ℚ m' n') (row : Fin m → Fin m') (column : Fin n → Fin n')
    (natural : Fin m' → Fin n') : Prop where
  fresh : ∀ i, (∀ i', row i' ≠ i) → ∀ j, column j ≠ natural i
  entry : ∀ i, (∀ i', row i' ≠ i) → g.matrix i (natural i) ≠ 0
  single : ∀ i, (∀ i', row i' ≠ i) → ∀ k, k ≠ i → g.matrix k (natural i) = 0

/-- The basis of the first program with the new columns of the new rows. -/
def Carried (β : Basis m n) (row : Fin m → Fin m') (column : Fin n → Fin n')
    (natural : Fin m' → Fin n') (γ : Basis m' n') : Prop :=
  ∀ j, j ∈ γ ↔ (∃ k, column (β.get k) = j) ∨ ∃ i, (∀ i', row i' ≠ i) ∧ natural i = j

namespace Extension

variable {q : Program ℚ m n} {g : Program ℚ m' n'} {row : Fin m → Fin m'}
  {column : Fin n → Fin n'} {natural : Fin m' → Fin n'} {β : Basis m n} {γ : Basis m' n'}

private theorem mulVec_row (h : q.Extension g row column) (x : Fin n' → ℚ) (i : Fin m) :
    (q.matrix *ᵥ (x ∘ column)) i = (g.matrix *ᵥ x) (row i) := by
  have hold : ∀ j, q.matrix i j * (x ∘ column) j = g.matrix (row i) (column j) * x (column j) := by
    intro j
    rw [h.entry, Function.comp_apply]
  have hnew : ∀ j, j ∉ Set.range column → g.matrix (row i) j * x j = 0 := by
    intro j hj
    rw [h.fresh j fun j' hj' => hj ⟨j', hj'⟩, zero_mul]
  exact Fintype.sum_of_injective column h.column_injective _ _ hnew hold

theorem regular (h : q.Extension g row column) (hnat : g.Natural row column natural)
    (hcarried : Carried β row column natural γ) (hγ : Function.Injective γ.get)
    (hβ : q.Regular β) : g.Regular γ := by
  refine regular_of_kernel hγ fun x hx hzero => ?_
  have hcarries : β.Carries (x ∘ column) := by
    intro j hj
    apply hx
    intro hmem
    rcases (hcarried _).mp hmem with ⟨k, hk⟩ | ⟨i, hi, hij⟩
    · exact hj (h.column_injective hk ▸ β.get_mem k)
    · exact hnat.fresh i hi j hij.symm
  have hold : x ∘ column = 0 := by
    have hnone : β.Carries (0 : Fin n → ℚ) := fun _ _ => rfl
    apply hβ.eq_of_mulVec_eq hcarries hnone
    funext i
    rw [h.mulVec_row, hzero, mulVec_zero]
    rfl
  funext j
  by_cases hj : j ∈ γ
  · rcases (hcarried j).mp hj with ⟨k, rfl⟩ | ⟨i, hi, rfl⟩
    · exact congrFun hold (β.get k)
    · have hrow := congrFun hzero i
      rw [Matrix.mulVec, dotProduct, Fintype.sum_eq_single (natural i)] at hrow
      · exact (mul_eq_zero.mp hrow).resolve_left (hnat.entry i hi)
      · intro j hne
        by_cases hj : j ∈ γ
        · rcases (hcarried j).mp hj with ⟨k, rfl⟩ | ⟨i', hi', rfl⟩
          · have hxk : x (column (β.get k)) = 0 := congrFun hold (β.get k)
            rw [hxk, mul_zero]
          · have hii : i ≠ i' := by
              rintro rfl
              exact hne rfl
            rw [hnat.single i' hi' i hii, zero_mul]
        · rw [hx j hj, mul_zero]
  · exact hx j hj

private theorem dot_extend (h : q.Extension g row column) (y : Fin m → ℚ) (j : Fin n') :
    Function.extend row y 0 ⬝ᵥ (g.columns.get j).get = ∑ i, y i * g.matrix (row i) j := by
  symm
  apply Fintype.sum_of_injective row h.row_injective
  · intro i hi
    rw [Function.extend_apply' _ _ _ hi, Pi.zero_apply, zero_mul]
  · intro i
    rw [h.row_injective.extend_apply]
    rfl

private theorem surplus_column (h : q.Extension g row column) (y : Fin m → ℚ) (j : Fin n) :
    g.surplus (Function.extend row y 0) (column j) = q.surplus y j := by
  rw [surplus_apply, surplus_apply, h.dot_extend, h.cost]
  congr 1
  apply Finset.sum_congr rfl
  intro i _
  rw [h.entry]
  rfl

private theorem surplus_fresh (h : q.Extension g row column) (y : Fin m → ℚ) {j : Fin n'}
    (hj : ∀ j', column j' ≠ j) : g.surplus (Function.extend row y 0) j = 0 := by
  rw [surplus_apply, h.dot_extend, h.fresh_cost j hj, zero_sub, neg_eq_zero]
  apply Finset.sum_eq_zero
  intro i _
  rw [h.fresh j hj, mul_zero]

theorem dominant (h : q.Extension g row column) (hnat : g.Natural row column natural)
    (hcarried : Carried β row column natural γ) (hγ : Function.Injective γ.get)
    (hcost : g.Costless) (hβ : q.Dominant β) : g.Dominant γ := by
  have hregular := h.regular hnat hcarried hγ hβ.regular
  have hprices : Function.extend row (q.prices β).get 0 = (g.prices γ).get := by
    apply hregular.eq_prices
    intro k
    rcases (hcarried _).mp (γ.get_mem k) with ⟨l, hl⟩ | ⟨i, hi, hij⟩
    · rw [← hl, h.surplus_column, surplus_prices_get hβ.regular]
    · rw [← hij, h.surplus_fresh _ (hnat.fresh i hi)]
  refine ⟨hregular, hcost, ?_⟩
  rw [← hprices]
  intro j hj
  by_cases hold : ∃ j', column j' = j
  · obtain ⟨j', rfl⟩ := hold
    rw [h.surplus_column]
    exact hβ.priced j' (by rw [← h.barred]; exact hj)
  · rw [h.surplus_fresh _ (not_exists.mp hold)]

end Extension

end IncrementalLP.Program
