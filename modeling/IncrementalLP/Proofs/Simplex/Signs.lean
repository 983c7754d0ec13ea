import IncrementalLP.Proofs.Simplex.Certificate
import IncrementalLP.Simplex.Dual
/-!
# Signs of artificial columns

The dual method negates artificial columns. Such a change of signs keeps bases regular, keeps
their prices where artificial columns are free of cost, and keeps the feasible points.
-/
namespace IncrementalLP.Program

open Matrix

variable {m n : ℕ}

/-- The second program is the first with the columns scaled by signs; only barred columns change. -/
structure SignChange (p q : Program ℚ m n) (ε : Fin n → ℚ) : Prop where
  rhs : q.rhs = p.rhs
  cost : q.cost = p.cost
  barred : q.barred = p.barred
  unit : ∀ j, ε j * ε j = 1
  fixed : ∀ j, p.barred.get j = false → ε j = 1
  column : ∀ i j, q.matrix i j = ε j * p.matrix i j
  sign : ∀ j, q.signs.get j = ε j * p.signs.get j

/-- Barred columns have no cost. -/
def Costless (p : Program ℚ m n) : Prop := ∀ j, p.barred.get j = true → p.cost.get j = 0

namespace SignChange

variable {p q r : Program ℚ m n} {ε δ : Fin n → ℚ} {β : Basis m n}

theorem refl (p : Program ℚ m n) : SignChange p p 1 where
  rhs := rfl
  cost := rfl
  barred := rfl
  unit _ := one_mul 1
  fixed _ _ := rfl
  column _ _ := (one_mul _).symm
  sign _ := (one_mul _).symm

theorem trans (h₁ : SignChange p q ε) (h₂ : SignChange q r δ) : SignChange p r (δ * ε) where
  rhs := h₂.rhs.trans h₁.rhs
  cost := h₂.cost.trans h₁.cost
  barred := h₂.barred.trans h₁.barred
  unit j := by
    rw [Pi.mul_apply, mul_mul_mul_comm, h₁.unit, h₂.unit, one_mul]
  fixed j hj := by
    rw [Pi.mul_apply, h₁.fixed j hj, h₂.fixed j (by rw [h₁.barred]; exact hj), one_mul]
  column i j := by
    rw [h₂.column, h₁.column, Pi.mul_apply, mul_assoc]
  sign j := by
    rw [h₂.sign, h₁.sign, Pi.mul_apply, mul_assoc]

theorem symm (h : SignChange p q ε) : SignChange q p ε where
  rhs := h.rhs.symm
  cost := h.cost.symm
  barred := h.barred.symm
  unit := h.unit
  fixed j hj := h.fixed j (by rw [← h.barred]; exact hj)
  column i j := by
    rw [h.column, ← mul_assoc, h.unit, one_mul]
  sign j := by
    rw [h.sign, ← mul_assoc, h.unit, one_mul]

theorem costless (h : SignChange p q ε) (hp : p.Costless) : q.Costless := by
  intro j hj
  rw [h.cost]
  exact hp j (by rw [← h.barred]; exact hj)

private theorem mulVec (h : SignChange p q ε) (x : Fin n → ℚ) :
    q.matrix *ᵥ x = p.matrix *ᵥ (ε * x) := by
  funext i
  rw [Matrix.mulVec, Matrix.mulVec, dotProduct, dotProduct]
  apply Finset.sum_congr rfl
  intro j _
  rw [h.column, Pi.mul_apply]
  ring

theorem regular (h : SignChange p q ε) (hβ : p.Regular β) : q.Regular β := by
  have hmatrix : q.basisMatrix β = of fun i k => ε (β.get k) * p.basisMatrix β i k := by
    ext i k
    exact h.column i (β.get k)
  unfold Regular
  rw [hmatrix, det_mul_row]
  refine mul_ne_zero (Finset.prod_ne_zero_iff.mpr fun k _ => ?_) hβ
  exact left_ne_zero_of_mul_eq_one (h.unit _)

theorem point (h : SignChange p q ε) (hβ : p.Regular β) : q.point β = ε * p.point β := by
  symm
  apply (h.regular hβ).eq_point
  · intro j hj
    rw [Pi.mul_apply, carries_point p β j hj, mul_zero]
  · have hsq : ε * (ε * p.point β) = p.point β := by
      funext j
      rw [Pi.mul_apply, Pi.mul_apply, ← mul_assoc, h.unit, one_mul]
    rw [h.mulVec, hsq, matrix_mulVec_point hβ, h.rhs]

theorem basicValues (h : SignChange p q ε) (hβ : p.Regular β) (k : Fin m) :
    (q.basicValues β).get k = ε (β.get k) * (p.basicValues β).get k := by
  rw [← point_get (h.regular hβ), ← point_get hβ, h.point hβ, Pi.mul_apply]

theorem surplus (h : SignChange p q ε) (y : Fin m → ℚ) {j : Fin n}
    (hj : p.barred.get j = false) : q.surplus y j = p.surplus y j := by
  rw [surplus_apply, surplus_apply, h.cost]
  congr 1
  apply Finset.sum_congr rfl
  intro i _
  have hcol := h.column i j
  rw [h.fixed j hj, one_mul] at hcol
  exact congrArg (y i * ·) hcol

private theorem surplus_barred (h : SignChange p q ε) (hp : p.Costless) (y : Fin m → ℚ) {j : Fin n}
    (hj : p.barred.get j = true) : q.surplus y j = ε j * p.surplus y j := by
  have hdot : y ⬝ᵥ (q.columns.get j).get = ε j * (y ⬝ᵥ (p.columns.get j).get) := by
    rw [dotProduct, dotProduct, Finset.mul_sum]
    apply Finset.sum_congr rfl
    intro i _
    have hcol : (q.columns.get j).get i = ε j * (p.columns.get j).get i := h.column i j
    rw [hcol]
    ring
  rw [surplus_apply, surplus_apply, hdot, h.cost, hp j hj]
  ring

theorem prices (h : SignChange p q ε) (hp : p.Costless) (hβ : p.Regular β) :
    (q.prices β).get = (p.prices β).get := by
  symm
  apply (h.regular hβ).eq_prices
  intro k
  cases hk : p.barred.get (β.get k) with
  | false => rw [h.surplus _ hk, surplus_prices_get hβ]
  | true => rw [h.surplus_barred hp _ hk, surplus_prices_get hβ, mul_zero]

theorem priced (h : SignChange p q ε) {y : Fin m → ℚ} (hy : p.Priced y) : q.Priced y := by
  intro j hj
  rw [h.barred] at hj
  rw [h.surplus y hj]
  exact hy j hj

theorem feasible (h : SignChange p q ε) {x : Fin n → ℚ} (hx : p.Feasible x) : q.Feasible x where
  equations := by
    have hfixed : ε * x = x := by
      funext j
      rw [Pi.mul_apply]
      cases hj : p.barred.get j with
      | true => rw [hx.barred j hj, mul_zero]
      | false => rw [h.fixed j hj, one_mul]
    rw [h.mulVec, hfixed, hx.equations, h.rhs]
  nonneg := hx.nonneg
  barred j hj := hx.barred j (by rw [← h.barred]; exact hj)

theorem objective (h : SignChange p q ε) (x : Fin n → ℚ) : q.objective x = p.objective x := by
  rw [Program.objective, Program.objective, h.cost]

end SignChange

variable {p : Program ℚ m n}

private theorem matrix_flip (p : Program ℚ m n) (j i : Fin n) (k : Fin m) :
    (p.flip j).matrix k i = if i = j then -p.matrix k i else p.matrix k i := by
  by_cases hij : i = j
  · subst hij
    rw [if_pos rfl]
    simp [matrix, flip, Vector.get_eq_getElem]
  · rw [if_neg hij]
    simp [matrix, flip, Vector.get_eq_getElem, Vector.getElem_set, Fin.val_ne_of_ne (Ne.symm hij)]

private theorem signs_flip (p : Program ℚ m n) (j i : Fin n) :
    (p.flip j).signs.get i = if i = j then -p.signs.get i else p.signs.get i := by
  by_cases hij : i = j
  · subst hij
    rw [if_pos rfl]
    simp [flip, Vector.get_eq_getElem]
  · rw [if_neg hij]
    simp [flip, Vector.get_eq_getElem, Fin.val_ne_of_ne (Ne.symm hij)]

private theorem signChange_flip {j : Fin n} (hj : p.barred.get j = true) :
    SignChange p (p.flip j) (fun i => if i = j then -1 else 1) where
  rhs := rfl
  cost := rfl
  barred := rfl
  unit i := by split <;> norm_num
  fixed i hi := by
    rw [if_neg]
    rintro rfl
    rw [hj] at hi
    cases hi
  column k i := by
    rw [matrix_flip]
    split
    · rw [neg_one_mul]
    · rw [one_mul]
  sign i := by
    rw [signs_flip]
    split
    · rw [neg_one_mul]
    · rw [one_mul]

private def flipAt (t : ℚ) (β : Basis m n) (values : Vector ℚ m) (q : Program ℚ m n)
    (k : Fin m) : Program ℚ m n :=
  if q.barred.get (β.get k) && decide (t < values.get k) then q.flip (β.get k) else q

/-- The signs after the positions of a list have been visited. -/
private def listSigns (t : ℚ) (p : Program ℚ m n) (β : Basis m n) (values : Vector ℚ m)
    (l : List (Fin m)) (j : Fin n) : ℚ :=
  if ∃ k ∈ l, β.get k = j ∧ p.barred.get j = true ∧ t < values.get k then -1 else 1

private theorem listSigns_congr {t : ℚ} {q : Program ℚ m n} {β : Basis m n}
    {values : Vector ℚ m} (h : q.barred = p.barred) (l : List (Fin m)) :
    listSigns t q β values l = listSigns t p β values l := by
  funext j
  simp only [listSigns, h]

private theorem listSigns_cons_of_flip {t : ℚ} {β : Basis m n} (hβ : Function.Injective β.get)
    {values : Vector ℚ m} {k : Fin m} {l : List (Fin m)} (hk : k ∉ l)
    (hbarred : p.barred.get (β.get k) = true) (hlarge : t < values.get k) :
    listSigns t p β values (k :: l) =
      listSigns t p β values l * fun i => if i = β.get k then -1 else 1 := by
  funext j
  rw [Pi.mul_apply]
  by_cases hj : j = β.get k
  · have hnot : ¬ ∃ i ∈ l, β.get i = j ∧ p.barred.get j = true ∧ t < values.get i := by
      rintro ⟨i, hi, hij, -⟩
      exact hk (hβ (hij.trans hj) ▸ hi)
    rw [listSigns, listSigns, if_neg hnot, if_pos hj,
      if_pos ⟨k, List.mem_cons_self, hj.symm, hj ▸ hbarred, hlarge⟩, one_mul]
  · rw [if_neg hj, mul_one, listSigns, listSigns]
    have hiff : (∃ i ∈ k :: l, β.get i = j ∧ p.barred.get j = true ∧ t < values.get i) ↔
        ∃ i ∈ l, β.get i = j ∧ p.barred.get j = true ∧ t < values.get i := by
      simp only [List.mem_cons, exists_eq_or_imp]
      exact or_iff_right fun h => hj h.1.symm
    simp only [hiff]

private theorem listSigns_cons_of_not_flip {t : ℚ} {β : Basis m n} {values : Vector ℚ m}
    {k : Fin m} {l : List (Fin m)} (hflip : ¬ (p.barred.get (β.get k) = true ∧ t < values.get k)) :
    listSigns t p β values (k :: l) = listSigns t p β values l := by
  funext j
  have hiff : (∃ i ∈ k :: l, β.get i = j ∧ p.barred.get j = true ∧ t < values.get i) ↔
      ∃ i ∈ l, β.get i = j ∧ p.barred.get j = true ∧ t < values.get i := by
    simp only [List.mem_cons, exists_eq_or_imp]
    refine or_iff_right fun h => hflip ⟨?_, h.2.2⟩
    rw [h.1]
    exact h.2.1
  simp only [listSigns, hiff]

private theorem signChange_foldl {t : ℚ} {β : Basis m n} (hβ : Function.Injective β.get)
    (values : Vector ℚ m) (l : List (Fin m)) (hl : l.Nodup) (p : Program ℚ m n) :
    SignChange p (l.foldl (flipAt t β values) p) (listSigns t p β values l) := by
  induction l generalizing p with
  | nil =>
      have hone : listSigns t p β values [] = 1 := by
        funext j
        simp [listSigns]
      rw [hone]
      exact .refl p
  | cons k l ih =>
      obtain ⟨hk, hl⟩ := List.nodup_cons.mp hl
      rw [List.foldl_cons]
      have hrest := ih hl (flipAt t β values p k)
      have hbarred : (flipAt t β values p k).barred = p.barred := by
        unfold flipAt
        split <;> rfl
      rw [listSigns_congr hbarred] at hrest
      by_cases hflip : p.barred.get (β.get k) = true ∧ t < values.get k
      · have hstep : flipAt t β values p k = p.flip (β.get k) := by
          rw [flipAt, if_pos (by simp [hflip.1, hflip.2])]
        rw [hstep] at hrest ⊢
        rw [listSigns_cons_of_flip hβ hk hflip.1 hflip.2]
        exact (signChange_flip hflip.1).trans hrest
      · have hstep : flipAt t β values p k = p := by
          rw [flipAt, if_neg]
          simpa using hflip
        rw [hstep] at hrest ⊢
        rw [listSigns_cons_of_not_flip hflip]
        exact hrest

theorem signChange_flipBasic {t : ℚ} {β : Basis m n} (hβ : Function.Injective β.get)
    (values : Vector ℚ m) :
    ∃ ε, SignChange p (p.flipBasic t β values) ε ∧
      ∀ k, p.barred.get (β.get k) = true →
        ε (β.get k) = if t < values.get k then -1 else 1 := by
  refine ⟨_, signChange_foldl hβ values _ (List.nodup_finRange m) p, ?_⟩
  intro k hk
  rw [listSigns]
  have hiff : (∃ i ∈ List.finRange m, β.get i = β.get k ∧ p.barred.get (β.get k) = true ∧
      t < values.get i) ↔ t < values.get k := by
    constructor
    · rintro ⟨i, -, hik, -, hlt⟩
      rwa [hβ hik] at hlt
    · intro hlt
      exact ⟨k, List.mem_finRange k, rfl, hk, hlt⟩
  simp only [hiff]

end IncrementalLP.Program
