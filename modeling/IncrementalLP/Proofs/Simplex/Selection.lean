import IncrementalLP.Proofs.Simplex.Basis
import IncrementalLP.Simplex.Dual
/-!
# Selections

The rules by which columns and positions are selected: none of the candidates is better than the
one that is taken. Under the rule of the first column ties go to the least column.
-/
namespace IncrementalLP

variable {m n : ℕ}

namespace Dense

section

variable {β : Type} {better : β → β → Bool}

private theorem foldl_best_mem (l : List β) (b : β) :
    l.foldl (fun best c => if better c best then c else best) b ∈ b :: l := by
  induction l generalizing b with
  | nil => exact List.mem_cons_self
  | cons a l ih =>
      rw [List.foldl_cons]
      have h := ih (if better a b then a else b)
      by_cases hab : better a b = true <;> simp only [hab, if_true, if_false, List.mem_cons,
        Bool.false_eq_true] at h ⊢ <;> tauto

private theorem foldl_best_improves
    (htrans : ∀ a b c, better a b = true → better b c = true → better a c = true)
    (l : List β) (b : β) :
    l.foldl (fun best c => if better c best then c else best) b = b ∨
      better (l.foldl (fun best c => if better c best then c else best) b) b = true := by
  induction l generalizing b with
  | nil => exact Or.inl rfl
  | cons a l ih =>
      rw [List.foldl_cons]
      by_cases hab : better a b = true
      · rw [if_pos hab]
        rcases ih a with h | h
        · rw [h]
          exact Or.inr hab
        · exact Or.inr (htrans _ _ _ h hab)
      · rw [if_neg hab]
        exact ih b

private theorem foldl_best_unbeaten
    (htrans : ∀ a b c, better a b = true → better b c = true → better a c = true)
    (hirrefl : ∀ a, better a a = false) (l : List β) (b : β) :
    ∀ c ∈ b :: l,
      better c (l.foldl (fun best c => if better c best then c else best) b) = false := by
  induction l generalizing b with
  | nil => simp [hirrefl]
  | cons a l ih =>
      intro c hc
      rw [List.foldl_cons]
      by_contra hbeaten
      rw [Bool.not_eq_false] at hbeaten
      by_cases hab : better a b = true
      · rw [if_pos hab] at hbeaten
        have himp := foldl_best_improves htrans l a
        rcases List.mem_cons.mp hc with rfl | hc
        · have hca : better c a = true := by
            rcases himp with h | h
            · rwa [h] at hbeaten
            · exact htrans _ _ _ hbeaten h
          have := htrans _ _ _ hca hab
          rw [hirrefl] at this
          cases this
        · rw [ih a c hc] at hbeaten
          cases hbeaten
      · rw [if_neg hab] at hbeaten
        have himp := foldl_best_improves htrans l b
        rcases List.mem_cons.mp hc with rfl | hc
        · rw [ih c c List.mem_cons_self] at hbeaten
          cases hbeaten
        · rcases List.mem_cons.mp hc with rfl | hc
          · rcases himp with h | h
            · rw [h] at hbeaten
              exact hab hbeaten
            · exact hab (htrans _ _ _ hbeaten h)
          · rw [ih b c (List.mem_cons_of_mem _ hc)] at hbeaten
            cases hbeaten

theorem firstBest_mem {l : List β} {b : β} (h : firstBest better l = some b) : b ∈ l := by
  cases l with
  | nil => cases h
  | cons a l =>
      cases h
      exact foldl_best_mem l a

theorem firstBest_unbeaten {l : List β} {b : β} (h : firstBest better l = some b)
    (htrans : ∀ a b c, better a b = true → better b c = true → better a c = true)
    (hirrefl : ∀ a, better a a = false) : ∀ c ∈ l, better c b = false := by
  cases l with
  | nil => cases h
  | cons a l =>
      cases h
      exact foldl_best_unbeaten htrans hirrefl l a

theorem firstBest_eq_none {l : List β} (h : firstBest better l = none) : l = [] := by
  cases l with
  | nil => rfl
  | cons a l => cases h

/-! Comparisons of keys satisfy what the lemmas on selections ask for. -/

variable {γ : Type} [Preorder γ] {dec : DecidableLT γ}

private theorem decide_lt_trans (g : β → γ) (a b c : β) (hab : decide (g a < g b) = true)
    (hbc : decide (g b < g c) = true) : decide (g a < g c) = true := by
  rw [decide_eq_true_eq] at hab hbc ⊢
  exact hab.trans hbc

private theorem decide_lt_irrefl (g : β → γ) (a : β) : decide (g a < g a) = false :=
  decide_eq_false (lt_irrefl (g a))

end

end Dense

namespace Program

variable {κ : Type}

private theorem stepBefore_iff {less : κ → κ → Bool} {a b : ℚ × κ} :
    stepBefore less a b = true ↔ a.1 < b.1 ∨ (a.1 = b.1 ∧ less a.2 b.2 = true) := by
  unfold stepBefore
  by_cases h : a.1 = b.1
  · simp [h]
  · have hbeq : (a.1 == b.1) = false := beq_eq_false_iff_ne.mpr h
    simp [hbeq, h]

private theorem stepBefore_unbeaten {less : κ → κ → Bool} {l : List (ℚ × κ)} {b : ℚ × κ}
    (h : Dense.firstBest (stepBefore less) l = some b)
    (htrans : ∀ a b c, less a b = true → less b c = true → less a c = true)
    (hirrefl : ∀ a, less a a = false) :
    ∀ c ∈ l, b.1 ≤ c.1 ∧ (c.1 = b.1 → less c.2 b.2 = false) := by
  have hunbeaten := Dense.firstBest_unbeaten h
    (by
      intro a b c hab hbc
      rw [stepBefore_iff] at *
      rcases hab with hab | ⟨hab, hab'⟩ <;> rcases hbc with hbc | ⟨hbc, hbc'⟩
      · exact Or.inl (hab.trans hbc)
      · exact Or.inl (hbc ▸ hab)
      · exact Or.inl (hab ▸ hbc)
      · exact Or.inr ⟨hab.trans hbc, htrans _ _ _ hab' hbc'⟩)
    (by
      intro a
      rw [← Bool.not_eq_true, stepBefore_iff]
      simp [hirrefl])
  intro c hc
  have hcb := hunbeaten c hc
  rw [← Bool.not_eq_true, stepBefore_iff, not_or, not_and] at hcb
  exact ⟨not_lt.mp hcb.1, fun heq => by simpa using hcb.2 heq⟩

variable {p : Program ℚ m n} {o : SolveOptions ℚ} {β : Basis m n}

theorem mem_enterable {test : Fin n → Bool} {j : Fin n} :
    j ∈ p.enterable β test ↔ j ∉ β ∧ p.barred.get j = false ∧ test j = true := by
  simp [enterable, and_assoc]

theorem entering?_mem {reduced : Vector ℚ n} {l : List (Fin n)} {j : Fin n}
    (h : entering? o reduced l = some j) : j ∈ l := by
  unfold entering? at h
  split at h
  · exact List.mem_of_head? h
  · exact Dense.firstBest_mem h

theorem entering?_eq_none {reduced : Vector ℚ n} {l : List (Fin n)}
    (h : entering? o reduced l = none) : l = [] := by
  unfold entering? at h
  split at h
  · exact List.head?_eq_none_iff.mp h
  · exact Dense.firstBest_eq_none h

theorem entering?_le (hrule : o.rule = .bland) {reduced : Vector ℚ n} {test : Fin n → Bool}
    {j : Fin n} (h : entering? o reduced (p.enterable β test) = some j) :
    ∀ i ∈ p.enterable β test, j ≤ i := by
  unfold entering? at h
  rw [hrule] at h
  have hsorted : (p.enterable β test).Pairwise (· < ·) :=
    (List.pairwise_lt_finRange n).sublist List.filter_sublist
  obtain ⟨rest, hrest⟩ := List.head?_eq_some_iff.mp h
  rw [hrest] at hsorted ⊢
  intro i hi
  rcases List.mem_cons.mp hi with rfl | hi
  · exact le_rfl
  · exact (List.rel_of_pairwise_cons hsorted hi).le

theorem mem_steps {t : ℚ} {values direction : Vector ℚ m} {e : ℚ × Fin m} :
    e ∈ p.steps t β values direction ↔
      (t < direction.get e.2 ∧ e.1 = values.get e.2 / direction.get e.2) ∨
      (¬ t < direction.get e.2 ∧ direction.get e.2 < -t ∧ p.barred.get (β.get e.2) = true ∧
        e.1 = 0) := by
  unfold steps
  simp only [List.mem_filterMap, List.mem_finRange, true_and]
  constructor
  · rintro ⟨k, hk⟩
    split at hk
    · next hpos =>
      cases hk
      exact Or.inl ⟨hpos, rfl⟩
    · next hpos =>
      split at hk
      · next hneg =>
        cases hk
        simp only [Bool.and_eq_true, decide_eq_true_eq] at hneg
        exact Or.inr ⟨hpos, hneg.1, hneg.2, rfl⟩
      · cases hk
  · rintro (⟨hpos, he⟩ | ⟨hpos, hneg, hbarred, he⟩)
    · exact ⟨e.2, by rw [if_pos hpos, ← he]⟩
    · refine ⟨e.2, ?_⟩
      rw [if_neg hpos, if_pos (by simp [hneg, hbarred]), ← he]

theorem leaving?_eq_none {l : List (ℚ × Fin m)} (h : leaving? o β l = none) : l = [] := by
  unfold leaving? at h
  split at h <;> exact Dense.firstBest_eq_none h

theorem leaving?_mem {l : List (ℚ × Fin m)} {e : ℚ × Fin m} (h : leaving? o β l = some e) :
    e ∈ l := by
  unfold leaving? at h
  split at h <;> exact Dense.firstBest_mem h

theorem leaving?_le {l : List (ℚ × Fin m)} {e : ℚ × Fin m} (h : leaving? o β l = some e) :
    ∀ c ∈ l, e.1 ≤ c.1 := by
  unfold leaving? at h
  split at h
  · intro c hc
    exact
      (stepBefore_unbeaten h (Dense.decide_lt_trans β.get) (Dense.decide_lt_irrefl β.get) c hc).1
  · intro c hc
    have hunbeaten := Dense.firstBest_unbeaten h (Dense.decide_lt_trans Prod.fst)
      (Dense.decide_lt_irrefl Prod.fst) c hc
    simpa using hunbeaten

theorem leaving?_column_le (hrule : o.rule = .bland) {l : List (ℚ × Fin m)} {e : ℚ × Fin m}
    (h : leaving? o β l = some e) : ∀ c ∈ l, c.1 = e.1 → β.get e.2 ≤ β.get c.2 := by
  unfold leaving? at h
  rw [hrule] at h
  intro c hc hce
  have :=
    (stepBefore_unbeaten h (Dense.decide_lt_trans β.get) (Dense.decide_lt_irrefl β.get) c hc).2 hce
  simpa using this

theorem dualLeaving?_mem {values : Vector ℚ m} {l : List (Fin m)} {k : Fin m}
    (h : dualLeaving? o β values l = some k) : k ∈ l := by
  unfold dualLeaving? at h
  split at h <;> exact Dense.firstBest_mem h

theorem dualLeaving?_eq_none {values : Vector ℚ m} {l : List (Fin m)}
    (h : dualLeaving? o β values l = none) : l = [] := by
  unfold dualLeaving? at h
  split at h <;> exact Dense.firstBest_eq_none h

theorem dualLeaving?_column_le (hrule : o.rule = .bland) {values : Vector ℚ m} {l : List (Fin m)}
    {k : Fin m} (h : dualLeaving? o β values l = some k) : ∀ l' ∈ l, β.get k ≤ β.get l' := by
  unfold dualLeaving? at h
  rw [hrule] at h
  intro l' hl'
  have :=
    Dense.firstBest_unbeaten h (Dense.decide_lt_trans β.get) (Dense.decide_lt_irrefl β.get) l' hl'
  simpa using this

theorem dualEntering?_eq_none {reduced row : Vector ℚ n} {l : List (Fin n)}
    (h : dualEntering? o reduced row l = none) : l = [] := by
  unfold dualEntering? at h
  split at h <;> exact List.map_eq_nil_iff.mp (Dense.firstBest_eq_none h)

theorem dualEntering?_mem {reduced row : Vector ℚ n} {l : List (Fin n)} {e : ℚ × Fin n}
    (h : dualEntering? o reduced row l = some e) :
    e.2 ∈ l ∧ e.1 = reduced.get e.2 / row.get e.2 := by
  have hmem : e ∈ l.map fun j => (reduced.get j / row.get j, j) := by
    unfold dualEntering? at h
    split at h <;> exact Dense.firstBest_mem h
  obtain ⟨j, hj, rfl⟩ := List.mem_map.mp hmem
  exact ⟨hj, rfl⟩

theorem dualEntering?_le {reduced row : Vector ℚ n} {l : List (Fin n)} {e : ℚ × Fin n}
    (h : dualEntering? o reduced row l = some e) :
    ∀ j ∈ l, e.1 ≤ reduced.get j / row.get j := by
  intro j hj
  have hmem : (reduced.get j / row.get j, j) ∈ l.map fun j => (reduced.get j / row.get j, j) :=
    List.mem_map_of_mem hj
  unfold dualEntering? at h
  split at h
  · exact (stepBefore_unbeaten h (Dense.decide_lt_trans _) (Dense.decide_lt_irrefl _) _ hmem).1
  · exact (stepBefore_unbeaten h (Dense.decide_lt_trans _) (Dense.decide_lt_irrefl _) _ hmem).1

theorem dualEntering?_column_le (hrule : o.rule = .bland) {reduced row : Vector ℚ n}
    {l : List (Fin n)} {e : ℚ × Fin n} (h : dualEntering? o reduced row l = some e) :
    ∀ j ∈ l, reduced.get j / row.get j = e.1 → e.2 ≤ j := by
  intro j hj heq
  have hmem : (reduced.get j / row.get j, j) ∈ l.map fun j => (reduced.get j / row.get j, j) :=
    List.mem_map_of_mem hj
  unfold dualEntering? at h
  rw [hrule] at h
  have hunbeaten :=
    (stepBefore_unbeaten h (Dense.decide_lt_trans _) (Dense.decide_lt_irrefl _) _ hmem).2 heq
  simpa using hunbeaten

end Program

end IncrementalLP
