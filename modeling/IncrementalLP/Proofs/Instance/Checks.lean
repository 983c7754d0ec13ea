import IncrementalLP.Proofs.Attempt
import IncrementalLP.Proofs.Number.Exact
import IncrementalLP.Instance.Change
/-!
# Checks

What the checks of an instance let pass: usable rows and columns, and matrices of the right size.
-/
namespace IncrementalLP

theorem checkEach_eq_ok {α β : Type} {check : ℕ → β → Except (Fault α) Unit} {p : β → Prop}
    (hcheck : ∀ n b, check n b = .ok () ↔ p b) {k : ℕ} {l : List β} :
    checkEach check k l = .ok () ↔ ∀ b ∈ l, p b := by
  induction l generalizing k with
  | nil => simp [checkEach]
  | cons a l ih =>
      simp only [checkEach, bind_eq_ok, hcheck, ih, List.forall_mem_cons, exists_const]

theorem forall_of_mapM {α β ε : Type} {f : α → Except ε β} {l : List α} {r : List β}
    (h : l.mapM f = .ok r) : ∀ b ∈ r, ∃ a ∈ l, f a = .ok b := by
  induction l generalizing r with
  | nil =>
      rw [List.mapM_nil, pure_eq_ok] at h
      rw [← h]
      exact fun b hb => absurd hb List.not_mem_nil
  | cons a l ih =>
      simp only [List.mapM_cons, bind_eq_ok, pure_eq_ok] at h
      obtain ⟨b, hb, s, hs, rfl⟩ := h
      intro c hc
      rcases List.mem_cons.mp hc with rfl | hc
      · exact ⟨a, List.mem_cons_self, hb⟩
      · obtain ⟨a', ha', hfa⟩ := ih hs c hc
        exact ⟨a', List.mem_cons_of_mem _ ha', hfa⟩

/-- A row that can be written in standard form. -/
def Row.Usable {α : Type} (r : Row α) : Prop :=
  match r.sense with
  | .atMost => r.rhs ≠ .nan ∧ r.rhs ≠ .negInf
  | .atLeast => r.rhs ≠ .nan ∧ r.rhs ≠ .posInf
  | .equal => r.rhs.isFinite = true
  | .range w => r.rhs.isFinite = true ∧ w.isFinite = true

/-- A column whose bounds enclose a number, with a cost. -/
structure Column.Usable {α : Type} [Scalar α] (c : Column α) : Prop where
  lower : c.lower ≠ .nan ∧ c.lower ≠ .posInf
  upper : c.upper ≠ .nan ∧ c.upper ≠ .negInf
  order : c.upper.less c.lower = false
  objective : c.objective.isFinite = true

private theorem Row.check_eq_ok {α : Type} {r : Row α} {k : ℕ} : r.check k = .ok () ↔ r.Usable := by
  obtain ⟨sense, rhs, name⟩ := r
  unfold Row.check Row.Usable
  cases sense with
  | atMost => cases rhs <;> simp
  | atLeast => cases rhs <;> simp
  | equal => cases rhs <;> simp [Extended.isFinite]
  | range w => cases rhs <;> cases w <;> simp [Extended.isFinite]

theorem Row.checkEach_eq_ok {α : Type} {rows : List (Row α)} {k : ℕ} :
    checkEach Row.check k rows = .ok () ↔ ∀ r ∈ rows, r.Usable :=
  IncrementalLP.checkEach_eq_ok fun _ _ => check_eq_ok

private theorem Column.usable_of_check {α : Type} [Scalar α] {c : Column α} {ordinal : Ordinal α}
    (h : c.check ordinal = .ok ()) : c.Usable := by
  obtain ⟨objective, lower, upper, name⟩ := c
  unfold Column.check at h
  simp only at h
  split at h
  · cases h
  · next hnan =>
    rw [Bool.or_eq_true, not_or] at hnan
    split at h
    · cases h
    · cases h
    · next hlower hupper =>
      split at h
      · cases h
      · next hless =>
        split at h
        · next hfinite =>
          refine ⟨⟨?_, ?_⟩, ⟨?_, ?_⟩, Bool.not_eq_true _ ▸ hless, hfinite⟩
          · rintro rfl
            exact hnan.1 rfl
          · rintro rfl
            exact hlower rfl
          · rintro rfl
            exact hnan.2 rfl
          · rintro rfl
            exact hupper rfl
        · cases h

theorem Column.check_eq_ok {α : Type} [Scalar α] {c : Column α} {ordinal : Ordinal α} :
    c.check ordinal = .ok () ↔ c.Usable := by
  refine ⟨usable_of_check, fun h => ?_⟩
  obtain ⟨objective, lower, upper, name⟩ := c
  obtain ⟨⟨hlower, hlower'⟩, ⟨hupper, hupper'⟩, horder, hobjective⟩ := h
  unfold Column.check
  cases lower <;> cases upper <;> simp_all [Extended.isNan]

theorem Column.checkEach_eq_ok {α : Type} [Scalar α] {columns : List (Column α)} {k : ℕ} :
    checkEach (fun k => Column.check (.whole k)) k columns = .ok () ↔ ∀ c ∈ columns, c.Usable :=
  IncrementalLP.checkEach_eq_ok fun _ _ => check_eq_ok

end IncrementalLP
