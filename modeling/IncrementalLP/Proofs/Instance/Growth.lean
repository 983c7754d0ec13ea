import IncrementalLP.Proofs.Instance.Feasible
import IncrementalLP.Proofs.Session.Handles
/-!
# Growing instances

An instance that has only got rows and names since an earlier time holds the earlier instance.
-/
namespace IncrementalLP.Instance

/-- Calls that append rows, give names or solve. -/
def Operation.grows {α : Type} : Operation α → Bool
  | .assignNames .. | .addRow .. | .addRows .. | .solveCold .. | .solveWarm .. | .solve .. => true
  | _ => false

theorem Retains.after {α : Type} [Scalar α] {i : Instance α} {op : Operation α}
    (h : op.grows = true) : Retains i (op.after i) := by
  have of_solve : ∀ {j : Instance α}, (j = i ∨ ∃ r, j = i.recordSolve r) → Retains i j := by
    rintro j (rfl | ⟨r, rfl⟩)
    · exact refl j
    · exact recordSolve i r
  cases op with
  | assignNames kind names first last =>
      exact (assignNames_atomic kind names first last).state_induction (refl i)
        fun h => (undisturbed_of_assignNames h).toRetains
  | addRow row entries =>
      exact (addRow_atomic row entries).state_induction (refl i)
        fun h => (undisturbed_of_addRow h).toRetains
  | addRows rows entries =>
      exact (addRows_atomic rows entries).state_induction (refl i)
        fun h => (undisturbed_of_addRows h).toRetains
  | solveCold s o => exact of_solve (Session.solveCold_course s i o).state
  | solveWarm s handle o => exact of_solve (Session.solveWarm_course s i o handle).state
  | solve s o => exact of_solve (Session.solve_course s i o).state
  | load d => cases h
  | addColumns columns count starts rows values counted => cases h
  | changeBounds changes => cases h
  | changeObjective changes => cases h
  | changeSense sense => cases h

/-- The second instance is the first one with more rows, up to names. -/
structure Grown (i j : Instance ℚ) : Prop where
  token : j.token = i.token
  sense : j.sense = i.sense
  columns : j.columns.map Column.bare = i.columns.map Column.bare
  rows : ∃ new, j.rows.map Row.bare = i.rows.map Row.bare ++ new
  coefficient : ∀ k < i.numRows, ∀ l, j.coefficient k l = i.coefficient k l

namespace Grown

variable {i j k : Instance ℚ}

theorem refl (i : Instance ℚ) : Grown i i where
  token := rfl
  sense := rfl
  columns := rfl
  rows := ⟨[], (List.append_nil _).symm⟩
  coefficient _ _ _ := rfl

theorem numRows_le (h : Grown i j) : i.numRows ≤ j.numRows := by
  obtain ⟨new, hrows⟩ := h.rows
  have hlength := congrArg List.length hrows
  rw [List.length_append, List.length_map, List.length_map] at hlength
  unfold numRows
  omega

theorem numColumns_eq (h : Grown i j) : j.numColumns = i.numColumns :=
  length_eq_of_map_eq h.columns

theorem trans (h₁ : Grown i j) (h₂ : Grown j k) : Grown i k where
  token := h₂.token.trans h₁.token
  sense := h₂.sense.trans h₁.sense
  columns := h₂.columns.trans h₁.columns
  rows := by
    obtain ⟨new₁, hrows₁⟩ := h₁.rows
    obtain ⟨new₂, hrows₂⟩ := h₂.rows
    exact ⟨new₁ ++ new₂, by rw [hrows₂, hrows₁, List.append_assoc]⟩
  coefficient n hn l :=
    (h₂.coefficient n (lt_of_lt_of_le hn h₁.numRows_le) l).trans (h₁.coefficient n hn l)

end Grown

theorem Retains.grown {i j : Instance ℚ} (h : Retains i j) : Grown i j where
  token := h.token
  sense := h.sense
  columns := h.columns
  rows := by
    refine ⟨(j.rows.drop i.numRows).map Row.bare, ?_⟩
    rw [← h.rows, ← List.map_append, List.take_append_drop]
  coefficient k hk l := by
    rw [coefficient, coefficient, ← SparseMatrix.valueAt_filter j.matrix.entries hk, h.entries,
      SparseMatrix.valueAt_filter _ hk]

theorem Grown.after {i : Instance ℚ} {op : Operation ℚ} (h : op.grows = true) :
    Grown i (op.after i) := (Retains.after h).grown

end IncrementalLP.Instance
