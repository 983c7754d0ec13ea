import IncrementalLP.Proofs.Attempt
import IncrementalLP.Matrix.Sparse
/-!
# Calls on a matrix

For each call that changes a matrix, when it returns and what it leaves behind, and that it changes
nothing where it fails.
-/
namespace IncrementalLP

@[simp] theorem accept_eq_ok {α β : Type} {offer : Offer β} {b : β} :
    (accept offer : Except (Fault α) β) = .ok b ↔ offer = .ok b := by
  cases offer <;> simp [accept]

theorem accept_eq_error {α β : Type} {offer : Offer β} {f : Fault α} :
    (accept offer : Except (Fault α) β) = .error f ↔
      ∃ cause, offer = .error cause ∧ f = .misread cause := by
  cases offer <;> simp [accept, eq_comm]

@[simp] theorem readPositions_eq_ok {α : Type} {array : ArrayName} {offer : Offer IndexArray}
    {v : List Int64} :
    (readPositions array offer : Except (Fault α) (List Int64)) = .ok v ↔
      offer = .ok (.integers v) := by
  simp only [readPositions, bind_eq_ok, accept_eq_ok]
  constructor
  · rintro ⟨given, rfl, h⟩
    cases given with
    | integers values =>
        cases h
        rfl
    | notIntegers => cases h
    | shaped lengths => cases h
  · rintro rfl
    exact ⟨_, rfl, rfl⟩

namespace Runs

@[simp] theorem length_cut {ε : Type} (lengths : List ℕ) (l : List ε) :
    (cut lengths l).length = lengths.length := by
  induction lengths generalizing l with
  | nil => rfl
  | cons n lengths ih => rw [cut, List.length_cons, List.length_cons, ih]

@[simp] theorem length_lengths (starts : List Int64) :
    (lengths starts).length = starts.length - 1 := by
  rw [lengths, List.length_map]
  induction starts with
  | nil => rfl
  | cons a starts ih =>
      cases starts with
      | nil => rfl
      | cons b starts => rw [steps, List.length_cons, ih, List.length_cons, List.length_cons]; rfl

end Runs

namespace SparseMatrix

variable {α : Type} {m m' : SparseMatrix α}

theorem length_checkedRows {numColumns first : ℕ} {l : List (Offer (RowEntries α))} {r : Runs α}
    (h : checkedRows numColumns first l = .ok r) : r.length = l.length := by
  induction l generalizing first r with
  | nil =>
      cases h
      rfl
  | cons a l ih =>
      simp only [checkedRows, bind_eq_ok, pure_eq_ok] at h
      obtain ⟨b, -, s, hs, rfl⟩ := h
      rw [List.length_cons, List.length_cons, ih hs]

theorem numRows_padRows {n : ℕ} (h : m.numRows ≤ n) :
    (m.padRows n).numRows = n := by
  unfold padRows numRows at *
  split
  · simp only
    omega
  · simp only [List.length_append, List.length_replicate]
    omega

@[simp] theorem numColumns_padRows (m : SparseMatrix α) (n : ℕ) :
    (m.padRows n).numColumns = m.numColumns := by
  unfold padRows numColumns
  split <;> rfl

private theorem foldl_appended (runs : Runs α) (m : SparseMatrix α) :
    runs.foldl (fun m entries => { m with appended := m.appended ++ [entries] }) m =
      { m with appended := m.appended ++ runs } := by
  induction runs generalizing m with
  | nil => rw [List.foldl_nil, List.append_nil]
  | cons run runs ih => rw [List.foldl_cons, ih, List.append_assoc, List.singleton_append]

theorem appendRows_returns {rows : Offer (List (Offer (RowEntries α)))} {n : ℕ} :
    (appendRows rows).Returns m m' n ↔
      ∃ lists added, rows = .ok lists ∧ checkedRows m.numColumns m.numRows lists = .ok added ∧
        m' = { m with appended := m.appended ++ added } ∧ n = m.numRows := by
  simp only [appendRows, Action.returns_get_bind, Action.returns_lift_bind,
    Action.returns_forEach_modify_bind, Action.returns_pure, foldl_appended, accept_eq_ok]
  constructor
  · rintro ⟨lists, hlists, added, hadded, rfl, rfl⟩
    exact ⟨lists, added, hlists, hadded, rfl, rfl⟩
  · rintro ⟨lists, added, hlists, hadded, rfl, rfl⟩
    exact ⟨lists, hlists, added, hadded, rfl, rfl⟩

theorem appendRows_atomic (rows : Offer (List (Offer (RowEntries α)))) :
    (appendRows rows).Atomic := by
  apply Action.steady_get.bind_atomic
  intro m
  apply (Action.steady_lift _).bind_atomic
  intro lists
  apply (Action.steady_lift _).bind_atomic
  intro added
  -- from here on rows are stored
  apply Action.Sure.atomic
  apply (Action.sure_forEach fun _ => Action.sure_modify _).bind
  exact fun _ => Action.sure_pure _

theorem extendRows_returns {n : ℤ} {u : Unit} :
    (extendRows n).Returns m m' u ↔ m.numRows ≤ n ∧ m' = m.padRows n.toNat := by
  simp only [extendRows, Action.returns_get_bind, Action.returns_guard, Action.returns_modify,
    not_lt, eq_comm]

theorem extendRows_atomic (n : ℤ) : (extendRows n : Action (SparseMatrix α) α Unit).Atomic := by
  apply Action.steady_get.bind_atomic
  intro m
  apply Action.Atomic.guard
  exact (Action.sure_modify _).atomic

variable [Scalar α]

theorem length_checkedRuns {first : ℕ} {numRows : Ordinal α} {starts rows : List Int64}
    {values : List α} {r : Runs α} (h : checkedRuns first numRows starts rows values = .ok r) :
    r.length = starts.length - 1 := by
  simp only [checkedRuns, bind_eq_ok, pure_eq_ok] at h
  obtain ⟨-, -, -, -, -, -, rfl⟩ := h
  rw [List.length_map, Runs.length_cut, Runs.length_lengths]

theorem appendColumns_returns {starts rows : Offer IndexArray} {values : Offer (ValueArray α)}
    {n : ℕ} :
    (appendColumns starts rows values).Returns m m' n ↔
      ∃ s r v added, readPositions (α := α) .columnStart starts = .ok s ∧
        readPositions (α := α) .rowIndex rows = .ok r ∧ readValues values = .ok v ∧
        checkedRuns m.numColumns (.whole m.numRows) s r v = .ok added ∧
        m' = { m with columns := m.columns ++ added } ∧ n = m.numColumns := by
  simp only [appendColumns, Action.returns_get_bind, Action.returns_lift_bind,
    Action.returns_modify_bind, Action.returns_pure]
  constructor
  · rintro ⟨s, hs, r, hr, v, hv, added, hadded, rfl, rfl⟩
    exact ⟨s, r, v, added, hs, hr, hv, hadded, rfl, rfl⟩
  · rintro ⟨s, r, v, added, hs, hr, hv, hadded, rfl, rfl⟩
    exact ⟨s, hs, r, hr, v, hv, added, hadded, rfl, rfl⟩

theorem appendColumns_atomic (starts rows : Offer IndexArray) (values : Offer (ValueArray α)) :
    (appendColumns starts rows values).Atomic := by
  apply Action.steady_get.bind_atomic
  intro m
  apply (Action.steady_lift _).bind_atomic
  intro s
  apply (Action.steady_lift _).bind_atomic
  intro r
  apply (Action.steady_lift _).bind_atomic
  intro v
  apply (Action.steady_lift _).bind_atomic
  intro added
  apply Action.Sure.atomic
  apply (Action.sure_modify _).bind
  exact fun _ => Action.sure_pure _

end SparseMatrix

end IncrementalLP
