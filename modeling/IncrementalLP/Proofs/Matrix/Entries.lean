import Mathlib
import IncrementalLP.Matrix.Sparse
/-!
# Entries

The entries of a matrix are those of its columns and those of its appended rows. What is appended at
either end comes with entries of its own, in places of its own, and the entries before stay.
-/
namespace IncrementalLP

namespace Runs

variable {β : Type}

private theorem startsFrom_ge {n m : ℕ} {runs : Runs β} (h : m ∈ startsFrom n runs) : n ≤ m := by
  induction runs generalizing n with
  | nil => exact (List.mem_singleton.mp h).ge
  | cons run runs ih =>
      rcases List.mem_cons.mp h with rfl | h
      · exact le_rfl
      · exact (Nat.le_add_right _ _).trans (ih h)

private theorem owner_first {n p : ℕ} {run : List (ℕ × β)} {runs : Runs β} (hle : n ≤ p)
    (hlt : p < n + run.length) : owner (startsFrom n (run :: runs)) p = 0 := by
  have hzero : (startsFrom (n + run.length) runs).countP (· ≤ p) = 0 := by
    rw [List.countP_eq_zero]
    intro m hm
    have := startsFrom_ge hm
    simp only [decide_eq_true_eq]
    omega
  rw [owner, startsFrom, List.countP_cons_of_pos (by simpa using hle), hzero]

private theorem owner_later {n p : ℕ} {run : List (ℕ × β)} {runs : Runs β}
    (hle : n + run.length ≤ p) :
    owner (startsFrom n (run :: runs)) p = owner (startsFrom (n + run.length) runs) p + 1 := by
  have hpos : 0 < (startsFrom (n + run.length) runs).countP (· ≤ p) := by
    rw [List.countP_pos_iff]
    refine ⟨n + run.length, ?_, by simpa using hle⟩
    cases runs <;> exact List.mem_cons_self
  rw [owner, owner, startsFrom, List.countP_cons_of_pos (by simp only [decide_eq_true_eq]; omega)]
  omega

/-- Entries with the runs that they belong to. Runs are counted from `k`. -/
def owned (k : ℕ) (runs : Runs β) : List (ℕ × ℕ × β) :=
  (runs.zipIdx k).flatMap fun (run, i) => run.map fun e => (i, e)

theorem owned_cons (k : ℕ) (run : List (ℕ × β)) (runs : Runs β) :
    owned k (run :: runs) = (run.map fun e => (k, e)) ++ owned (k + 1) runs := rfl

private theorem map_owner_flatten (runs : Runs β) (n k : ℕ) :
    (runs.flatten.zipIdx n).map (fun e => (k + owner (startsFrom n runs) e.2, e.1)) =
      owned k runs := by
  induction runs generalizing n k with
  | nil => rfl
  | cons run runs ih =>
      rw [List.flatten_cons, List.zipIdx_append, List.map_append, owned_cons,
        ← ih (n + run.length) (k + 1)]
      congr 1
      · have hrun : (run.map fun e => (k, e)) = (run.zipIdx n).map fun e => (k, e.1) := by
          conv_lhs => rw [← List.zipIdx_map_fst n run, List.map_map]
          rfl
        rw [hrun]
        refine List.map_congr_left fun e he => ?_
        obtain ⟨hle, hlt, -⟩ := List.mem_zipIdx he
        rw [owner_first hle hlt, Nat.add_zero]
      · refine List.map_congr_left fun e he => ?_
        obtain ⟨hle, -, -⟩ := List.mem_zipIdx he
        rw [owner_later hle, Nat.add_assoc, Nat.add_comm 1]

private theorem map_atPosition (runs : Runs β) (i k : ℕ) :
    (runs.atPosition i).map (fun e => (k + e.1, e.2)) =
      ((owned k runs).filter (·.2.1 == i)).map fun e => (e.1, e.2.2) := by
  rw [← map_owner_flatten runs 0 k, atPosition, List.filter_map, List.map_map, List.map_map]
  rfl

private theorem owned_append (k : ℕ) (a b : Runs β) :
    owned k (a ++ b) = owned k a ++ owned (k + a.length) b := by
  unfold owned
  rw [List.zipIdx_append, List.flatMap_append]

theorem mem_owned {k : ℕ} {runs : Runs β} {e : ℕ × ℕ × β} :
    e ∈ owned k runs ↔ k ≤ e.1 ∧ ∃ run, runs[e.1 - k]? = some run ∧ e.2 ∈ run := by
  simp only [owned, List.mem_flatMap, List.mem_map, Prod.exists,
    List.mem_zipIdx_iff_le_and_getElem?_sub]
  constructor
  · rintro ⟨run, i, ⟨hle, hrun⟩, j, v, hmem, rfl⟩
    exact ⟨hle, run, hrun, hmem⟩
  · rintro ⟨hle, run, hrun, hmem⟩
    exact ⟨run, e.1, ⟨hle, hrun⟩, e.2.1, e.2.2, hmem, rfl⟩

private theorem owner_of_mem_owned {k : ℕ} {runs : Runs β} {e : ℕ × ℕ × β} (h : e ∈ owned k runs) :
    k ≤ e.1 ∧ e.1 < k + runs.length := by
  obtain ⟨hle, run, hrun, -⟩ := mem_owned.mp h
  have := (List.getElem?_eq_some_iff.mp hrun).1
  omega

theorem nodup_owned (k : ℕ) (runs : Runs β) :
    ((owned k runs).map fun e => (e.1, e.2.1)).Nodup ↔ ∀ run ∈ runs, (run.map (·.1)).Nodup := by
  induction runs generalizing k with
  | nil => simp [owned]
  | cons run runs ih =>
      have hfirst : ((run.map (·.1)).map (Prod.mk k)).Nodup ↔ (run.map (·.1)).Nodup :=
        List.nodup_map_iff (Prod.mk_right_injective k)
      rw [List.map_map] at hfirst
      rw [owned_cons, List.map_append, List.map_map, List.nodup_append, List.forall_mem_cons,
        ih (k + 1), ← hfirst]
      refine and_congr_right fun _ => and_iff_left ?_
      rintro p hp q hq rfl
      obtain ⟨_, -, rfl⟩ := List.mem_map.mp hp
      obtain ⟨e, he, heq⟩ := List.mem_map.mp hq
      have := (owner_of_mem_owned he).1
      rw [(Prod.mk.inj heq).1] at this
      exact absurd this (Nat.not_succ_le_self k)

@[simp] theorem length_owned (k : ℕ) (runs : Runs β) : (owned k runs).length = runs.size := by
  rw [← map_owner_flatten runs 0 k, List.length_map, List.length_zipIdx, size]

@[simp] theorem map_snd_owned (k : ℕ) (runs : Runs β) :
    (owned k runs).map (·.2) = runs.flatten := by
  induction runs generalizing k with
  | nil => rfl
  | cons run runs ih =>
      rw [owned_cons, List.map_append, ih, List.map_map, List.flatten_cons]
      exact congrArg (· ++ _) (List.map_id run)

theorem filter_owned (k j : ℕ) (runs : Runs β) :
    ((owned k runs).filter (·.1 == k + j)).map (·.2) = runs.getD j [] := by
  induction runs generalizing k j with
  | nil => rfl
  | cons run runs ih =>
      rw [owned_cons, List.filter_append, List.map_append]
      cases j with
      | zero =>
          have hlater : (owned (k + 1) runs).filter (·.1 == k + 0) = [] := by
            rw [List.filter_eq_nil_iff]
            intro e he
            have := (owner_of_mem_owned he).1
            simp only [beq_iff_eq]
            omega
          have hfirst : (run.map fun e => (k, e)).filter (·.1 == k + 0) =
              run.map fun e => (k, e) := by
            rw [List.filter_eq_self]
            intro e he
            obtain ⟨_, -, rfl⟩ := List.mem_map.mp he
            exact beq_self_eq_true k
          rw [hlater, hfirst, List.map_map]
          simp
      | succ j =>
          have hfirst : (run.map fun e => (k, e)).filter (·.1 == k + (j + 1)) = [] := by
            rw [List.filter_eq_nil_iff]
            intro e he
            obtain ⟨_, -, rfl⟩ := List.mem_map.mp he
            simp only [beq_iff_eq]
            omega
          rw [hfirst, show k + (j + 1) = k + 1 + j by omega, ih]
          rfl

end Runs

/-- Where an entry is. -/
def Entry.place {β : Type} (e : Entry β) : ℕ × ℕ := (e.row, e.column)

namespace SparseMatrix

variable {α : Type}

/-- The entries of columns that are counted from `k`. -/
def ofColumns (k : ℕ) (columns : Runs α) : List (Entry α) :=
  (Runs.owned k columns).map fun e => ⟨e.2.1, e.1, e.2.2⟩

/-- The entries of rows that are counted from `k`. -/
def ofRows (k : ℕ) (rows : Runs α) : List (Entry α) :=
  (Runs.owned k rows).map fun e => ⟨e.1, e.2.1, e.2.2⟩

theorem entries_eq (m : SparseMatrix α) :
    m.entries = ofColumns 0 m.columns ++ ofRows m.baseRows m.appended := by
  simp only [entries, ofColumns, ofRows, Runs.owned, List.map_flatMap, List.map_map]
  rfl

/-- Where no rows were appended, all entries are in the columns. -/
@[simp] theorem entries_columns (n : ℕ) (runs : Runs α) :
    entries ⟨n, runs, []⟩ = ofColumns 0 runs := by
  rw [entries_eq]
  exact List.append_nil _

section

variable {k : ℕ} {e : Entry α} {runs : Runs α}

private theorem ofColumns_append (k : ℕ) (a b : Runs α) :
    ofColumns k (a ++ b) = ofColumns k a ++ ofColumns (k + a.length) b := by
  rw [ofColumns, Runs.owned_append, List.map_append]
  rfl

private theorem ofRows_append (k : ℕ) (a b : Runs α) :
    ofRows k (a ++ b) = ofRows k a ++ ofRows (k + a.length) b := by
  rw [ofRows, Runs.owned_append, List.map_append]
  rfl

theorem mem_ofColumns : e ∈ ofColumns k runs ↔
    k ≤ e.column ∧ ∃ run, runs[e.column - k]? = some run ∧ (e.row, e.value) ∈ run := by
  rw [← Runs.mem_owned (e := (e.column, e.row, e.value)), ofColumns, List.mem_map]
  constructor
  · rintro ⟨o, ho, rfl⟩
    exact ho
  · exact fun h => ⟨_, h, rfl⟩

theorem mem_ofRows : e ∈ ofRows k runs ↔
    k ≤ e.row ∧ ∃ run, runs[e.row - k]? = some run ∧ (e.column, e.value) ∈ run := by
  rw [← Runs.mem_owned (e := (e.row, e.column, e.value)), ofRows, List.mem_map]
  constructor
  · rintro ⟨o, ho, rfl⟩
    exact ho
  · exact fun h => ⟨_, h, rfl⟩

theorem nodup_ofColumns (k : ℕ) (runs : Runs α) :
    ((ofColumns k runs).map Entry.place).Nodup ↔ ∀ run ∈ runs, (run.map (·.1)).Nodup := by
  have hswap : (((Runs.owned k runs).map fun e => (e.1, e.2.1)).map Prod.swap).Nodup ↔ _ :=
    List.nodup_map_iff Prod.swap_injective
  rw [← Runs.nodup_owned k, ← hswap, ofColumns, List.map_map, List.map_map]
  rfl

theorem nodup_ofRows (k : ℕ) (runs : Runs α) :
    ((ofRows k runs).map Entry.place).Nodup ↔ ∀ run ∈ runs, (run.map (·.1)).Nodup := by
  rw [← Runs.nodup_owned k, ofRows, List.map_map]
  rfl

@[simp] theorem map_row_ofColumns (k : ℕ) (runs : Runs α) :
    (ofColumns k runs).map (·.row) = runs.positions := by
  rw [Runs.positions, ← Runs.map_snd_owned k, ofColumns, List.map_map, List.map_map]
  rfl

theorem map_value_ofColumns (k : ℕ) (runs : Runs α) :
    (ofColumns k runs).map (·.value) = runs.values := by
  rw [Runs.values, ← Runs.map_snd_owned k, ofColumns, List.map_map, List.map_map]
  rfl

theorem exists_of_mem_positions {i : ℕ} (k : ℕ) (h : i ∈ runs.positions) :
    ∃ e ∈ ofColumns k runs, e.row = i := by
  rw [← map_row_ofColumns k] at h
  exact List.mem_map.mp h

@[simp] theorem map_column_ofRows (k : ℕ) (runs : Runs α) :
    (ofRows k runs).map (·.column) = runs.positions := by
  rw [Runs.positions, ← Runs.map_snd_owned k, ofRows, List.map_map, List.map_map]
  rfl

theorem row_of_mem_ofRows (h : e ∈ ofRows k runs) : k ≤ e.row ∧ e.row < k + runs.length := by
  obtain ⟨o, ho, rfl⟩ := List.mem_map.mp h
  exact Runs.owner_of_mem_owned ho

end

theorem size_eq (m : SparseMatrix α) : m.size = m.entries.length := by
  rw [entries_eq, List.length_append, ofColumns, ofRows, List.length_map, List.length_map,
    Runs.length_owned, Runs.length_owned, size]

theorem columnEntries_eq (m : SparseMatrix α) (j : ℕ) :
    m.columnEntries j = (m.entries.filter (·.column == j)).map fun e => (e.row, e.value) := by
  have hcolumns := Runs.filter_owned 0 j m.columns
  rw [Nat.zero_add] at hcolumns
  rw [columnEntries, entries_eq, List.filter_append, List.map_append, ← hcolumns,
    Runs.map_atPosition, ofColumns, ofRows, List.filter_map, List.filter_map, List.map_map,
    List.map_map]
  rfl

theorem rowEntries_eq (m : SparseMatrix α) (i : ℕ) :
    m.rowEntries i = (m.entries.filter (·.row == i)).map fun e => (e.column, e.value) := by
  have hcolumns := Runs.map_atPosition m.columns i 0
  simp only [Nat.zero_add, List.map_id'] at hcolumns
  have happended : (if m.baseRows ≤ i then m.appended.getD (i - m.baseRows) [] else []) =
      ((Runs.owned m.baseRows m.appended).filter (·.1 == i)).map (·.2) := by
    split
    · next hle =>
      rw [← Runs.filter_owned m.baseRows, Nat.add_sub_cancel' hle]
    · next hlt =>
      have hnone : (Runs.owned m.baseRows m.appended).filter (·.1 == i) = [] := by
        rw [List.filter_eq_nil_iff]
        intro e he
        have := (Runs.owner_of_mem_owned he).1
        simp only [beq_iff_eq]
        omega
      rw [hnone]
      rfl
  rw [rowEntries, happended, hcolumns, entries_eq, List.filter_append, List.map_append, ofColumns,
    ofRows, List.filter_map, List.filter_map, List.map_map, List.map_map]
  rfl

theorem entries_appendRows (m : SparseMatrix α) (added : Runs α) :
    entries { m with appended := m.appended ++ added } = m.entries ++ ofRows m.numRows added := by
  rw [entries_eq, entries_eq, ofRows_append, numRows, List.append_assoc]

private theorem entries_appendColumns (m : SparseMatrix α) (added : Runs α) :
    entries { m with columns := m.columns ++ added } =
      ofColumns 0 m.columns ++ ofColumns m.numColumns added ++ ofRows m.baseRows m.appended := by
  rw [entries_eq, ofColumns_append, Nat.zero_add, numColumns]

theorem entries_appendColumns_perm (m : SparseMatrix α) (added : Runs α) :
    (entries { m with columns := m.columns ++ added }).Perm
      (m.entries ++ ofColumns m.numColumns added) := by
  rw [entries_appendColumns, entries_eq, List.append_assoc, List.append_assoc]
  exact List.perm_append_comm.append_left _

@[simp] theorem entries_padRows (m : SparseMatrix α) (n : ℕ) :
    (m.padRows n).entries = m.entries := by
  unfold padRows
  simp only
  split
  · next hempty =>
    rw [List.isEmpty_iff] at hempty
    rw [entries_eq, entries_eq, hempty]
    rfl
  · rw [entries_appendRows, List.append_right_eq_self, ofRows, List.map_eq_nil_iff,
      ← List.length_eq_zero_iff, Runs.length_owned, Runs.size]
    simp

end SparseMatrix

end IncrementalLP
