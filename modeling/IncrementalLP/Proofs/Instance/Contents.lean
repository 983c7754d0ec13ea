import IncrementalLP.Proofs.Instance.Calls
import IncrementalLP.Proofs.Matrix.Views
/-!
# Contents

What an instance holds: rows and columns with the entries between them. Whatever passes the checks
of loading passes them in each of its initial parts, and what is added to a part is checked as it
would have been in its place among the whole.
-/
namespace IncrementalLP

variable {α : Type}

theorem checkEach_append {β : Type} {check : ℕ → β → Except (Fault α) Unit} {k : ℕ} {a b : List β} :
    checkEach check k (a ++ b) = .ok () ↔
      checkEach check k a = .ok () ∧ checkEach check (k + a.length) b = .ok () := by
  induction a generalizing k with
  | nil => simp [checkEach]
  | cons x a ih =>
      simp only [List.cons_append, checkEach, bind_eq_ok, ih, List.length_cons, exists_and_right,
        and_assoc, Nat.add_assoc, Nat.add_comm 1]

namespace Names

private theorem enter_append {clash : String → ℕ → ℕ → Fault α} {table table' : Table} {k : ℕ}
    {a b : List (Option String)} :
    enter clash table k (a ++ b) = .ok table' ↔
      ∃ t, enter clash table k a = .ok t ∧ enter clash t (k + a.length) b = .ok table' := by
  induction a generalizing table k with
  | nil => simp [enter]
  | cons name a ih =>
      rw [List.length_cons, Nat.add_comm a.length, ← Nat.add_assoc]
      cases name with
      | none => exact ih
      | some name =>
          rw [List.cons_append, enter, enter]
          cases ordinal? table name with
          | some holder => simp
          | none => exact ih

theorem enter_nameless {clash : String → ℕ → ℕ → Fault α} (table : Table) (k : ℕ)
    {names : List (Option String)} (h : ∀ name ∈ names, name = none) :
    enter clash table k names = .ok table := by
  induction names generalizing k with
  | nil => rfl
  | cons name names ih =>
      obtain ⟨rfl, hrest⟩ := List.forall_mem_cons.mp h
      exact ih _ hrest

theorem index_append {kind : EntityKind} {table table' : Table} {k : ℕ}
    {a b : List (Option String)} :
    index (α := α) kind table k (a ++ b) = .ok table' ↔
      ∃ t, index (α := α) kind table k a = .ok t ∧
        index (α := α) kind t (k + a.length) b = .ok table' := enter_append

private theorem index_behind {β : Type} {kind : EntityKind} {name : β → Option String}
    {l new : List β}
    {table t : Table} (h : index (α := α) kind [] 0 ((l ++ new).map name) = .ok table)
    (hl : index (α := α) kind [] 0 (l.map name) = .ok t) :
    index (α := α) kind t l.length (new.map name) = .ok table := by
  rw [List.map_append] at h
  obtain ⟨t', ht, hnew⟩ := index_append.mp h
  obtain rfl := Except.ok.inj (ht.symm.trans hl)
  rwa [List.length_map, Nat.zero_add] at hnew

private theorem exists_index_take {β : Type} {kind : EntityKind} {name : β → Option String}
    {l : List β} {table : Table} (n : ℕ) (h : index (α := α) kind [] 0 (l.map name) = .ok table) :
    ∃ t, index (α := α) kind [] 0 ((l.take n).map name) = .ok t := by
  rw [← List.take_append_drop n l, List.map_append] at h
  obtain ⟨t, ht, -⟩ := index_append.mp h
  exact ⟨t, ht⟩

end Names

structure Contents (α : Type) where
  sense : Sense
  rows : List (Row α)
  columns : List (Column α)
  entries : List (Entry α)

namespace Contents

/-- The contents differ at most in the order of their entries. -/
structure Same (b c : Contents α) : Prop where
  sense : b.sense = c.sense
  rows : b.rows = c.rows
  columns : b.columns = c.columns
  entries : b.entries.Perm c.entries

/-- The first rows and columns, with the entries between them. -/
def part (c : Contents α) (p q : ℕ) : Contents α where
  sense := c.sense
  rows := c.rows.take p
  columns := c.columns.take q
  entries := c.entries.filter fun e => decide (e.row < p) && decide (e.column < q)

/-- The contents with more rows, and with the entries of each of them. -/
def withRows (c : Contents α) (rows : List (Row α)) (runs : Runs α) : Contents α :=
  { c with rows := c.rows ++ rows, entries := c.entries ++ SparseMatrix.ofRows c.rows.length runs }

def withColumns (c : Contents α) (columns : List (Column α)) (runs : Runs α) : Contents α :=
  { c with
    columns := c.columns ++ columns
    entries := c.entries ++ SparseMatrix.ofColumns c.columns.length runs }

variable [Scalar α]

/-- The contents pass the checks of loading, and their entries are in places of their own. -/
structure Accepted (c : Contents α) : Prop where
  rows : checkEach Row.check 0 c.rows = .ok ()
  columns : checkEach (fun k => Column.check (.whole k)) 0 c.columns = .ok ()
  rowNames : ∃ table, Names.index (α := α) .row [] 0 (c.rows.map (·.name)) = .ok table
  columnNames : ∃ table, Names.index (α := α) .column [] 0 (c.columns.map (·.name)) = .ok table
  inside : ∀ e ∈ c.entries, e.row < c.rows.length ∧ e.column < c.columns.length
  nodup : (c.entries.map Entry.place).Nodup

variable {b c : Contents α}

theorem Accepted.same (hc : c.Accepted) (h : b.Same c) : b.Accepted where
  rows := h.rows ▸ hc.rows
  columns := h.columns ▸ hc.columns
  rowNames := h.rows ▸ hc.rowNames
  columnNames := h.columns ▸ hc.columnNames
  inside e he := by
    rw [h.rows, h.columns]
    exact hc.inside e (h.entries.mem_iff.mp he)
  nodup := (h.entries.map _).nodup_iff.mpr hc.nodup

theorem Accepted.part (hc : c.Accepted) (p q : ℕ) : (c.part p q).Accepted where
  rows := by
    have hrows := hc.rows
    rw [← List.take_append_drop p c.rows] at hrows
    exact (checkEach_append.mp hrows).1
  columns := by
    have hcolumns := hc.columns
    rw [← List.take_append_drop q c.columns] at hcolumns
    exact (checkEach_append.mp hcolumns).1
  rowNames := hc.rowNames.elim fun _ h => Names.exists_index_take p h
  columnNames := hc.columnNames.elim fun _ h => Names.exists_index_take q h
  inside e he := by
    obtain ⟨hmem, hlt⟩ := List.mem_filter.mp he
    rw [Bool.and_eq_true, decide_eq_true_eq, decide_eq_true_eq] at hlt
    have hin := hc.inside e hmem
    rw [Contents.part, List.length_take, List.length_take]
    exact ⟨lt_min hlt.1 hin.1, lt_min hlt.2 hin.2⟩
  nodup := hc.nodup.sublist (List.filter_sublist.map _)

private theorem Accepted.fit_rows {rows : List (Row α)} {runs : Runs α}
    (hc : (c.withRows rows runs).Accepted) :
    ∀ run ∈ runs, (run.map (·.1)).Nodup ∧ ∀ e ∈ run, e.1 < c.columns.length := by
  have hnodup := hc.nodup.sublist ((List.sublist_append_right _ _).map _)
  rw [SparseMatrix.nodup_ofRows] at hnodup
  refine fun run hrun => ⟨hnodup run hrun, fun e he => ?_⟩
  have hposition := Runs.mem_positions hrun he
  rw [← SparseMatrix.map_column_ofRows c.rows.length, List.mem_map] at hposition
  obtain ⟨e', he', hcolumn⟩ := hposition
  rw [← hcolumn]
  exact (hc.inside e' (List.mem_append_right _ he')).2

private theorem Accepted.fit_columns {columns : List (Column α)} {runs : Runs α}
    (hc : (c.withColumns columns runs).Accepted) :
    ∀ run ∈ runs, (run.map (·.1)).Nodup ∧ ∀ e ∈ run, e.1 < c.rows.length := by
  have hnodup := hc.nodup.sublist ((List.sublist_append_right _ _).map _)
  rw [SparseMatrix.nodup_ofColumns] at hnodup
  refine fun run hrun => ⟨hnodup run hrun, fun e he => ?_⟩
  have hposition := Runs.mem_positions hrun he
  rw [← SparseMatrix.map_row_ofColumns c.columns.length, List.mem_map] at hposition
  obtain ⟨e', he', hrow⟩ := hposition
  rw [← hrow]
  exact (hc.inside e' (List.mem_append_right _ he')).1

theorem Accepted.part_length (hc : c.Accepted) : c.part c.rows.length c.columns.length = c := by
  have hentries : (c.part c.rows.length c.columns.length).entries = c.entries :=
    List.filter_eq_self.mpr fun e he => by simpa using hc.inside e he
  rw [Contents.part] at hentries ⊢
  simp only at hentries
  rw [List.take_length, List.take_length, hentries]

end Contents

namespace Instance

/-- The instance is loaded and holds the contents. -/
structure Contains (i : Instance α) (c : Contents α) : Prop where
  loaded : i.loaded = true
  sense : i.sense = c.sense
  rows : i.rows = c.rows
  columns : i.columns = c.columns
  rowTable : Names.index (α := α) .row [] 0 (c.rows.map (·.name)) = .ok i.rowTable
  columnTable : Names.index (α := α) .column [] 0 (c.columns.map (·.name)) = .ok i.columnTable
  numRows : i.matrix.numRows = c.rows.length
  numColumns : i.matrix.numColumns = c.columns.length
  entries : i.matrix.entries.Perm c.entries

namespace Contains

variable {i : Instance α} {b c : Contents α}

theorem same (hi : i.Contains b) (h : b.Same c) : i.Contains c where
  loaded := hi.loaded
  sense := hi.sense.trans h.sense
  rows := hi.rows.trans h.rows
  columns := hi.columns.trans h.columns
  rowTable := h.rows ▸ hi.rowTable
  columnTable := h.columns ▸ hi.columnTable
  numRows := h.rows ▸ hi.numRows
  numColumns := h.columns ▸ hi.numColumns
  entries := hi.entries.trans h.entries

variable [Scalar α]

/-- Rows that are accepted behind what the instance holds can be added to it. -/
theorem addRows (hi : i.Contains c) {rows : List (Row α)} {runs : Runs α}
    {lists : List (Offer (RowEntries α))} (hc : (c.withRows rows runs).Accepted)
    (hlists : List.Forall₂ SparseMatrix.Lists lists runs) (hlength : runs.length = rows.length) :
    ∃ j, (Instance.addRows rows (.ok lists)).Returns i j (List.range' i.numRows rows.length) ∧
      j.Contains (c.withRows rows runs) := by
  have hnumRows : i.numRows = c.rows.length := congrArg List.length hi.rows
  have hfits := SparseMatrix.forall₂_fits hlists hc.fit_rows
  rw [← hi.numColumns] at hfits
  have hcheck := (checkEach_append.mp hc.rows).2
  -- the names of all rows give the table that the new names are entered in, and the new table
  obtain ⟨table, htable⟩ := hc.rowNames
  have hnew := Names.index_behind htable hi.rowTable
  rw [Nat.zero_add, ← hnumRows] at hcheck
  rw [← hnumRows] at hnew
  refine ⟨_, addRows_returns.mpr ⟨hi.loaded, lists, runs, table, rfl,
    hlength.symm.trans hlists.length_eq.symm, hcheck, hnew, hi.numRows.trans hnumRows.symm,
    SparseMatrix.checkedRows_eq_ok.mpr hfits, rfl, rfl⟩, ?_⟩
  refine ⟨hi.loaded, hi.sense, congrArg (· ++ rows) hi.rows, hi.columns, htable, hi.columnTable,
    ?_, hi.numColumns, ?_⟩
  · rw [Contents.withRows, List.length_append, ← hi.numRows, ← hlength]
    simp only [SparseMatrix.numRows, List.length_append, Nat.add_assoc]
  · rw [SparseMatrix.entries_appendRows, hi.numRows]
    exact hi.entries.append_right _

theorem addColumns (hi : i.Contains c) {columns : List (Column α)} {runs : Runs α} {count : Offer ℕ}
    {starts rows : Offer IndexArray} {values : Offer (ValueArray α)}
    (hc : (c.withColumns columns runs).Accepted)
    (hruns : SparseMatrix.ListsColumns starts rows values runs)
    (hlength : runs.length = columns.length)
    (hcount : ∀ s, starts = .ok (.integers s) → count = .ok s.length) :
    ∃ j, (Instance.addColumns columns count starts rows values).Returns i j
        (List.range' i.numColumns columns.length) ∧
      j.Contains (c.withColumns columns runs) := by
  have hnumColumns : i.numColumns = c.columns.length := congrArg List.length hi.columns
  have hfit := SparseMatrix.runsFit_whole.mpr hc.fit_columns
  rw [← hi.numRows] at hfit
  obtain ⟨s, r, v, rfl, rfl, rfl, hflat⟩ := hruns
  have hstarts : count = .ok (columns.length + 1) := by
    rw [hcount s rfl, hflat.starts.length_eq, Runs.starts, Runs.length_startsFrom, hlength]
  have hcheck := (checkEach_append.mp hc.columns).2
  obtain ⟨table, htable⟩ := hc.columnNames
  have hnew := Names.index_behind htable hi.columnTable
  rw [Nat.zero_add, ← hnumColumns] at hcheck
  rw [← hnumColumns] at hnew
  refine ⟨_, addColumns_returns.mpr ⟨hi.loaded, hstarts, s, r, v, runs, table, hcheck, hnew,
    readPositions_eq_ok.mpr rfl, readPositions_eq_ok.mpr rfl, readValues_eq_ok.mpr rfl,
    (SparseMatrix.checkedRuns_of_flat hflat).mpr ⟨hfit, rfl⟩, rfl, rfl⟩, ?_⟩
  refine ⟨hi.loaded, hi.sense, hi.rows, congrArg (· ++ columns) hi.columns, hi.rowTable, htable,
    hi.numRows, ?_, ?_⟩
  · rw [Contents.withColumns, List.length_append, ← hi.numColumns, ← hlength]
    exact List.length_append
  · refine (SparseMatrix.entries_appendColumns_perm _ _).trans ?_
    rw [hi.numColumns]
    exact hi.entries.append_right _

end Contains

end Instance

namespace MatrixSource

open SparseMatrix

/-- What is given for a matrix lists entries, in a number of columns and in no more than a number of
rows: it is a matrix with these entries, or a column layout of them. -/
def Lists (numRows numColumns : ℕ) (es : List (Entry α)) : MatrixSource α → Prop
  | .held m => m.numRows ≤ numRows ∧ m.numColumns = numColumns ∧ m.entries.Perm es
  | .layout starts rows values stated => ∃ (runs : Runs α) (n : Option ℕ),
    stated = .ok (n.map fun n : ℕ => .whole n) ∧ ListsColumns starts rows values runs ∧
      runs.length = numColumns ∧ (ofColumns 0 runs).Perm es ∧
      ∀ k ∈ n, k ≤ numRows ∧ ∀ e ∈ es, e.row < k
  | .compressed c => ∃ runs : Runs α, c.columns = offered runs ∧ runs.length = numColumns ∧
    (ofColumns 0 runs).Perm es ∧ c.numRows ≤ numRows ∧ (∀ e ∈ es, e.row < c.numRows) ∧
      c.numRows < 2 ^ 63 ∧ runs.size < 2 ^ 63
  | .other => False

variable [Scalar α]

/-- A matrix that is handed over shows a map of coordinates, as every matrix does that came of
calls, and a row count that is stated is an integer. -/
def Sound : MatrixSource α → Prop
  | .held m => ∃ c, m.Agrees c
  | .layout _ _ _ stated => ∃ n : Option ℤ, stated = .ok (n.map .whole)
  | _ => True

variable {source : MatrixSource α} {m : SparseMatrix α}

private theorem Sound.agrees (h : source.Sound) (hread : source.read = .ok m) :
    ∃ c, m.Agrees c := by
  cases source with
  | held m' =>
      obtain rfl := Except.ok.inj hread
      exact h
  | layout starts rows values stated =>
      obtain ⟨n, rfl⟩ := h
      exact ⟨_, .of_build hread⟩
  | compressed c => exact ⟨_, @Agrees.of_build _ _ m _ _ _ (some (c.numRows : ℤ)) hread⟩
  | other => cases hread

private theorem Lists.exists_read {numRows numColumns : ℕ} {es : List (Entry α)}
    (h : source.Lists numRows numColumns es) (hrows : ∀ e ∈ es, e.row < numRows)
    (hnodup : (es.map Entry.place).Nodup) :
    ∃ m, source.read = .ok m ∧ m.numRows ≤ numRows ∧ m.numColumns = numColumns ∧
      m.entries.Perm es := by
  have hruns {runs : Runs α} (hperm : (ofColumns 0 runs).Perm es) :
      (∀ run ∈ runs, (run.map (·.1)).Nodup) ∧
        ∀ n, (∀ e ∈ es, e.row < n) → ∀ i ∈ runs.positions, i < n := by
    refine ⟨(nodup_ofColumns 0 runs).mp ((hperm.map _).nodup_iff.mpr hnodup), fun n hn i hi => ?_⟩
    rw [← map_row_ofColumns 0, List.mem_map] at hi
    obtain ⟨e, he, rfl⟩ := hi
    exact hn e (hperm.mem_iff.mp he)
  cases source with
  | held m => exact ⟨m, rfl, h⟩
  | layout starts rows values stated =>
      obtain ⟨runs, n, rfl, hlists, hlength, hperm, hn⟩ := h
      obtain ⟨hplaces, hpositions⟩ := hruns hperm
      obtain ⟨k, hbuild, hk⟩ :=
        exists_build hlists hplaces n fun k hk => hpositions k (hn k hk).2
      refine ⟨_, hbuild, hk numRows (fun k hk => (hn k hk).1) (hpositions _ hrows), hlength, ?_⟩
      rw [entries_columns]
      exact hperm
  | compressed c =>
      obtain ⟨runs, hcolumns, hlength, hperm, hle, hinside, hcount, hsize⟩ := h
      obtain ⟨hplaces, hpositions⟩ := hruns hperm
      have hfit : RunsFit (.whole c.numRows : Ordinal α) runs :=
        runsFit_whole.mpr fun run hrun =>
          ⟨hplaces run hrun, fun e he => hpositions _ hinside e.1 (Runs.mem_positions hrun he)⟩
      have hread : ofCompressed c = .ok ⟨c.numRows, runs, []⟩ := by
        refine (ofCompressed_eq_ok ?_ fun i hi => ?_).mpr ⟨runs, hcolumns, hfit, rfl⟩
        · rwa [hcolumns, size_offered]
        · rw [hcolumns, positions_offered] at hi
          exact (hpositions _ hinside i hi).trans hcount
      refine ⟨_, hread, hle, hlength, ?_⟩
      rw [entries_columns]
      exact hperm
  | other => cases h

end MatrixSource

namespace Description

/-- The description lists the contents one by one. -/
structure Lists (d : Description α) (c : Contents α) : Prop where
  sense : d.sense = .ok c.sense
  rows : d.rows = c.rows
  columns : d.columns = c.columns
  matrix : d.matrix.Lists c.rows.length c.columns.length c.entries

variable [Scalar α]

/-- What a description describes, if its matrix can be read. -/
def contents (d : Description α) : Except (Fault α) (Contents α) := do
  let sense ← checkSense d.sense
  let matrix ← d.matrix.read
  return ⟨sense, d.rows, d.columns, matrix.entries⟩

end Description

namespace Instance

variable [Scalar α] {d : Description α} {c : Contents α} {i j : Instance α}

theorem exists_load (hd : d.Lists c) (hc : c.Accepted) (i : Instance α) :
    ∃ j, (load d).Returns i j () ∧ j.Contains c := by
  obtain ⟨m, hread, hnumRows, hnumColumns, hentries⟩ :=
    hd.matrix.exists_read (fun e he => (hc.inside e he).1) hc.nodup
  obtain ⟨rowTable, hrowTable⟩ := hc.rowNames
  obtain ⟨columnTable, hcolumnTable⟩ := hc.columnNames
  have hsense : checkSense (α := α) d.sense = .ok c.sense := by rw [hd.sense, checkSense]
  rw [← hd.rows] at hnumRows hrowTable
  rw [← hd.columns] at hnumColumns hcolumnTable
  refine ⟨_, load_returns.mpr ⟨c.sense, m, rowTable, columnTable, hsense, hread, hnumColumns,
    hnumRows, hd.rows ▸ hc.rows, hd.columns ▸ hc.columns, hrowTable, hcolumnTable, rfl⟩, ?_⟩
  refine ⟨rfl, rfl, hd.rows, hd.columns, hd.rows ▸ hrowTable, hd.columns ▸ hcolumnTable, ?_, ?_, ?_⟩
  · rw [← hd.rows]
    exact SparseMatrix.numRows_padRows hnumRows
  · rw [← hd.columns, ← hnumColumns]
    exact SparseMatrix.numColumns_padRows m _
  · rw [SparseMatrix.entries_padRows]
    exact hentries

theorem contains_of_load (hsound : d.matrix.Sound) (hd : d.contents = .ok c)
    (h : (load d).Returns i j ()) : j.Contains c ∧ c.Accepted := by
  obtain ⟨sense, m, rowTable, columnTable, hsense, hread, hnumColumns, hnumRows, hrows, hcolumns,
    hrowTable, hcolumnTable, rfl⟩ := load_returns.mp h
  obtain ⟨map, hagrees⟩ := hsound.agrees hread
  simp only [Description.contents, hsense, hread] at hd
  obtain rfl := Except.ok.inj hd
  refine ⟨⟨rfl, rfl, rfl, rfl, hrowTable, hcolumnTable, SparseMatrix.numRows_padRows hnumRows,
    (SparseMatrix.numColumns_padRows m _).trans hnumColumns, ?_⟩,
    hrows, hcolumns, ⟨_, hrowTable⟩, ⟨_, hcolumnTable⟩, fun e he => ?_, hagrees.represents.nodup⟩
  · rw [SparseMatrix.entries_padRows]
  · have hin := hagrees.inside e he
    exact ⟨hin.1.trans_le hnumRows, hnumColumns ▸ hin.2⟩

end Instance

end IncrementalLP
