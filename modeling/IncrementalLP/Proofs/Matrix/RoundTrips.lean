import IncrementalLP.Proofs.Matrix.Views
import IncrementalLP.Proofs.Number.Zeros
/-!
# Round trips

A matrix is copied by way of its compressed columns and by way of its table. Compressed columns hold
everything that is stored, zeros too, and come back as they are; a table holds what is not zero.
-/
namespace IncrementalLP

variable {α : Type}

/-- The entry as it is handed in. -/
def Entry.offered (e : Entry α) : Entry (Extended α) := ⟨e.row, e.column, .finite e.value⟩

namespace SparseMatrix

section

variable {β : Type} [Add β] {numRows numColumns : ℕ} {es : List (Entry β)} {runs : Runs β}

omit [Add β] in
private theorem nodup_rows_of_column (h : (es.map Entry.place).Nodup) (j : ℕ) :
    (((es.filter (·.column == j)).map fun e => (e.row, e.value)).map (·.1)).Nodup := by
  have hplaces := (List.pairwise_map.mp h).filter (·.column == j)
  rw [List.map_map]
  refine List.pairwise_map.mpr (hplaces.imp_of_mem fun {a b} ha hb hne hrow => hne ?_)
  have hcolumn := (beq_iff_eq.mp (List.mem_filter.mp ha).2).trans
    (beq_iff_eq.mp (List.mem_filter.mp hb).2).symm
  exact Prod.ext hrow hcolumn

private theorem getElem?_columns_ofEntries {j : ℕ} (hj : j < numColumns) :
    (Compressed.ofEntries numRows numColumns es).columns[j]? =
      some (Compressed.columnOf ((es.filter (·.column == j)).map fun e => (e.row, e.value))) := by
  rw [Compressed.ofEntries, List.getElem?_map, List.getElem?_range hj, Option.map_some]

private theorem ascends_ofEntries (numRows numColumns : ℕ) (h : (es.map Entry.place).Nodup) :
    ∀ run ∈ (Compressed.ofEntries numRows numColumns es).columns, Compressed.Ascends run := by
  intro run hrun
  obtain ⟨j, -, rfl⟩ := List.mem_map.mp hrun
  exact Compressed.ascends_columnOf (nodup_rows_of_column h j)

theorem ofEntries_eq_of_perm {es' : List (Entry β)} (h : (es.map Entry.place).Nodup)
    (hperm : es.Perm es') : Compressed.ofEntries numRows numColumns es =
      Compressed.ofEntries numRows numColumns es' := by
  unfold Compressed.ofEntries
  congr 1
  refine List.map_congr_left fun j _ => ?_
  exact Compressed.columnOf_eq_of_perm (nodup_rows_of_column h j) ((hperm.filter _).map _)

omit [Add β] in
private theorem nodup_of_ascends {run : List (ℕ × β)} (h : Compressed.Ascends run) :
    (run.map (·.1)).Nodup :=
  List.pairwise_map.mpr (h.imp ne_of_lt)

/-- Entries that do not share a place are neither lost nor added up. -/
theorem ofColumns_ofEntries_perm (h : (es.map Entry.place).Nodup)
    (hcolumns : ∀ e ∈ es, e.column < numColumns) :
    (ofColumns 0 (Compressed.ofEntries numRows numColumns es).columns).Perm es := by
  have hnodup := (nodup_ofColumns 0 _).mpr fun run hrun =>
    nodup_of_ascends (ascends_ofEntries numRows numColumns h run hrun)
  refine (List.perm_ext_iff_of_nodup hnodup.of_map h.of_map).mpr fun e => ?_
  have hmem : (e.row, e.value) ∈ Compressed.columnOf
      ((es.filter (·.column == e.column)).map fun e => (e.row, e.value)) ↔ e ∈ es := by
    rw [(Compressed.columnOf_perm (nodup_rows_of_column h e.column)).mem_iff, List.mem_map]
    constructor
    · rintro ⟨e', he', heq⟩
      obtain ⟨hmem, hcolumn⟩ := List.mem_filter.mp he'
      obtain ⟨hrow, hvalue⟩ := Prod.mk.inj heq
      obtain rfl : e' = e := by
        cases e
        cases e'
        simp_all
      exact hmem
    · exact fun he => ⟨e, List.mem_filter.mpr ⟨he, beq_self_eq_true _⟩, rfl⟩
  rw [mem_ofColumns, Nat.sub_zero, ← hmem]
  constructor
  · rintro ⟨-, run, hrun, he⟩
    obtain ⟨hlt, -⟩ := List.getElem?_eq_some_iff.mp hrun
    rw [Compressed.ofEntries, List.length_map, List.length_range] at hlt
    rw [getElem?_columns_ofEntries hlt] at hrun
    rwa [Option.some.inj hrun]
  · intro he
    exact ⟨Nat.zero_le _, _, getElem?_columns_ofEntries (hcolumns e (hmem.mp he)), he⟩

private theorem ofEntries_ofColumns (h : ∀ run ∈ runs, Compressed.Ascends run) :
    (Compressed.ofEntries numRows runs.length (ofColumns 0 runs)).columns = runs := by
  refine List.ext_getElem? fun j => ?_
  by_cases hj : j < runs.length
  · have hrun : ((ofColumns 0 runs).filter (·.column == j)).map (fun e => (e.row, e.value)) =
        runs[j] := by
      have hfilter := Runs.filter_owned 0 j runs
      rw [Nat.zero_add, List.getD_eq_getElem _ _ hj] at hfilter
      rw [ofColumns, List.filter_map, List.map_map, ← hfilter]
      rfl
    rw [getElem?_columns_ofEntries hj, hrun, List.getElem?_eq_getElem hj,
      Compressed.columnOf_of_ascends (h _ (List.getElem_mem hj))]
  · rw [List.getElem?_eq_none (by simpa [Compressed.ofEntries] using hj),
      List.getElem?_eq_none (by simpa using hj)]

end

variable [Scalar α] {numRows numColumns : ℕ} {es : List (Entry α)} {runs : Runs α}

private theorem columns_ofEntries_offered (h : (es.map Entry.place).Nodup) :
    (Compressed.ofEntries numRows numColumns (es.map Entry.offered)).columns =
      offered (Compressed.ofEntries numRows numColumns es).columns := by
  rw [Compressed.ofEntries, Compressed.ofEntries, offered, List.map_map]
  refine List.map_congr_left fun j _ => ?_
  rw [Function.comp_apply, ← Compressed.columnOf_map _ (nodup_rows_of_column h j), List.filter_map,
    List.map_map, List.map_map]
  rfl

private theorem ofCompressed_offered (h : (es.map Entry.place).Nodup)
    (hinside : ∀ e ∈ es, e.row < numRows ∧ e.column < numColumns)
    (hrows : ∀ e ∈ es, e.row < 2 ^ 63) (hsize : es.length < 2 ^ 63) :
    ofCompressed ⟨numRows, offered (Compressed.ofEntries numRows numColumns es).columns⟩ =
      .ok ⟨numRows, (Compressed.ofEntries numRows numColumns es).columns, []⟩ := by
  set columns := (Compressed.ofEntries numRows numColumns es).columns with hcolumns
  have hperm : (ofColumns 0 columns).Perm es :=
    ofColumns_ofEntries_perm h fun e he => (hinside e he).2
  have hlength : columns.size = es.length := by
    rw [← hperm.length_eq, ofColumns, List.length_map, Runs.length_owned]
  have hposition : ∀ i ∈ columns.positions, ∃ e ∈ es, e.row = i := by
    intro i hi
    obtain ⟨e, he, rfl⟩ := exists_of_mem_positions 0 hi
    exact ⟨e, hperm.mem_iff.mp he, rfl⟩
  refine (ofCompressed_eq_ok (by rwa [size_offered, hlength]) fun i hi => ?_).mpr
    ⟨columns, rfl, runsFit_whole.mpr fun run hrun => ⟨?_, fun e he => ?_⟩, rfl⟩
  · rw [positions_offered] at hi
    obtain ⟨e, he, rfl⟩ := hposition i hi
    exact hrows e he
  · exact nodup_of_ascends (ascends_ofEntries _ _ h run hrun)
  · obtain ⟨e', he', heq⟩ := hposition e.1 (Runs.mem_positions hrun he)
    rw [← heq]
    exact (hinside e' he').1

/-- What is not zero in the rows of a table, with its columns. -/
def nonzeroRuns (rows : List (List α)) : Runs α :=
  rows.map fun row => (row.zipIdx.filter fun e => !(e.1 == 0)).map Prod.swap

/-- The dense form as a table. -/
def table (m : SparseMatrix α) : Table α := ⟨m.numColumns, m.dense.map (·.map .finite)⟩

private theorem nonzeros_finite (n : ℕ) (rows : List (List α)) :
    Table.nonzeros ⟨n, rows.map (·.map .finite)⟩ =
      (ofRows 0 (nonzeroRuns rows)).map Entry.offered := by
  have hrow (row : List α) (i : ℕ) :
      ((row.zipIdx.map (Prod.map Extended.finite id)).filter fun e => !isZero e.1).map (fun e =>
        Entry.mk i e.2 e.1) =
      (row.zipIdx.filter fun e => !(e.1 == 0)).map fun e =>
        Entry.offered ⟨i, e.swap.1, e.swap.2⟩ := by
    rw [List.filter_map, List.map_map]
    rfl
  simp only [Table.nonzeros, ofRows, Runs.owned, nonzeroRuns, List.zipIdx_map, List.flatMap_map,
    List.map_flatMap, List.map_map, Function.comp_def, Prod.map_fst, Prod.map_snd, id_eq, hrow]

private theorem nodup_nonzeroRuns (rows : List (List α)) :
    ((ofRows 0 (nonzeroRuns rows)).map Entry.place).Nodup := by
  rw [nodup_ofRows]
  intro run hrun
  obtain ⟨row, -, rfl⟩ := List.mem_map.mp hrun
  have hsub := (List.filter_sublist (l := row.zipIdx) (p := fun e => !(e.1 == 0))).map Prod.snd
  rw [List.zipIdx_map_snd] at hsub
  rw [List.map_map]
  exact hsub.nodup (List.nodup_range' ..)

private theorem mem_nonzeroRuns {rows : List (List α)} {e : Entry α} :
    e ∈ ofRows 0 (nonzeroRuns rows) ↔
      ∃ row, rows[e.row]? = some row ∧ row[e.column]? = some e.value ∧ (e.value == 0) = false := by
  rw [mem_ofRows, nonzeroRuns, Nat.sub_zero, List.getElem?_map]
  cases rows[e.row]? with
  | none => simp
  | some row =>
      simp only [Nat.zero_le, true_and, Option.map_some, Option.some.injEq, exists_eq_left',
        List.mem_map, List.mem_filter, List.mem_zipIdx_iff_getElem?, Bool.not_eq_true',
        Prod.exists, Prod.swap_prod_mk, Prod.mk.injEq]
      constructor
      · rintro ⟨v, j, ⟨hget, hne⟩, rfl, rfl⟩
        exact ⟨hget, hne⟩
      · exact fun h => ⟨e.value, e.column, h, rfl, rfl⟩

private theorem getElem?_dense (m : SparseMatrix α) {i : ℕ} {row : List α} :
    m.dense[i]? = some row ↔
      i < m.numRows ∧ (List.range m.numColumns).map (valueAt m.entries i) = row := by
  rw [dense, List.getElem?_map, Option.map_eq_some_iff]
  simp only [List.getElem?_eq_some_iff, List.length_range, List.getElem_range]
  constructor
  · rintro ⟨k, ⟨hi, rfl⟩, hrow⟩
    exact ⟨hi, hrow⟩
  · rintro ⟨hi, hrow⟩
    exact ⟨i, ⟨hi, rfl⟩, hrow⟩

private theorem mem_nonzeroRuns_dense {m : SparseMatrix α} {e : Entry α} :
    e ∈ ofRows 0 (nonzeroRuns m.dense) ↔
      (e.row < m.numRows ∧ e.column < m.numColumns) ∧ valueAt m.entries e.row e.column = e.value ∧
        (e.value == 0) = false := by
  rw [mem_nonzeroRuns]
  simp only [getElem?_dense]
  constructor
  · rintro ⟨row, ⟨hi, rfl⟩, hget, hne⟩
    rw [List.getElem?_map, Option.map_eq_some_iff] at hget
    obtain ⟨k, hk, hvalue⟩ := hget
    obtain ⟨hj, rfl⟩ := List.getElem?_eq_some_iff.mp hk
    rw [List.length_range] at hj
    rw [List.getElem_range] at hvalue
    exact ⟨⟨hi, hj⟩, hvalue, hne⟩
  · rintro ⟨⟨hi, hj⟩, hvalue, hne⟩
    refine ⟨_, ⟨hi, rfl⟩, ?_, hne⟩
    rw [List.getElem?_map, List.getElem?_range hj, Option.map_some, hvalue]

/-- Entries lie inside the shape and share no place, and words suffice to list them. -/
structure Listable (m : SparseMatrix α) : Prop where
  inside : ∀ e ∈ m.entries, e.row < m.numRows ∧ e.column < m.numColumns
  nodup : (m.entries.map Entry.place).Nodup
  rows : ∀ e ∈ m.entries, e.row < 2 ^ 63
  size : m.size < 2 ^ 63

/-- The matrix with all entries in its columns, and rows in order. -/
def recompressed (m : SparseMatrix α) : SparseMatrix α := ⟨m.numRows, m.compressed.columns, []⟩

/-- The other matrix holds the same entries in the same shape, all of them in its columns, where the
rows ascend. -/
structure Compresses (m' m : SparseMatrix α) : Prop where
  numRows : m'.numRows = m.numRows
  numColumns : m'.numColumns = m.numColumns
  size : m'.size = m.size
  entries : m'.entries.Perm m.entries
  appended : m'.appended = []
  ascends : ∀ run ∈ m'.columns, Compressed.Ascends run

variable {m m' : SparseMatrix α} {c : Coordinates α}

omit [Scalar α] in
theorem Agrees.listable (h : Agrees m c) (hrows : ∀ e ∈ m.entries, e.row < 2 ^ 63)
    (hsize : m.size < 2 ^ 63) : m.Listable where
  inside := h.inside
  nodup := h.represents.nodup
  rows := hrows
  size := hsize

private theorem Listable.roundTrip_eq (h : m.Listable) : m.roundTrip = .ok m.recompressed := by
  have hsize := h.size
  rw [size_eq] at hsize
  exact ofCompressed_offered h.nodup h.inside h.rows hsize

private theorem Listable.compresses (h : m.Listable) : Compresses m.recompressed m := by
  have hperm : m.recompressed.entries.Perm m.entries := by
    rw [recompressed, entries_columns]
    exact ofColumns_ofEntries_perm h.nodup fun e he => (h.inside e he).2
  exact {
    numRows := rfl
    numColumns := by simp [recompressed, compressed, Compressed.ofEntries, numColumns]
    size := by rw [size_eq, size_eq, hperm.length_eq]
    entries := hperm
    appended := rfl
    ascends := ascends_ofEntries m.numRows m.numColumns h.nodup }

omit [Scalar α] in
private theorem Compresses.listable (hm : Compresses m' m) (h : m.Listable) : m'.Listable where
  inside e he := by
    rw [hm.numRows, hm.numColumns]
    exact h.inside e (hm.entries.mem_iff.mp he)
  nodup := (hm.entries.map _).nodup_iff.mpr h.nodup
  rows e he := h.rows e (hm.entries.mem_iff.mp he)
  size := hm.size ▸ h.size

private theorem Compresses.recompressed_eq (h : Compresses m' m) : m'.recompressed = m' := by
  obtain ⟨n, runs, appended⟩ := m'
  obtain rfl : appended = [] := h.appended
  have hruns : (Compressed.ofEntries n runs.length (ofColumns 0 runs)).columns = runs :=
    ofEntries_ofColumns h.ascends
  rw [recompressed, compressed, entries_columns]
  exact congrArg (SparseMatrix.mk n · []) hruns

/-- A table whose entries that are not zero are entries of a matrix holds just these. -/
theorem Listable.ofTable_eq (h : m.Listable)
    (hes : ∀ e ∈ ofRows 0 (nonzeroRuns m.dense), e ∈ m.entries) :
    ∃ d, ofTable m.table = .ok d ∧ d.numRows = m.numRows ∧ d.numColumns = m.numColumns ∧
      d.entries.Perm (ofRows 0 (nonzeroRuns m.dense)) := by
  set es := ofRows 0 (nonzeroRuns m.dense)
  have hnodup : (es.map Entry.place).Nodup := nodup_nonzeroRuns m.dense
  have hlength : es.length ≤ m.entries.length := (hnodup.of_map.subperm hes).length_le
  have hsize := h.size
  rw [size_eq] at hsize
  have hrows : m.table.rows.length = m.numRows := by simp [table, dense]
  have htable : ofTable m.table = ofCompressed
      ⟨m.numRows, offered (Compressed.ofEntries m.numRows m.numColumns es).columns⟩ := by
    rw [← columns_ofEntries_offered hnodup, ofTable, hrows, table, nonzeros_finite]
    rfl
  refine ⟨_, htable.trans (ofCompressed_offered hnodup (fun e he => h.inside e (hes e he))
    (fun e he => h.rows e (hes e he)) (hlength.trans_lt hsize)), rfl, ?_, ?_⟩
  · simp [Compressed.ofEntries, numColumns]
  · rw [entries_columns]
    exact ofColumns_ofEntries_perm hnodup fun e he => (h.inside e (hes e he)).2

omit [Scalar α] in
theorem Agrees.value_unique (h : Agrees m c) {i j : ℕ} {v w : α} (hv : ⟨i, j, v⟩ ∈ m.entries)
    (hw : ⟨i, j, w⟩ ∈ m.entries) : v = w := by
  have hlookup := (h.represents.lookup i j (.finite v)).mpr ⟨v, rfl, hv⟩
  rw [(h.represents.lookup i j (.finite w)).mpr ⟨w, rfl, hw⟩] at hlookup
  exact Extended.finite.inj (Option.some.inj hlookup).symm

variable [Scalar.AddsZero α]

private theorem Agrees.valueAt_cases (h : Agrees m c) (i j : ℕ) :
    (⟨i, j, valueAt m.entries i j⟩ ∈ m.entries ∧ (valueAt m.entries i j == 0) = false) ∨
      (∀ v, ⟨i, j, v⟩ ∈ m.entries → (v == 0) = true) ∧ valueAt m.entries i j = 0 := by
  have hvalue := h.represents.valueAt_eq i j
  cases hlookup : c.values.lookup (i, j) with
  | none =>
      rw [hlookup] at hvalue
      refine .inr ⟨fun v hv => ?_, hvalue⟩
      rw [(h.represents.lookup i j _).mpr ⟨v, rfl, hv⟩] at hlookup
      cases hlookup
  | some w =>
      obtain ⟨v, rfl, hmem⟩ := (h.represents.lookup i j w).mp hlookup
      have hsum : valueAt m.entries i j = 0 + v := by rw [hvalue, hlookup]
      cases hzero : v == 0 with
      | false =>
          rw [hsum, Scalar.AddsZero.add_of_ne hzero]
          exact .inl ⟨hmem, hzero⟩
      | true =>
          refine .inr ⟨fun w hw => ?_, hsum.trans (Scalar.AddsZero.add_of_eq hzero)⟩
          rwa [h.value_unique hw hmem]

private theorem Agrees.valueAt_of_mem (h : Agrees m c) {e : Entry α} (he : e ∈ m.entries)
    (hne : (e.value == 0) = false) : valueAt m.entries e.row e.column = e.value := by
  rcases h.valueAt_cases e.row e.column with ⟨hmem, -⟩ | ⟨hzero, -⟩
  · exact h.value_unique hmem he
  · rw [hzero e.value he] at hne
    cases hne

private theorem Agrees.mem_nonzeroRuns (h : Agrees m c) (e : Entry α) :
    e ∈ ofRows 0 (nonzeroRuns m.dense) ↔ e ∈ m.entries ∧ (e.value == 0) = false := by
  rw [mem_nonzeroRuns_dense]
  constructor
  · rintro ⟨-, hvalue, hne⟩
    rcases h.valueAt_cases e.row e.column with ⟨hmem, -⟩ | ⟨-, hzero⟩
    · rw [hvalue] at hmem
      exact ⟨hmem, hne⟩
    · rw [← hvalue, hzero, Scalar.AddsZero.zero_beq] at hne
      cases hne
  · rintro ⟨he, hne⟩
    exact ⟨h.inside e he, h.valueAt_of_mem he hne, hne⟩

/-- Two matrices of one shape look the same just if they hold the same, but for zeros. -/
theorem Agrees.dense_eq_iff {c' : Coordinates α} (h : Agrees m c) (h' : Agrees m' c')
    (hrows : m'.numRows = m.numRows) (hcolumns : m'.numColumns = m.numColumns) :
    m'.dense = m.dense ↔
      ∀ e : Entry α, (e.value == 0) = false → (e ∈ m'.entries ↔ e ∈ m.entries) := by
  constructor
  · intro heq e hne
    have hmem := (h.mem_nonzeroRuns e).symm.trans (heq ▸ h'.mem_nonzeroRuns e)
    simpa only [hne, and_true, iff_comm] using hmem
  · intro hsame
    have hvalue (i j : ℕ) : valueAt m'.entries i j = valueAt m.entries i j := by
      rcases h'.valueAt_cases i j with ⟨hmem, hne⟩ | ⟨hzeros, hzero⟩
      · exact (h.valueAt_of_mem ((hsame _ hne).mp hmem) hne).symm
      · rcases h.valueAt_cases i j with ⟨hmem, hne⟩ | ⟨-, hzero'⟩
        · rw [hzeros _ ((hsame _ hne).mpr hmem)] at hne
          cases hne
        · rw [hzero, hzero']
    simp only [dense, hrows, hcolumns, hvalue]

/-- However a matrix was made and grown, it comes back from its compressed columns with the same
entries, zeros too, in the same shape, and then comes back as it is. From its table it comes back
with the entries that are not zero. -/
theorem Follows.round_trips (h : Follows m c) (hrows : ∀ e ∈ m.entries, e.row < 2 ^ 62)
    (hsize : m.size < 2 ^ 62) :
    (∃ m', m.roundTrip = .ok m' ∧ Compresses m' m ∧ m'.roundTrip = .ok m') ∧
      (0 < m.numRows → 0 < m.numColumns → ∃ d, SparseMatrix.ofTable m.table = .ok d ∧
        d.numRows = m.numRows ∧ d.numColumns = m.numColumns ∧
        d.entries.Perm (m.entries.filter fun e => !(e.value == 0))) := by
  have hagrees := h.agrees
  have hlistable : m.Listable :=
    hagrees.listable (fun e he => (hrows e he).trans (by norm_num)) (hsize.trans (by norm_num))
  refine ⟨⟨m.recompressed, hlistable.roundTrip_eq, hlistable.compresses, ?_⟩, fun _ _ => ?_⟩
  · rw [(hlistable.compresses.listable hlistable).roundTrip_eq,
      hlistable.compresses.recompressed_eq]
  · have hmem := hagrees.mem_nonzeroRuns
    obtain ⟨d, hd, hshape, hcolumns, hperm⟩ :=
      hlistable.ofTable_eq fun e he => ((hmem e).mp he).1
    refine ⟨d, hd, hshape, hcolumns, hperm.trans ?_⟩
    refine (List.perm_ext_iff_of_nodup (nodup_nonzeroRuns m.dense).of_map
      (hlistable.nodup.of_map.filter _)).mpr fun e => ?_
    rw [hmem, List.mem_filter, Bool.not_eq_true']

/-- A matrix with an entry in an appended row and, in a column that came later, two zeros in
descending order of their rows. -/
theorem Follows.round_trips_sample :
    let m : SparseMatrix Float := ⟨1, [[(0, 5)], [(1, 0), (0, -0)]], [[(0, 2)]]⟩
    (∃ m', m.roundTrip = .ok m' ∧ Compresses m' m ∧ m'.roundTrip = .ok m') ∧
      ∃ d, SparseMatrix.ofTable m.table = .ok d ∧
        d.entries.Perm [⟨0, 0, 5⟩, ⟨1, 0, 2⟩] := by
  intro m
  let built : SparseMatrix Float := ⟨1, [[(0, 5)]], []⟩
  let grown : SparseMatrix Float := ⟨1, [[(0, 5)]], [[(0, 2)]]⟩
  have hbuilt := @Follows.build Float _ (.ok (.integers [0, 1])) (.ok (.integers [0]))
    (.ok (.numbers [.finite 5])) none built rfl (smallStarts_integers.mpr (by simp))
  have hgrown := @Follows.call Float _ built grown _
    (.appendRows (.ok [.ok ⟨.ok (.integers [0]), .ok [.finite 2]⟩])) () hbuilt trivial ⟨rfl, rfl⟩
  have hfollows := @Follows.call Float _ grown m _
    (.appendColumns (.ok (.integers [0, 2])) (.ok (.integers [1, 0]))
      (.ok (.numbers [.finite 0, .finite (-0)]))) () hgrown (smallStarts_integers.mpr (by simp))
        ⟨rfl, rfl⟩
  have hrows : ∀ e ∈ m.entries, e.row < 2 ^ 62 := by simp [m, entries]
  obtain ⟨hcopy, htable⟩ := hfollows.round_trips hrows (by decide)
  obtain ⟨d, hd, -, -, hentries⟩ := htable (by decide) (by decide)
  have hnonzero : m.entries.filter (fun e => !(e.value == 0)) = [⟨0, 0, 5⟩, ⟨1, 0, 2⟩] := by
    decide +kernel
  exact ⟨hcopy, d, hd, hnonzero ▸ hentries⟩

end SparseMatrix

end IncrementalLP
