import IncrementalLP.Proofs.Instance.Loading
import IncrementalLP.Proofs.Matrix.RoundTrips
import IncrementalLP.Proofs.Reading.Written
import IncrementalLP.Reading.Models
/-!
# Documents of problems

A document holds the rows and columns of a problem, and the layout of the columns of its matrix with
the number of all its rows. What is loaded from it is what is loaded from the problem, except for
the entries that came with appended rows.
-/
namespace IncrementalLP

namespace Reading

private theorem positionKind_int {n : ℕ} (h : n < 2 ^ 63) : positionKind (.int n) = .signed := by
  have hle : Int64.minValue.toInt ≤ (n : ℤ) ∧ (n : ℤ) ≤ Int64.maxValue.toInt := by
    rw [Int64.toInt_minValue, Int64.toInt_maxValue]
    omega
  rw [positionKind, if_pos hle]

private theorem positions_int {ns : List ℕ} (h : ∀ n ∈ ns, n < 2 ^ 63) :
    positions ((ns.map Int.ofNat).map .int) = .integers (ns.map Int64.ofNat) := by
  have hkinds : ((ns.map Int.ofNat).map Value.int).map positionKind =
      ns.map fun _ => .signed := by
    rw [List.map_map, List.map_map]
    exact List.map_congr_left fun n hn => positionKind_int (h n hn)
  have hwords : ((ns.map Int.ofNat).map Value.int).map (fun v => Int64.ofInt (intOf v)) =
      ns.map Int64.ofNat := by
    rw [List.map_map, List.map_map]
    exact List.map_congr_left fun n _ => Int64.ofInt_eq_ofNat
  unfold positions
  rw [hkinds, hwords]
  cases ns with
  | nil => rfl
  | cons n ns => simp

end Reading

namespace SparseMatrix

section

variable {α : Type} {m : SparseMatrix α}

/-- The matrix without the entries that came with appended rows. -/
def columnsOnly (m : SparseMatrix α) : SparseMatrix α := ⟨m.numRows, m.columns, []⟩

private theorem exists_entry {i : ℕ} (hi : i ∈ m.columns.positions) :
    ∃ e ∈ m.entries, e.row = i := by
  obtain ⟨e, he, hrow⟩ := exists_of_mem_positions 0 hi
  rw [entries_eq]
  exact ⟨e, List.mem_append_left _ he, hrow⟩

private theorem Listable.fits (h : m.Listable) :
    ∀ run ∈ m.columns, (run.map (·.1)).Nodup ∧ ∀ e ∈ run, e.1 < m.numRows := by
  have hnodup := h.nodup
  rw [entries_eq, List.map_append] at hnodup
  intro run hrun
  refine ⟨(nodup_ofColumns 0 m.columns).mp (List.nodup_append.mp hnodup).1 run hrun, ?_⟩
  intro e he
  obtain ⟨e', he', heq⟩ := exists_entry (Runs.mem_positions hrun he)
  rw [← heq]
  exact (h.inside e' he').1

private theorem Listable.agrees_columnsOnly (h : m.Listable) : Agrees m.columnsOnly
    ((Coordinates.blank m.numRows 0).appendColumns (offered m.columns)) :=
  (Agrees.blank m.numRows 0).appendColumns h.fits

private theorem shape_columnsOnly {n : ℕ} (hle : m.numRows ≤ n) :
    (m.columnsOnly.padRows n).numRows = (m.padRows n).numRows ∧
      (m.columnsOnly.padRows n).numColumns = (m.padRows n).numColumns := by
  have hle' : m.columnsOnly.numRows ≤ n := hle
  rw [numRows_padRows hle', numRows_padRows hle, numColumns_padRows, numColumns_padRows]
  exact ⟨rfl, rfl⟩

/-- Without the entries that came with appended rows a matrix looks the same just if they are
zeros. -/
theorem Listable.dense_columnsOnly_iff [Scalar α] [Scalar.AddsZero α] {c : Coordinates α}
    (h : m.Listable) (hagrees : Agrees m c) {n : ℕ} (hle : m.numRows ≤ n) :
    (m.columnsOnly.padRows n).dense = (m.padRows n).dense ↔
      ∀ run ∈ m.appended, ∀ e ∈ run, (e.2 == 0) = true := by
  obtain ⟨hrows, hcolumns⟩ := shape_columnsOnly hle
  have hdense :=
    (hagrees.padRows hle).dense_eq_iff (h.agrees_columnsOnly.padRows hle) hrows hcolumns
  have hentries := m.entries_eq
  rw [hdense, entries_padRows, entries_padRows, columnsOnly, entries_columns, hentries]
  constructor
  · intro hsame run hrun e he
    obtain ⟨k, hk⟩ := List.getElem?_of_mem hrun
    have hmem : (⟨m.baseRows + k, e.1, e.2⟩ : Entry α) ∈ ofRows m.baseRows m.appended :=
      mem_ofRows.mpr ⟨Nat.le_add_right _ _, run, by rwa [Nat.add_sub_cancel_left], he⟩
    by_contra hne
    -- the entry would be in a column too
    have hcolumn := (hsame _ (eq_false_of_ne_true hne)).mpr (List.mem_append_right _ hmem)
    have hnodup := h.nodup
    rw [hentries, List.map_append] at hnodup
    exact List.disjoint_of_nodup_append hnodup (List.mem_map_of_mem hcolumn)
      (List.mem_map_of_mem hmem)
  · intro hzeros e hne
    rw [List.mem_append, iff_self_or]
    intro he
    obtain ⟨-, run, hrun, hmem⟩ := mem_ofRows.mp he
    rw [hzeros run (List.mem_of_getElem? hrun) _ hmem] at hne
    cases hne

end

private theorem Listable.layout_source_read {m : SparseMatrix Float} (h : m.Listable)
    (hfinite : ∀ v ∈ m.columns.values, Scalar.isFinite v = true) :
    m.layout.source.read = .ok m.columnsOnly := by
  have hsize : m.columns.size < 2 ^ 63 := (Nat.le_add_right _ _).trans_lt h.size
  have hpositions : ∀ i ∈ m.columns.positions, i < 2 ^ 63 := by
    intro i hi
    obtain ⟨e, he, rfl⟩ := exists_entry hi
    exact h.rows e he
  have hstarts : ∀ n ∈ m.columns.starts, n < 2 ^ 63 := by
    intro n hn
    have := Runs.le_of_mem_startsFrom hn
    omega
  have hvalues : m.columns.values.map Extended.ofScalar = m.columns.values.map .finite :=
    List.map_congr_left fun v hv => if_pos (hfinite v hv)
  have hread : m.layout.source.read = ofCompressed ⟨m.numRows, offered m.columns⟩ := by
    rw [ofCompressed, starts_offered, positions_offered, values_offered, ← hvalues,
      ColumnLayout.source, layout, Reading.positions_int hstarts,
      Reading.positions_int hpositions]
    rfl
  rw [hread, ofCompressed_eq_ok (by rwa [size_offered]) (by rwa [positions_offered])]
  exact ⟨m.columns, rfl, runsFit_whole.mpr h.fits, rfl⟩

end SparseMatrix

open SparseMatrix

/-- The rows have proper widths, and only floats that are numbers are listed as such. -/
structure ProblemParts.Writable (p : ProblemParts Float) : Prop where
  rows : ∀ r ∈ p.rows, r.Proper ∧ r.rhs.Sorted ∧ ∀ w ∈ r.sense.width?, w.Sorted
  columns : ∀ c ∈ p.columns, c.objective.Sorted ∧ c.lower.Sorted ∧ c.upper.Sorted
  values : ∀ e ∈ p.matrix.entries, Scalar.isFinite e.value = true

/-- Two rows, of which the second was appended with an entry of its own. -/
def Sample.grown : ProblemParts Float where
  rows := [⟨.atMost, .finite 4, none⟩, ⟨.atMost, .finite 3, none⟩]
  columns := [⟨.finite 1, .finite 0, .posInf, none⟩]
  matrix := ⟨1, [[(0, 1)]], [[(0, 2)]]⟩

private theorem Sample.grown_writable : grown.Writable where
  rows := by decide +kernel
  columns := by decide +kernel
  values := by decide +kernel

namespace ProblemParts

variable {p : ProblemParts Float} {c : Coordinates Float} {i j : Instance Float}

/-- What a document says of a problem. -/
structure Says (v : Value) (p : ProblemParts Float) : Prop where
  rows : Reading.list Reading.row (Reading.part v "rows") = .ok p.rows
  columns : Reading.list Reading.column (Reading.part v "columns") = .ok p.columns
  matrix : Reading.layout (Reading.part v "matrix") = .ok p.matrix.layout

private theorem Writable.document (hp : p.Writable) (name sense : String) :
    Says (p.document name sense) p where
  rows := Reading.list_map fun r hr =>
    let ⟨hproper, hrhs, hwidth⟩ := hp.rows r hr
    Reading.row_toValue hproper hrhs hwidth
  columns := Reading.list_map fun c hc =>
    let ⟨hobjective, hlower, hupper⟩ := hp.columns c hc
    Reading.column_toValue hobjective hlower hupper
  matrix := by
    refine Reading.layout_toValue fun v hv => ?_
    obtain ⟨x, -, rfl⟩ := List.mem_map.mp hv
    exact Extended.sorted_ofScalar x

private theorem Writable.values_isFinite (hp : p.Writable) :
    ∀ v ∈ p.matrix.columns.values, Scalar.isFinite v = true := by
  intro v hv
  rw [← map_value_ofColumns 0] at hv
  obtain ⟨e, he, rfl⟩ := List.mem_map.mp hv
  refine hp.values e ?_
  rw [entries_eq]
  exact List.mem_append_left _ he

/-- From the layout the same is loaded as from the matrix, but for the matrix itself. -/
theorem load_layout {name : String} {sense : Except String Sense}
    (hload : (Instance.load ⟨name, sense, p.rows, p.columns, .held p.matrix⟩).Returns i j ()) :
    (j.matrix = p.matrix.padRows p.rows.length ∧ p.matrix.numRows ≤ p.rows.length) ∧
      (p.matrix.layout.source.read = .ok p.matrix.columnsOnly →
        (Instance.load ⟨name, sense, p.rows, p.columns, p.matrix.layout.source⟩).Returns i
          { j with matrix := p.matrix.columnsOnly.padRows p.rows.length } ()) := by
  obtain ⟨s, m, rowTable, columnTable, hsense, hm, hcolumns, hrows, hcheck, hcheck', hnames,
    hnames', rfl⟩ := Instance.load_returns.mp hload
  obtain rfl := Except.ok.inj hm
  exact ⟨⟨rfl, hrows⟩, fun hread => Instance.load_returns.mpr ⟨s, _, rowTable, columnTable, hsense,
    hread, hcolumns, hrows, hcheck, hcheck', hnames, hnames', rfl⟩⟩

/-- Whatever the document of a problem is called, its rows and columns are read back as they were,
and what is loaded from it is what is loaded from the problem, but for the matrix: entries that came
with appended rows are missing. The two matrices look the same just if all of these are zeros. -/
theorem document_reloads (hp : p.Writable) (hm : Follows p.matrix c)
    (hrows : p.rows.length < 2 ^ 63) (hsize : p.matrix.size < 2 ^ 63)
    {name : String} {sense : Except String Sense}
    (hload : (Instance.load ⟨name, sense, p.rows, p.columns, .held p.matrix⟩).Returns i j ())
    (label direction : String) :
    ∃ rows columns layout,
      Reading.list Reading.row (Reading.part (p.document label direction) "rows") = .ok rows ∧
      Reading.list Reading.column (Reading.part (p.document label direction) "columns") =
        .ok columns ∧
      Reading.layout (Reading.part (p.document label direction) "matrix") = .ok layout ∧
      ∃ matrix : SparseMatrix Float,
        (Instance.load ⟨name, sense, rows, columns, layout.source⟩).Returns i
          { j with matrix := matrix } () ∧
        matrix.numRows = j.matrix.numRows ∧ matrix.numColumns = j.matrix.numColumns ∧
        matrix.entries = ofColumns 0 p.matrix.columns ∧
        (matrix.dense = j.matrix.dense ↔
          ∀ run ∈ p.matrix.appended, ∀ e ∈ run, (e.2 == 0) = true) := by
  obtain ⟨hreadRows, hreadColumns, hreadMatrix⟩ := hp.document label direction
  obtain ⟨⟨hmatrix, hle⟩, hreload⟩ := load_layout hload
  have hagrees := hm.agrees
  have hlistable : p.matrix.Listable :=
    hagrees.listable (fun e he => (hagrees.inside e he).1.trans_le (hle.trans hrows.le)) hsize
  obtain ⟨hsameRows, hsameColumns⟩ := shape_columnsOnly hle
  refine ⟨p.rows, p.columns, p.matrix.layout, hreadRows, hreadColumns, hreadMatrix, _,
    hreload (hlistable.layout_source_read hp.values_isFinite), hmatrix ▸ hsameRows,
    hmatrix ▸ hsameColumns, ?_, hmatrix ▸ hlistable.dense_columnsOnly_iff hagrees hle⟩
  rw [entries_padRows, columnsOnly, entries_columns]

theorem document_reloads_sample :
    let p := Sample.grown
    ∃ j layout j', (Instance.load ⟨"grown", .ok .max, p.rows, p.columns, .held p.matrix⟩).Returns
        (.declare 0 "grown") j () ∧
      Reading.layout (Reading.part (p.document "grown" "max") "matrix") = .ok layout ∧
      (Instance.load ⟨"grown", .ok .max, p.rows, p.columns, layout.source⟩).Returns
        (.declare 0 "grown") j' () ∧ j'.rows = j.rows ∧ j'.matrix.dense ≠ j.matrix.dense := by
  intro p
  let built : SparseMatrix Float := ⟨1, [[(0, 1)]], []⟩
  have hbuilt := @Follows.build Float _ (.ok (.integers [0, 1])) (.ok (.integers [0]))
    (.ok (.numbers [.finite 1])) none built rfl (smallStarts_integers.mpr (by simp))
  have hgrown := @Follows.call Float _ built p.matrix _
    (.appendRows (.ok [.ok ⟨.ok (.integers [0]), .ok [.finite 2]⟩])) () hbuilt trivial ⟨rfl, rfl⟩
  have hload : (Instance.load ⟨"grown", .ok .max, p.rows, p.columns, .held p.matrix⟩).Returns
      (.declare 0 "grown") _ () := ⟨rfl, rfl⟩
  obtain ⟨rows, columns, layout, hrows, hcolumns, hlayout, matrix, hreload, -, -, -, hdense⟩ :=
    document_reloads Sample.grown_writable hgrown (by decide) (by decide) hload "grown" "max"
  obtain rfl := Validated.ok.inj ((Sample.grown_writable.document _ _).rows.symm.trans hrows)
  obtain rfl := Validated.ok.inj ((Sample.grown_writable.document _ _).columns.symm.trans hcolumns)
  refine ⟨_, layout, _, hload, hlayout, hreload, rfl, fun heq => ?_⟩
  exact absurd (hdense.mp heq) (by decide +kernel)

/-- The entry of the appended row is not in the document. -/
theorem document_loses_entry :
    let p := Sample.grown
    ∃ j layout j', (Instance.load ⟨"grown", .ok .max, p.rows, p.columns, .held p.matrix⟩).Returns
        (.declare 0 "grown") j () ∧
      Reading.layout (Reading.part (p.document "grown" "max") "matrix") = .ok layout ∧
      (Instance.load ⟨"grown", .ok .max, p.rows, p.columns, layout.source⟩).Returns
        (.declare 0 "grown") j' () ∧
      j.matrix.dense = [[1], [2]] ∧ j'.matrix.dense = [[1], [0]] :=
  ⟨_, _, _, ⟨rfl, rfl⟩, (Sample.grown_writable.document _ _).matrix, ⟨rfl, rfl⟩, by decide +kernel,
    by decide +kernel⟩

end ProblemParts

end IncrementalLP
