import IncrementalLP.Proofs.Instance.Feasible
import IncrementalLP.Proofs.Instance.Tables
import IncrementalLP.Proofs.Matrix.Builds
import IncrementalLP.Proofs.Matrix.Views
import IncrementalLP.Reading.Arrays
/-!
# Loading from column layouts

Which rows and columns are accepted with a matrix that can be built, and what the instance holds
then.
-/
namespace IncrementalLP

theorem Column.usable_iff {c : Column ℚ} :
    c.Usable ↔ (∃ x, c.lower.AtMost x ∧ c.upper.AtLeast x) ∧ c.objective.isFinite = true := by
  obtain ⟨objective, lower, upper, name⟩ := c
  constructor
  · rintro ⟨⟨hlower, hlower'⟩, ⟨hupper, hupper'⟩, horder, hobjective⟩
    refine ⟨?_, hobjective⟩
    cases lower with
    | nan => exact absurd rfl hlower
    | posInf => exact absurd rfl hlower'
    | negInf =>
        cases upper with
        | nan => exact absurd rfl hupper
        | negInf => exact absurd rfl hupper'
        | posInf => exact ⟨0, trivial, trivial⟩
        | finite u => exact ⟨u, trivial, le_refl u⟩
    | finite l =>
        cases upper with
        | nan => exact absurd rfl hupper
        | negInf => exact absurd rfl hupper'
        | posInf => exact ⟨l, le_refl l, trivial⟩
        | finite u => exact ⟨l, le_refl l, not_lt.mp (of_decide_eq_false horder)⟩
  · rintro ⟨⟨x, hlower, hupper⟩, hobjective⟩
    have hnumbers : (lower ≠ .nan ∧ lower ≠ .posInf) ∧ upper ≠ .nan ∧ upper ≠ .negInf := by
      cases lower <;> cases upper <;> simp_all [Extended.AtMost, Extended.AtLeast]
    refine ⟨hnumbers.1, hnumbers.2, ?_, hobjective⟩
    cases lower with
    | nan => exact hlower.elim
    | posInf => exact hlower.elim
    | negInf => cases upper <;> rfl
    | finite l =>
        cases upper with
        | nan => exact hupper.elim
        | negInf => exact hupper.elim
        | posInf => rfl
        | finite u => exact decide_eq_false (not_lt.mpr (le_trans hlower hupper))

theorem Names.index_eq_ok_iff {α β : Type} {kind : EntityKind} {nameOf : β → Option String}
    {l : List β} {table : Names.Table} :
    Names.index (α := α) kind [] 0 (l.map nameOf) = .ok table ↔
      (l.filterMap nameOf).Nodup ∧ table = Names.located 0 (l.map nameOf) := by
  have hreduce : (l.map nameOf).reduceOption = l.filterMap nameOf := by
    rw [List.reduceOption, List.filterMap_map]
    rfl
  simp [Names.index, Names.enter_eq_ok_iff, hreduce]

namespace SparseMatrix

variable {α : Type}

private theorem ofColumns_offered (k : ℕ) (runs : Runs α) :
    ofColumns k (offered runs) =
      (ofColumns k runs).map fun e => ⟨e.row, e.column, .finite e.value⟩ := by
  simp only [ofColumns, Runs.owned, offered, List.zipIdx_map, List.flatMap_map, List.map_flatMap,
    List.map_map, Function.comp_def, Prod.map, id]

private theorem ofColumns_eq_nil {k : ℕ} {runs : Runs α} (h : runs.flatten = []) :
    ofColumns k runs = [] := by
  rw [← List.length_eq_zero_iff, ofColumns, List.length_map, Runs.length_owned, Runs.size, h,
    List.length_nil]

private theorem flatten_slices_nil (starts : List ℕ) :
    (Runs.slices starts ([] : List α)).flatten = [] := by
  induction starts with
  | nil => rfl
  | cons a starts ih =>
      cases starts with
      | nil => rfl
      | cons b starts => rw [Runs.slices, List.flatten_cons, ih, List.drop_nil, List.take_nil]; rfl

variable [Scalar α]

private theorem entries_of_build {s r : List Int64} {v : List (Extended α)}
    {stated : Option (Ordinal α)} {m : SparseMatrix α}
    (h : build (.ok (.integers s)) (.ok (.integers r)) (.ok (.numbers v)) (.ok stated) = .ok m) :
    m.entries.map (fun e => ⟨e.row, e.column, .finite e.value⟩) =
      ofColumns 0 (givenColumns (.ok (.integers s)) (.ok (.integers r)) (.ok (.numbers v))) := by
  obtain ⟨_, _, xs, _, count, columns, n, ⟨⟩, ⟨⟩, hv, -, -, hchecked, -, rfl⟩ := build_eq_ok.mp h
  obtain rfl := ValueArray.numbers.inj (Except.ok.inj hv)
  rw [entries_columns, ← ofColumns_offered]
  rcases eq_or_ne r [] with rfl | hrows
  · -- no entries are given, wherever the columns start
    obtain ⟨-, -, -, hcut⟩ := checkedRuns_eq_ok.mp hchecked
    have hstored : (columns.map (·.map fun e => (e.1, Extended.finite e.2))).flatten = [] := by
      rw [← hcut, cutRuns, List.zip_nil_left, ← List.map_flatten, List.map_eq_nil_iff]
      show (List.map (List.map _) _).flatten = []
      rw [← List.map_flatten, Runs.flatten_cut, List.take_nil, List.map_nil]
    rw [offered, ofColumns_eq_nil hstored, givenColumns, List.map_nil, List.zip_nil_left,
      ofColumns_eq_nil (flatten_slices_nil _)]
  · rw [slices_of_ascends (ascends_of_entries hrows hchecked) hchecked, givenColumns,
      List.zip_map_right, Runs.slices_map]
    rfl

end SparseMatrix

private theorem Sense.exists_name {text : String} :
    (∃ sense : Sense, text = sense.name) ↔ text = "min" ∨ text = "max" := by
  constructor
  · rintro ⟨_ | _, rfl⟩
    · exact .inl rfl
    · exact .inr rfl
  · rintro (rfl | rfl)
    · exact ⟨.min, rfl⟩
    · exact ⟨.max, rfl⟩

namespace Instance

variable {α : Type} {i j : Instance α}

private theorem checkSense_text {text : String} {sense : Sense} :
    checkSense (α := α) (Reading.sense (.text text)) = .ok sense ↔ text = sense.name := by
  show checkSense (((Sense.ofName? text).map .ok).getD (.error text)) = .ok sense ↔ _
  unfold Sense.ofName?
  split
  · next h =>
    rw [h]
    cases sense <;> simp [checkSense, Sense.name]
  · next hmin =>
    split
    · next h =>
      rw [h]
      cases sense <;> simp [checkSense, Sense.name]
    · next hmax => cases sense <;> simp [checkSense, Sense.name, hmin, hmax]

variable [Scalar α]

/-- When a matrix that can be read is loaded, and what the instance is then. -/
theorem load_returns_iff {d : Description α} {text : String}
    (hsense : d.sense = Reading.sense (.text text)) {m : SparseMatrix α}
    (hm : d.matrix.read = .ok m) :
    (load d).Returns i j () ↔
      m.numColumns = d.columns.length ∧ m.numRows ≤ d.rows.length ∧ (∀ r ∈ d.rows, r.Usable) ∧
        (∀ c ∈ d.columns, c.Usable) ∧ (d.rows.filterMap (·.name)).Nodup ∧
        (d.columns.filterMap (·.name)).Nodup ∧ ∃ sense : Sense, text = sense.name ∧
        j = { i with
          name := d.name
          sense := sense
          matrix := m.padRows d.rows.length
          loaded := true
          rows := d.rows
          columns := d.columns
          rowTable := Names.located 0 (d.rows.map (·.name))
          columnTable := Names.located 0 (d.columns.map (·.name))
          progress := .unsolved
          lastStatus := none
          basis := none } := by
  simp only [load_returns, hsense, checkSense_text, hm, Row.checkEach_eq_ok,
    Column.checkEach_eq_ok, Names.index_eq_ok_iff]
  constructor
  · rintro ⟨sense, _, _, _, htext, ⟨⟩, hcolumns, hrows, husable, husable', ⟨hnames, rfl⟩,
      ⟨hnames', rfl⟩, rfl⟩
    exact ⟨hcolumns, hrows, husable, husable', hnames, hnames', sense, htext, rfl⟩
  · rintro ⟨hcolumns, hrows, husable, husable', hnames, hnames', sense, htext, rfl⟩
    exact ⟨sense, m, _, _, htext, rfl, hcolumns, hrows, husable, husable', ⟨hnames, rfl⟩,
      ⟨hnames', rfl⟩, rfl⟩

/-- Whatever the instance holds, a matrix that can be built is loaded with rows and columns just if
the sense is one, the sizes go together, all rows are usable, the bounds of each column enclose a
number and its cost is one, and no name is given twice to rows or twice to columns. Then the
instance holds the rows and the columns in order and the entries of the matrix, which are those that
are given between the starts, finds each name at its ordinal, and knows of no solve. -/
theorem load_of_layout (i : Instance ℚ) (name text : String) (rows : List (Row ℚ))
    (columns : List (Column ℚ)) {s r : List Int64} {v : List (Extended ℚ)}
    {stated : Option (Ordinal ℚ)} {m : SparseMatrix ℚ}
    (hm : SparseMatrix.build (.ok (.integers s)) (.ok (.integers r)) (.ok (.numbers v))
      (.ok stated) = .ok m) :
    let d : Description ℚ := ⟨name, Reading.sense (.text text), rows, columns,
      .layout (.ok (.integers s)) (.ok (.integers r)) (.ok (.numbers v)) (.ok stated)⟩
    ((∃ j, (load d).Returns i j ()) ↔
        (text = "min" ∨ text = "max") ∧ m.numColumns = columns.length ∧
          m.numRows ≤ rows.length ∧ (∀ r ∈ rows, r.Usable) ∧
          (∀ c ∈ columns,
            (∃ x, c.lower.AtMost x ∧ c.upper.AtLeast x) ∧ c.objective.isFinite = true) ∧
          (rows.filterMap (·.name)).Nodup ∧ (columns.filterMap (·.name)).Nodup) ∧
      ∀ j, (load d).Returns i j () →
        (j.loaded = true ∧ j.name = name ∧ j.sense.name = text ∧ j.rows = rows ∧
            j.columns = columns) ∧
          (j.matrix.numRows = rows.length ∧ j.matrix.numColumns = columns.length ∧
            j.matrix.entries = m.entries ∧
            j.matrix.entries.map (fun e => ⟨e.row, e.column, .finite e.value⟩) =
              SparseMatrix.ofColumns 0 (SparseMatrix.givenColumns (.ok (.integers s))
                (.ok (.integers r)) (.ok (.numbers v)))) ∧
          ((∀ (t : String) (k : ℕ), Names.ordinal? j.rowTable t = some k ↔
              (rows.map (·.name))[k]? = some (some t)) ∧
            ∀ (t : String) (k : ℕ), Names.ordinal? j.columnTable t = some k ↔
              (columns.map (·.name))[k]? = some (some t)) ∧
          j.progress = .unsolved ∧ j.lastStatus = none ∧ j.basis = none := by
  intro d
  have hiff {j : Instance ℚ} := load_returns_iff (i := i) (j := j) (d := d) rfl hm
  simp only [Column.usable_iff] at hiff
  refine ⟨⟨?_, ?_⟩, fun j h => ?_⟩
  · rintro ⟨j, h⟩
    obtain ⟨hcolumns, hrows, husable, husable', hnames, hnames', sense, htext, -⟩ := hiff.mp h
    exact ⟨Sense.exists_name.mp ⟨sense, htext⟩, hcolumns, hrows, husable, husable', hnames, hnames'⟩
  · rintro ⟨htext, hcolumns, hrows, husable, husable', hnames, hnames'⟩
    obtain ⟨sense, htext⟩ := Sense.exists_name.mpr htext
    exact ⟨_, hiff.mpr ⟨hcolumns, hrows, husable, husable', hnames, hnames', sense, htext, rfl⟩⟩
  · have hindexed : j.Indexed := Indexed.load h
    obtain ⟨hcolumns, hrows, -, -, -, -, sense, htext, rfl⟩ := hiff.mp h
    refine ⟨⟨rfl, rfl, htext.symm, rfl, rfl⟩,
      ⟨SparseMatrix.numRows_padRows hrows, (SparseMatrix.numColumns_padRows m _).trans hcolumns,
        SparseMatrix.entries_padRows m _, ?_⟩,
      ⟨hindexed.rows.ordinal?, hindexed.columns.ordinal?⟩, rfl, rfl, rfl⟩
    rw [SparseMatrix.entries_padRows]
    exact SparseMatrix.entries_of_build hm

/-- A row that keeps nothing out and a range row, with one variable that may be any number; and the
same parts with a direction that is none. -/
theorem load_of_layout_sample :
    let rows : List (Row ℚ) :=
      [⟨.atLeast, .negInf, some "open"⟩, ⟨.range (.finite 2), .finite 5, none⟩]
    let columns : List (Column ℚ) := [⟨.finite 1, .negInf, .posInf, some "x"⟩]
    let source : MatrixSource ℚ := .layout (.ok (.integers [0, 1])) (.ok (.integers [0]))
      (.ok (.numbers [.finite 7])) (.ok none)
    (∃ j, (load ⟨"small", Reading.sense (.text "max"), rows, columns, source⟩).Returns
        (declare 0 "small") j () ∧ Names.ordinal? j.rowTable "open" = some 0 ∧
        j.matrix.numRows = 2 ∧ j.matrix.entries = [⟨0, 0, 7⟩]) ∧
      ¬ ∃ j, (load ⟨"small", Reading.sense (.text "up"), rows, columns, source⟩).Returns
        (declare 0 "small") j () := by
  intro rows columns source
  have hm : source.read = .ok ⟨1, [[(0, 7)]], []⟩ := rfl
  obtain ⟨hiff, hloaded⟩ := load_of_layout (declare 0 "small") "small" "max" rows columns hm
  have hrows : ∀ r ∈ rows, r.Usable := by simp [rows, Row.Usable, Extended.isFinite]
  have hcolumns : ∀ c ∈ columns,
      (∃ x, c.lower.AtMost x ∧ c.upper.AtLeast x) ∧ c.objective.isFinite = true := by
    simp only [columns, List.forall_mem_singleton]
    exact ⟨⟨0, trivial, trivial⟩, rfl⟩
  obtain ⟨j, hj⟩ := hiff.mpr ⟨.inr rfl, rfl, by decide, hrows, hcolumns, by decide, by decide⟩
  obtain ⟨-, ⟨hrows, -, hentries, -⟩, ⟨hnames, -⟩, -⟩ := hloaded j hj
  refine ⟨⟨j, hj, (hnames "open" 0).mpr rfl, hrows, hentries⟩, fun hup => ?_⟩
  exact absurd ((load_of_layout (declare 0 "small") "small" "up" rows columns hm).1.mp hup).1
    (by decide)

end Instance

end IncrementalLP
