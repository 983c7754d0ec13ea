import IncrementalLP.Proofs.Instance.Changes
import IncrementalLP.Problem.Sample
import IncrementalLP.Proofs.Session.Solves
/-!
# Histories

Whatever calls an instance has gone through, successful or not, its matrix has the rows and
columns that it lists, and every row and column passes the checks of loading.
-/
namespace IncrementalLP

namespace Instance

/-- A call that may change an instance. With the columns that are added comes the number of their
starts. -/
inductive Operation (α : Type) where
  | load (d : Description α)
  | assignNames (kind : Except String EntityKind) (names : Offer (List Names.Given))
      (first last : ℤ)
  | addRow (row : Except Complaint (Row α)) (entries : Offer (RowEntries α))
  | addRows (rows : List (Row α)) (entries : Offer (List (Offer (RowEntries α))))
  | addColumns (columns : List (Column α)) (count : Offer ℕ) (starts rows : Offer IndexArray)
      (values : Offer (ValueArray α))
      (counted : ∀ v, starts = .ok (.integers v) → count = .ok v.length)
  | changeBounds (changes : Offer (List (Offer (BoundChange α))))
  | changeObjective (changes : Offer (List (Offer (CostChange α))))
  | changeSense (sense : Except String Sense)
  | solveCold (s : Session α) (o : Option (SolveOptions α))
  | solveWarm (s : Session α) (h : Option (BasisHandle α)) (o : Option (SolveOptions α))
  | solve (s : Session α) (o : Option (SolveOptions α))

/-- The instance after a call, whether it succeeds or fails. -/
def Operation.after {α : Type} [Scalar α] (i : Instance α) : Operation α → Instance α
  | .load d => (i.load d).state
  | .assignNames kind names first last => (i.assignNames kind names first last).state
  | .addRow row entries => (i.addRow row entries).state
  | .addRows rows entries => (i.addRows rows entries).state
  | .addColumns columns count starts rows values _ =>
    (i.addColumns columns count starts rows values).state
  | .changeBounds changes => (i.changeBounds changes).state
  | .changeObjective changes => (i.changeObjective changes).state
  | .changeSense sense => (i.changeSense sense).state
  | .solveCold s o => (Session.solveCold o (s, i)).state.2
  | .solveWarm s h o => (Session.solveWarm h o (s, i)).state.2
  | .solve s o => (Session.solve o (s, i)).state.2

/-- The instances that calls can lead to. -/
inductive Reachable : Instance ℚ → Prop
  | declare (token : ℕ) (name : String) : Reachable (.declare token name)
  | step {i : Instance ℚ} (op : Operation ℚ) : Reachable i → Reachable (op.after i)

/-- The parts of an instance fit each other, and each of them has a meaning. -/
structure Sound {α : Type} [Scalar α] (i : Instance α) : Prop where
  matrixRows : i.matrix.numRows = i.numRows
  matrixColumns : i.matrix.numColumns = i.numColumns
  rows : ∀ r ∈ i.rows, r.Usable
  columns : ∀ c ∈ i.columns, c.Usable

namespace Sound

variable {α : Type} [Scalar α] {i : Instance α}

private theorem of_same (hi : i.Sound) {j : Instance α} (hmatrix : j.matrix = i.matrix)
    (hrows : j.rows = i.rows) (hcolumns : j.columns = i.columns) : j.Sound where
  matrixRows := by rw [hmatrix, hi.matrixRows, numRows, numRows, hrows]
  matrixColumns := by rw [hmatrix, hi.matrixColumns, numColumns, numColumns, hcolumns]
  rows := by
    rw [hrows]
    exact hi.rows
  columns := by
    rw [hcolumns]
    exact hi.columns

theorem declare (token : ℕ) (name : String) :
    (Instance.declare token name : Instance α).Sound where
  matrixRows := rfl
  matrixColumns := rfl
  rows _ h := absurd h List.not_mem_nil
  columns _ h := absurd h List.not_mem_nil

private theorem load (hi : i.Sound) (d : Description α) : (i.load d).state.Sound := by
  refine (load_atomic d).state_induction hi fun h => ?_
  obtain ⟨hmatrixRows, hmatrixColumns, hrows, hcolumns⟩ := load_spec h
  exact ⟨hmatrixRows, hmatrixColumns, hrows, hcolumns⟩

private theorem assignNames (hi : i.Sound) (kind : Except String EntityKind)
    (names : Offer (List Names.Given)) (first last : ℤ) :
    (i.assignNames kind names first last).state.Sound := by
  refine (assignNames_atomic kind names first last).state_induction hi fun h => ?_
  obtain ⟨rows, columns, _, _, hrows, hcolumns, hstate⟩ := assignNames_spec h
  rw [hstate]
  have hlength : rows.length = i.rows.length := by
    simpa using congrArg List.length hrows
  have hwidth : columns.length = i.columns.length := by
    simpa using congrArg List.length hcolumns
  refine ⟨hi.matrixRows.trans hlength.symm, hi.matrixColumns.trans hwidth.symm, ?_, ?_⟩
  · intro r hr
    have hmem : r.bare ∈ rows.map Row.bare := List.mem_map_of_mem hr
    rw [hrows] at hmem
    obtain ⟨r', hr', heq⟩ := List.mem_map.mp hmem
    have husable : r'.bare.Usable := hi.rows r' hr'
    rw [heq] at husable
    exact husable
  · intro c hc
    have hmem : c.bare ∈ columns.map Column.bare := List.mem_map_of_mem hc
    rw [hcolumns] at hmem
    obtain ⟨c', hc', heq⟩ := List.mem_map.mp hmem
    have husable : c'.bare.Usable := by
      have := hi.columns c' hc'
      exact ⟨this.lower, this.upper, this.order, this.objective⟩
    rw [heq] at husable
    exact ⟨husable.lower, husable.upper, husable.order, husable.objective⟩

private theorem addRows (hi : i.Sound) (rows : List (Row α))
    (entries : Offer (List (Offer (RowEntries α)))) : (i.addRows rows entries).state.Sound := by
  refine (addRows_atomic rows entries).state_induction hi fun h => ?_
  obtain ⟨hsize, husable, added, _, progress, hlength, -, hstate⟩ := addRows_spec h
  rw [hstate]
  refine ⟨?_, hi.matrixColumns, ?_, hi.columns⟩
  · unfold SparseMatrix.numRows numRows at *
    simp only [List.length_append]
    omega
  · intro r hr
    rcases List.mem_append.mp hr with hr | hr
    · exact hi.rows r hr
    · exact husable r hr

private theorem addRow (hi : i.Sound) (row : Except Complaint (Row α))
    (entries : Offer (RowEntries α)) : (i.addRow row entries).state.Sound := by
  refine (addRow_atomic row entries).state_induction hi fun h => ?_
  obtain ⟨-, r, -, hrows⟩ := addRow_returns.mp h
  rw [← hrows.1]
  exact hi.addRows [r] (.ok [entries])

private theorem addColumns (hi : i.Sound) {columns : List (Column α)} {count : Offer ℕ}
    {starts rows : Offer IndexArray} {values : Offer (ValueArray α)}
    (counted : ∀ v, starts = .ok (.integers v) → count = .ok v.length) :
    (i.addColumns columns count starts rows values).state.Sound := by
  refine (addColumns_atomic columns count starts rows values).state_induction hi fun h => ?_
  obtain ⟨husable, added, _, progress, basis, hlength, hstate⟩ := addColumns_spec counted h
  rw [hstate]
  have hwidth := hi.matrixColumns
  refine ⟨hi.matrixRows, ?_, hi.rows, ?_⟩
  · unfold SparseMatrix.numColumns numColumns at *
    simp only [List.length_append]
    omega
  · intro c hc
    rcases List.mem_append.mp hc with hc | hc
    · exact hi.columns c hc
    · exact husable c hc

private theorem changeBounds (hi : i.Sound)
    (changes : Offer (List (Offer (BoundChange α)))) : (i.changeBounds changes).state.Sound := by
  refine (changeBounds_atomic changes).state_induction hi fun h => ?_
  obtain ⟨columns, progress, basis, hnames, husable, hstate⟩ := changeBounds_spec h hi.columns
  rw [hstate]
  have hlength : columns.length = i.columns.length := by
    simpa [columnNames] using congrArg List.length hnames
  exact ⟨hi.matrixRows, hi.matrixColumns.trans hlength.symm, hi.rows, husable⟩

private theorem changeObjective (hi : i.Sound)
    (changes : Offer (List (Offer (CostChange α)))) :
    (i.changeObjective changes).state.Sound := by
  obtain ⟨columns, progress, basis, hnames, husable, -, hstate⟩ :=
    i.changeObjective_spec changes hi.columns
  rw [hstate]
  have hlength : columns.length = i.columns.length := by
    simpa [columnNames] using congrArg List.length hnames
  exact ⟨hi.matrixRows, hi.matrixColumns.trans hlength.symm, hi.rows, husable⟩

private theorem changeSense (hi : i.Sound) (sense : Except String Sense) :
    (i.changeSense sense).state.Sound := by
  refine (changeSense_atomic sense).state_induction hi fun h => ?_
  obtain ⟨s, progress, basis, hstate⟩ := changeSense_spec h
  rw [hstate]
  exact hi.of_same rfl rfl rfl

private theorem of_solve (hi : i.Sound) {j : Instance α}
    (h : j = i ∨ ∃ r, j = i.recordSolve r) : j.Sound := by
  rcases h with rfl | ⟨r, rfl⟩
  · exact hi
  · exact hi.of_same rfl rfl rfl

theorem after (hi : i.Sound) (op : Operation α) : (op.after i).Sound := by
  cases op with
  | load d => exact hi.load d
  | assignNames kind names first last => exact hi.assignNames kind names first last
  | addRow row entries => exact hi.addRow row entries
  | addRows rows entries => exact hi.addRows rows entries
  | addColumns columns count starts rows values counted => exact hi.addColumns counted
  | changeBounds changes => exact hi.changeBounds changes
  | changeObjective changes => exact hi.changeObjective changes
  | changeSense sense => exact hi.changeSense sense
  | solveCold s o => exact hi.of_solve (Session.solveCold_course s i o).state
  | solveWarm s h o => exact hi.of_solve (Session.solveWarm_course s i o h).state
  | solve s o => exact hi.of_solve (Session.solve_course s i o).state

end Sound

/-- What every call preserves. -/
theorem Reachable.sound {i : Instance ℚ} (h : i.Reachable) : i.Sound := by
  induction h with
  | declare token name => exact .declare token name
  | step op _ ih => exact ih.after op

end Instance

namespace Sample

/-- The instance into which parts have just been loaded. -/
def ofParts (sense : Sense) (p : ProblemParts ℚ) : Instance ℚ :=
  ((Instance.declare 0 "sample").load
    ⟨"sample", .ok sense, p.rows, p.columns, .held p.matrix⟩).state

theorem ofParts_reachable (sense : Sense) (p : ProblemParts ℚ) : (ofParts sense p).Reachable :=
  .step (.load _) (.declare 0 "sample")

/-- Two rows that no point keeps: a sum of two variables that is one and at least three. -/
def contradictory : ProblemParts ℚ where
  rows := [⟨.equal, .finite 1, none⟩, ⟨.atLeast, .finite 3, none⟩]
  columns := [.free, .free]
  matrix := ⟨2, [[(0, 1), (1, 1)], [(0, 1), (1, 1)]], []⟩

/-- Two variables without lower bounds whose difference is one. -/
def boundless : ProblemParts ℚ where
  rows := [⟨.equal, .finite 1, none⟩]
  columns := [⟨.finite 1, .negInf, .posInf, none⟩, ⟨.finite 0, .negInf, .posInf, none⟩]
  matrix := ⟨1, [[(0, 1)], [(0, -1)]], []⟩

/-- A variable that is at least one and at most four. -/
def between : ProblemParts ℚ where
  rows := [⟨.atLeast, .finite 1, none⟩, ⟨.atMost, .finite 4, none⟩]
  columns := [{ Column.free with objective := .finite 1 }]
  matrix := ⟨2, [[(0, 1), (1, 1)]], []⟩

/-- Exact solves by the rule of the smallest subscript. -/
def exact : SolveOptions ℚ := { SolveOptions.standard with tolerance := 0, rule := .bland }

def session : Session ℚ where
  options := exact
  engine := .simplex {}

/-- The call that appends the cut of the sample problem. -/
def cutting : Instance.Operation ℚ :=
  .addRow (.ok cut.row) (.ok ⟨.ok (.integers [0, 1]), .ok [.finite 6, .finite 1]⟩)

end Sample

end IncrementalLP
