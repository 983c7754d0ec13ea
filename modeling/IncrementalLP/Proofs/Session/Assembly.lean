import IncrementalLP.Proofs.Instance.Contents
import IncrementalLP.Proofs.Matrix.RoundTrips
import IncrementalLP.Proofs.Session.Highs
import IncrementalLP.Proofs.Session.Solves
import IncrementalLP.Reading.Records
/-!
# Assembly

An instance can be loaded as a whole, or loaded in part and completed by rows and columns, in any
order and in batches of any size. Bulk loading keeps all entries with the columns; what comes with
rows later is kept with the rows, and columns that come after them have entries in these rows. Both
ways end in the same problem, and a cold solve finds the same for both.
-/
namespace IncrementalLP

variable {α : Type}

/-- A call that adds rows or columns. -/
inductive Addition (α : Type) where
  | addRows (rows : List (Row α)) (entries : Offer (List (Offer (RowEntries α))))
  | addRow (row : Except Complaint (Row α)) (entries : Offer (RowEntries α))
  | addColumns (columns : List (Column α)) (count : Offer ℕ) (starts rows : Offer IndexArray)
      (values : Offer (ValueArray α))

/-- The call makes contents `c` of contents `b`: it brings new rows or new columns, with the entries
between them and what is there. -/
def Addition.Adds (b c : Contents α) : Addition α → Prop
  | .addRows rows entries => ∃ lists runs, entries = .ok lists ∧
    List.Forall₂ SparseMatrix.Lists lists runs ∧ runs.length = rows.length ∧
      (b.withRows rows runs).Same c
  | .addRow row entries => ∃ r run, row = .ok r ∧ SparseMatrix.Lists entries run ∧
    (b.withRows [r] [run]).Same c
  | .addColumns columns count starts rows values => ∃ runs,
    SparseMatrix.ListsColumns starts rows values runs ∧ runs.length = columns.length ∧
      (∀ s, starts = .ok (.integers s) → count = .ok s.length) ∧
        (b.withColumns columns runs).Same c

/-- A row that was read from a description can be added by its parts: what is read from them is the
same row without its name. -/
theorem Reading.rowOf_parts {sense : RowSense Float} {rhs : Extended Float}
    {width : Option (Extended Float)} {name : Option String} {r : Row Float}
    (h : Reading.rowOf sense rhs width name = .ok r) :
    (Reading.rowOf r.sense r.rhs r.sense.width? none).firstComplaint =
      .ok { r with name := none } := by
  cases sense with
  | range w₀ =>
      cases width with
      | none => cases h
      | some w =>
          simp only [rowOf] at h
          split at h
          · cases h
          · next hwidth =>
            obtain rfl := Validated.ok.inj h
            simp only [rowOf, RowSense.width?, if_neg hwidth]
            rfl
  | _ =>
      cases width with
      | none =>
          obtain rfl := Validated.ok.inj h
          rfl
      | some w => cases h

/-- Calls that add to the first rows and columns what is missing of the contents, each of them some
of the next rows or of the next columns. -/
inductive Contents.Completes (c : Contents α) : ℕ → ℕ → List (Addition α) → Prop
  | done : Completes c c.rows.length c.columns.length []
  | add {p q p' q' : ℕ} {a : Addition α} {rest : List (Addition α)} :
      a.Adds (c.part p q) (c.part p' q') → Completes c p' q' rest → Completes c p q (a :: rest)

/-- A result without the handle of its basis, which belongs to one instance. -/
def SolveResult.bare (r : SolveResult α) : SolveResult α := { r with basis := none }

variable [Scalar α]

def Addition.run : Addition α → Action (Instance α) α Unit
  | .addRows rows entries => do
    let _ ← Instance.addRows rows entries
  | .addRow row entries => do
    let _ ← Instance.addRow row entries
  | .addColumns columns count starts rows values => do
    let _ ← Instance.addColumns columns count starts rows values

namespace Instance.Contains

variable {i : Instance α} {b c : Contents α}

private theorem add (hi : i.Contains b) (hc : c.Accepted) {a : Addition α} (ha : a.Adds b c) :
    ∃ j, a.run.Returns i j () ∧ j.Contains c := by
  cases a with
  | addRows rows entries =>
      obtain ⟨lists, runs, rfl, hlists, hlength, hsame⟩ := ha
      obtain ⟨j, hj, hcontains⟩ := hi.addRows (hc.same hsame) hlists hlength
      exact ⟨j, Action.returns_discard.mpr ⟨_, hj⟩, hcontains.same hsame⟩
  | addRow row entries =>
      obtain ⟨r, run, rfl, hlist, hsame⟩ := ha
      obtain ⟨j, hj, hcontains⟩ := hi.addRows (hc.same hsame) (.cons hlist .nil) rfl
      have hrow : (addRow (.ok r) entries).Returns i j i.numRows :=
        addRow_returns.mpr ⟨rfl, r, rfl, hj⟩
      exact ⟨j, Action.returns_discard.mpr ⟨_, hrow⟩, hcontains.same hsame⟩
  | addColumns columns count starts rows values =>
      obtain ⟨runs, hruns, hlength, hcount, hsame⟩ := ha
      obtain ⟨j, hj, hcontains⟩ := hi.addColumns (hc.same hsame) hruns hlength hcount
      exact ⟨j, Action.returns_discard.mpr ⟨_, hj⟩, hcontains.same hsame⟩

private theorem complete (hc : c.Accepted) {p q : ℕ} {calls : List (Addition α)}
    (hcalls : c.Completes p q calls) (hi : i.Contains (c.part p q)) :
    ∃ j, (Action.forEach calls Addition.run).Returns i j () ∧ j.Contains c := by
  -- after each call the instance contains the part that was reached
  induction hcalls generalizing i with
  | done =>
      rw [hc.part_length] at hi
      exact ⟨i, Action.returns_pure.mpr ⟨rfl, rfl⟩, hi⟩
  | add hadds _ ih =>
      obtain ⟨j, hj, hcontains⟩ := hi.add (hc.part _ _) hadds
      obtain ⟨k, hk, hall⟩ := ih hcontains
      exact ⟨k, Action.returns_bind.mpr ⟨j, (), hj, hk⟩, hall⟩

end Instance.Contains

private theorem SparseMatrix.dense_eq_of_perm {m m' : SparseMatrix α}
    (hrows : m.numRows = m'.numRows)
    (hcolumns : m.numColumns = m'.numColumns) (hentries : m.entries.Perm m'.entries)
    (hnodup : (m.entries.map Entry.place).Nodup) : m.dense = m'.dense := by
  have hmap := Represents.empty.foldl_insert hnodup (by simp)
  rw [List.nil_append] at hmap
  rw [dense, dense, hrows, hcolumns]
  simp only [hmap.valueAt_eq, (hmap.perm hentries).valueAt_eq]

private theorem SparseMatrix.compressed_eq_of_perm {m m' : SparseMatrix α}
    (hrows : m.numRows = m'.numRows)
    (hcolumns : m.numColumns = m'.numColumns) (hentries : m.entries.Perm m'.entries)
    (hnodup : (m.entries.map Entry.place).Nodup) : m.compressed = m'.compressed := by
  rw [compressed, compressed, hrows, hcolumns]
  exact ofEntries_eq_of_perm hnodup hentries

namespace Instance

variable {i j : Instance α}

/-- The form is made of the rows, the columns, the direction and the dense matrix, and of nothing
else. -/
theorem standardForm_congr (hsense : i.sense = j.sense) (hrows : i.rows = j.rows)
    (hcolumns : i.columns = j.columns) (hdense : i.matrix.dense = j.matrix.dense)
    (signs : Option (List (Label × α))) : i.standardForm signs = j.standardForm signs := by
  unfold standardForm objectives numRows
  rw [hsense, hrows, hcolumns, hdense]

private theorem answer_bare (hsense : i.sense = j.sense) (f : StandardForm α) (method : SolveMethod)
    (o : SolveOptions α) (outcome : Outcome α f.rows.length f.columns.length) :
    (i.answer f method o outcome).result.bare = (j.answer f method o outcome).result.bare := by
  unfold answer objectiveAt
  rw [hsense]
  cases outcome.ending <;> rfl

private theorem solvePrimal_congr (hsense : i.sense = j.sense)
    (hform : i.standardForm none = j.standardForm none) (o : SolveOptions α) :
    (i.solvePrimal o).result.bare = (j.solvePrimal o).result.bare := by
  unfold solvePrimal
  rw [hform]
  exact answer_bare hsense _ _ _ _

end Instance

namespace Session

variable {s : Session α} {i j : Instance α}

omit [Scalar α] in
private theorem perform_bare (solve : Action (Engine α) α (SolveResult α)) :
    (perform solve (s, i)).answer.map SolveResult.bare =
      ((do Engine.register i; solve : Action (Engine α) α (SolveResult α)) s.engine).answer.map
        SolveResult.bare := by
  unfold perform
  simp only
  split
  · next f hanswer => rw [hanswer]
  · next r hanswer => rw [hanswer]; rfl

omit [Scalar α] in
private theorem nextReply_bare {r r' : ReplayEngine α} (h : r.script = r'.script)
    (method : SolveMethod) (call : EngineCall) :
    (Engine.nextReply r i method call).answer.map SolveResult.bare =
      (Engine.nextReply r' j method call).answer.map SolveResult.bare := by
  unfold Engine.nextReply
  rw [h]
  cases r'.script with
  | nil => rfl
  | cons reply rest => cases reply <;> rfl

private theorem highs_bare (o : SolveOptions α) {e e' : HighsEngine α}
    (hpackage : e'.package = e.package) (hmade : e'.made = e.made)
    (hfilled : ∀ object, e.package.filled i object = e.package.filled j object) :
    (HighsEngine.solvePrimal i o e).answer.map SolveResult.bare =
      (HighsEngine.solvePrimal j o e').answer.map SolveResult.bare := by
  rw [HighsEngine.answer_solvePrimal, HighsEngine.answer_solvePrimal, hpackage, hmade, hfilled]
  cases e.package.filled j ⟨e.made, [.silence]⟩ with
  | error f => rfl
  | ok object =>
      refine Highspy.solved_congr (fun object status message => ?_) object
      unfold Highspy.result
      split <;> rfl

private theorem solve_bare (hi : i.loaded = true) (hj : j.loaded = true) (o : SolveOptions α)
    (h : (i.solvePrimal o).result.bare = (j.solvePrimal o).result.bare)
    (hfilled : ∀ (package : Highspy α) object, package.filled i object = package.filled j object)
    (e : Engine α) :
    ((do Engine.register i; Engine.solvePrimal i o : Action (Engine α) α (SolveResult α))
        e).answer.map SolveResult.bare =
      ((do Engine.register j; Engine.solvePrimal j o : Action (Engine α) α (SolveResult α))
        e).answer.map SolveResult.bare := by
  cases e with
  | simplex e =>
      rw [Action.bind_of_ok (Engine.register_simplex hi e),
        Action.bind_of_ok (Engine.register_simplex hj e)]
      exact congrArg Except.ok h
  | highs e =>
      rw [Action.bind_of_ok (Engine.register_highs hi e),
        Action.bind_of_ok (Engine.register_highs hj e)]
      exact highs_bare o rfl rfl (hfilled e.package)
  | replay r =>
      have hregister (k : Instance α) : Engine.register k (.replay r) =
          ⟨.replay { r with
              registered := some k.token
              calls := r.calls ++ [.register k.name] }, [], .ok ()⟩ := rfl
      rw [Action.bind_of_ok (hregister i), Action.bind_of_ok (hregister j)]
      apply nextReply_bare
      rfl

/-- A cold solve finds the same for two instances if the simplex method does, and if HiGHS is
filled with the same. -/
theorem solveCold_congr (hi : i.loaded = true) (hj : j.loaded = true)
    (h : ∀ o, (i.solvePrimal o).result.bare = (j.solvePrimal o).result.bare)
    (hfilled : ∀ (package : Highspy α) object, package.filled i object = package.filled j object)
    (o : Option (SolveOptions α)) :
    (solveCold o (s, i)).answer.map SolveResult.bare =
      (solveCold o (s, j)).answer.map SolveResult.bare := by
  have hchecked {k : Instance α} (hk : k.loaded = true) : (do
      k.requireLoaded "solve"
      s.requireOpen : Except (Fault α) Unit) = s.requireOpen := by
    simp only [Instance.requireLoaded, hk, if_true]
    rfl
  unfold solveCold
  simp only [hchecked hi, hchecked hj]
  split
  · rfl
  · rw [perform_bare, perform_bare]
    exact solve_bare hi hj _ (h _) hfilled s.engine

end Session

namespace Instance

/-- The instances state the same problem under the same names, and a cold solve, whatever the
session, finds the same for both: the same fault, or the same status, objective, solution, prices
and number of iterations. -/
structure Alike (i j : Instance α) : Prop where
  sense : i.sense = j.sense
  rows : i.rows = j.rows
  columns : i.columns = j.columns
  rowTable : i.rowTable = j.rowTable
  columnTable : i.columnTable = j.columnTable
  dense : i.matrix.dense = j.matrix.dense
  form : i.standardForm none = j.standardForm none
  solves : ∀ (s : Session α) (o : Option (SolveOptions α)),
    (Session.solveCold o (s, i)).answer.map SolveResult.bare =
      (Session.solveCold o (s, j)).answer.map SolveResult.bare

variable {i j : Instance α} {c : Contents α}

/-- Instances that hold the same contents are alike, wherever their matrices keep the entries. -/
theorem Contains.alike (hi : i.Contains c) (hj : j.Contains c) (hc : c.Accepted) : i.Alike j := by
  have hsense := hi.sense.trans hj.sense.symm
  have hrows := hi.rows.trans hj.rows.symm
  have hcolumns := hi.columns.trans hj.columns.symm
  have hnumRows := hi.numRows.trans hj.numRows.symm
  have hnumColumns := hi.numColumns.trans hj.numColumns.symm
  have hentries := hi.entries.trans hj.entries.symm
  have hnodup := (hi.entries.map _).nodup_iff.mpr hc.nodup
  have hdense : i.matrix.dense = j.matrix.dense :=
    SparseMatrix.dense_eq_of_perm hnumRows hnumColumns hentries hnodup
  have hcompressed : i.matrix.compressed = j.matrix.compressed :=
    SparseMatrix.compressed_eq_of_perm hnumRows hnumColumns hentries hnodup
  have hform := standardForm_congr hsense hrows hcolumns hdense none
  exact
    { sense := hsense
      rows := hrows
      columns := hcolumns
      rowTable := Except.ok.inj (hi.rowTable.symm.trans hj.rowTable)
      columnTable := Except.ok.inj (hi.columnTable.symm.trans hj.columnTable)
      dense := hdense
      form := hform
      solves := fun _ o =>
        Session.solveCold_congr hi.loaded hj.loaded (solvePrimal_congr hsense hform)
          (fun _ => Highspy.filled_congr hsense hrows hcolumns hcompressed) o }

/-- Whatever can be loaded as a whole can be assembled: the load of any first rows and columns and
all calls that complete them succeed, and the instance is like the one that was loaded at once. -/
theorem assemble {whole first : Description α} {p q : ℕ} {calls : List (Addition α)}
    (hsound : whole.matrix.Sound) (hwhole : whole.contents = .ok c)
    (hload : (load whole).Returns i j ()) (hfirst : first.Lists (c.part p q))
    (hcalls : c.Completes p q calls) (i' : Instance α) :
    ∃ k, (do load first; Action.forEach calls Addition.run : Action (Instance α) α Unit).Returns
        i' k () ∧ k.Alike j := by
  obtain ⟨hj, hc⟩ := contains_of_load hsound hwhole hload
  obtain ⟨k₀, hk₀, hpart⟩ := exists_load hfirst (hc.part p q) i'
  obtain ⟨k, hk, hall⟩ := hpart.complete hc hcalls
  exact ⟨k, Action.returns_bind.mpr ⟨k₀, (), hk₀, hk⟩, hall.alike hj hc⟩

/-- One row and one column that are loaded first, a row, and then a column that has entries in the
loaded row and in the one that came later. -/
theorem assemble_sample :
    let rows : List (Row ℚ) := [⟨.atMost, .finite 9, some "stock"⟩, ⟨.equal, .finite 4, none⟩]
    let columns : List (Column ℚ) := [.free, { Column.free with name := some "rest" }]
    let whole : Description ℚ := ⟨"whole", .ok .max, rows, columns,
      .layout (.ok (.integers [0, 2, 4])) (.ok (.integers [0, 1, 0, 1]))
        (.ok (.numbers [.finite 5, .finite 2, .finite 7, .finite 8])) (.ok none)⟩
    let first : Description ℚ := ⟨"first", .ok .max, rows.take 1, columns.take 1,
      .layout (.ok (.integers [0, 1])) (.ok (.integers [0])) (.ok (.numbers [.finite 5]))
        (.ok none)⟩
    let calls : List (Addition ℚ) :=
      [.addRow (.ok ⟨.equal, .finite 4, none⟩) (.ok ⟨.ok (.integers [0]), .ok [.finite 2]⟩),
        .addColumns [{ Column.free with name := some "rest" }] (.ok 2) (.ok (.integers [0, 2]))
          (.ok (.integers [1, 0])) (.ok (.numbers [.finite 8, .finite 7]))]
    ∃ k, (do load first; Action.forEach calls Addition.run : Action (Instance ℚ) ℚ Unit).Returns
        (declare 1 "first") k () ∧
      k.Alike (load whole (declare 0 "whole")).state ∧ k.matrix.dense = [[5, 7], [2, 8]] := by
  intro rows columns whole first calls
  let c : Contents ℚ := ⟨.max, rows, columns, [⟨0, 0, 5⟩, ⟨1, 0, 2⟩, ⟨0, 1, 7⟩, ⟨1, 1, 8⟩]⟩
  have hload : (load whole).Returns (declare 0 "whole") (load whole (declare 0 "whole")).state () :=
    ⟨rfl, rfl⟩
  have hsound : whole.matrix.Sound := by exact ⟨none, rfl⟩
  have hfirst : first.Lists (c.part 1 1) := by
    refine ⟨rfl, rfl, rfl, [[(0, 5)]], none, rfl, ?_, rfl, ?_, nofun⟩
    · exact ⟨[0, 1], [0], [5], rfl, rfl, rfl, rfl, rfl, rfl⟩
    · decide +kernel
  have hcalls : c.Completes 1 1 calls := by
    refine @Contents.Completes.add _ c 1 1 2 1 _ _ ?_
      (@Contents.Completes.add _ c 2 1 2 2 _ _ ?_ .done)
    · exact ⟨_, [(0, 2)], rfl, ⟨[0], rfl, rfl⟩, rfl, rfl, rfl, by decide +kernel⟩
    · refine ⟨[[(1, 8), (0, 7)]], ⟨[0, 2], [1, 0], [8, 7], rfl, rfl, rfl, rfl, rfl, rfl⟩, rfl, ?_,
        rfl, rfl, rfl, by decide +kernel⟩
      intro s hs
      rw [← IndexArray.integers.inj (Except.ok.inj hs)]
      rfl
  obtain ⟨k, hk, halike⟩ := assemble hsound rfl hload hfirst hcalls (declare 1 "first")
  exact ⟨k, hk, halike, halike.dense.trans (by decide +kernel)⟩

end Instance

end IncrementalLP
