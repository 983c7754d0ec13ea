import IncrementalLP.Proofs.Matrix.Calls
import IncrementalLP.Instance.Change
/-!
# Calls on an instance

For each call that changes an instance, when it returns and what it leaves behind; and that it
changes nothing where it fails, with the exception of a change of costs.
-/
namespace IncrementalLP.Instance

open IncrementalLP.Action

variable {α : Type} {i j : Instance α} {u : Unit}

theorem requireLoaded_eq_ok {operation : String} {v : Unit} :
    i.requireLoaded operation = .ok v ↔ i.loaded = true := by
  unfold requireLoaded
  split <;> simp [*]

theorem loseBasis_returns {loss : BasisLoss} :
    Returns (loseBasis loss) i j u ↔ i.dropBasis = j := by
  simp only [loseBasis, returns_get_bind, returns_ite, returns_report_bind, returns_modify,
    ite_self]

theorem sure_loseBasis (loss : BasisLoss) : Sure (loseBasis loss : Action (Instance α) α Unit) := by
  apply sure_get.bind
  intro i
  exact ((sure_report _).bind fun _ => sure_modify _).ite (sure_modify _)

private theorem loseBasis_returns_bind {β : Type} {loss : BasisLoss}
    {f : Unit → Action (Instance α) α β}
    {b : β} : Returns (loseBasis loss >>= f) i j b ↔ Returns (f ()) i.dropBasis j b := by
  simp only [returns_bind, loseBasis_returns]
  exact ⟨fun ⟨_, _, hi, h⟩ => hi ▸ h, fun h => ⟨_, (), rfl, h⟩⟩

private theorem onMatrix_returns_bind {β γ : Type} {task : Action (SparseMatrix α) α β}
    {f : β → Action (Instance α) α γ} {c : γ} :
    Returns (onMatrix task >>= f) i j c ↔
      ∃ m b, Returns task i.matrix m b ∧ Returns (f b) { i with matrix := m } j c := by
  simp only [returns_bind, onMatrix, returns_within]
  exact ⟨fun ⟨_, b, ⟨m, hm, hi⟩, h⟩ => ⟨m, b, hm, hi ▸ h⟩,
    fun ⟨m, b, hm, h⟩ => ⟨_, b, ⟨m, hm, rfl⟩, h⟩⟩

private theorem foldl_set (staged : List (ℕ × Column α)) (i : Instance α) :
    staged.foldl (fun i s => { i with columns := i.columns.set s.1 s.2 }) i =
      { i with columns := staged.foldl (fun cs s => cs.set s.1 s.2) i.columns } := by
  induction staged generalizing i with
  | nil => rfl
  | cons s staged ih => rw [List.foldl_cons, ih, List.foldl_cons]

theorem assignNames_returns {kind : Except String EntityKind} {names : Offer (List Names.Given)}
    {first last : ℤ} :
    Returns (assignNames kind names first last) i j u ↔
      i.loaded = true ∧ ∃ given texts table, names = .ok given ∧
        (kind = .ok .row ∧
            Names.checkedRange (α := α) .row i.numRows i.rowTable given first last =
              .ok (texts, table) ∧
            j = { i with
              rows := Names.overwrite Row.rename first.toNat texts i.rows
              rowTable := table } ∨
          kind = .ok .column ∧
            Names.checkedRange (α := α) .column i.numColumns i.columnTable given first last =
              .ok (texts, table) ∧
            j = { i with
              columns := Names.overwrite Column.rename first.toNat texts i.columns
              columnTable := table }) := by
  simp only [assignNames, returns_get_bind, returns_lift_bind, requireLoaded_eq_ok]
  constructor
  · rintro ⟨_, hloaded, h⟩
    refine ⟨hloaded, ?_⟩
    split at h
    · exact absurd h not_returns_throw
    · simp only [returns_lift_bind, returns_modify_bind, returns_modify, accept_eq_ok] at h
      obtain ⟨given, hgiven, ⟨texts, table⟩, hchecked, rfl⟩ := h
      exact ⟨given, texts, table, hgiven, Or.inl ⟨rfl, hchecked, rfl⟩⟩
    · simp only [returns_lift_bind, returns_modify_bind, returns_modify, accept_eq_ok] at h
      obtain ⟨given, hgiven, ⟨texts, table⟩, hchecked, rfl⟩ := h
      exact ⟨given, texts, table, hgiven, Or.inr ⟨rfl, hchecked, rfl⟩⟩
  · rintro ⟨hloaded, given, texts, table, hgiven, ⟨rfl, hchecked, rfl⟩ | ⟨rfl, hchecked, rfl⟩⟩
    · refine ⟨(), hloaded, ?_⟩
      simp only [returns_lift_bind, returns_modify_bind, returns_modify, accept_eq_ok]
      exact ⟨given, hgiven, (texts, table), hchecked, rfl⟩
    · refine ⟨(), hloaded, ?_⟩
      simp only [returns_lift_bind, returns_modify_bind, returns_modify, accept_eq_ok]
      exact ⟨given, hgiven, (texts, table), hchecked, rfl⟩

theorem changeSense_returns {sense : Except String Sense} :
    Returns (changeSense sense) i j u ↔
      i.loaded = true ∧ ∃ s, checkSense (α := α) sense = .ok s ∧
        j = if s = i.sense then i else { i with sense := s }.dropBasis := by
  simp only [changeSense, returns_get_bind, returns_lift_bind, returns_modify_bind,
    requireLoaded_eq_ok, returns_ite, loseBasis_returns, returns_pure]
  constructor
  · rintro ⟨_, hloaded, s, hs, h⟩
    refine ⟨hloaded, s, hs, ?_⟩
    by_cases hsense : s = i.sense
    · rw [if_neg (not_not.mpr hsense)] at h
      rw [if_pos hsense, h.1]
    · rw [if_pos hsense] at h
      rw [if_neg hsense, h]
  · rintro ⟨hloaded, s, hs, rfl⟩
    refine ⟨(), hloaded, s, hs, ?_⟩
    by_cases hsense : s = i.sense
    · simp [hsense]
    · simp [hsense]

theorem addRows_returns {rows : List (Row α)} {entries : Offer (List (Offer (RowEntries α)))}
    {ks : List ℕ} :
    Returns (addRows rows entries) i j ks ↔
      i.loaded = true ∧ ∃ lists added table, entries = .ok lists ∧ rows.length = lists.length ∧
        checkEach Row.check i.numRows rows = .ok () ∧
        Names.index (α := α) .row i.rowTable i.numRows (rows.map (·.name)) = .ok table ∧
        i.matrix.numRows = i.numRows ∧
        SparseMatrix.checkedRows i.matrix.numColumns i.matrix.numRows lists = .ok added ∧
        ks = List.range' i.numRows rows.length ∧
        j = { i with
          matrix := { i.matrix with appended := i.matrix.appended ++ added }
          rows := i.rows ++ rows
          rowTable := table
          progress := if rows.isEmpty then i.progress else i.markExtended.progress } := by
  simp only [addRows, returns_get_bind, returns_lift_bind, returns_guard, onMatrix_returns_bind,
    returns_modify_bind, SparseMatrix.appendRows_returns, requireLoaded_eq_ok, accept_eq_ok, ne_eq,
    not_not, Except.ok.injEq]
  simp only [returns_ite, returns_modify_bind, returns_report_bind, returns_pure]
  constructor
  · rintro ⟨_, hloaded, lists, hlists, hcount, _, hcheck, table, htable, hrows, _, _,
      ⟨_, added, rfl, hadded, rfl, rfl⟩, h⟩
    refine ⟨hloaded, lists, added, table, hlists, hcount, hcheck, htable, hrows, hadded, ?_⟩
    cases rows with
    | nil => exact ⟨h.2.symm, h.1.symm⟩
    | cons r rows => exact ⟨h.2.symm, h.1.symm⟩
  · rintro ⟨hloaded, lists, added, table, hlists, hcount, hcheck, htable, hrows, hadded, rfl, rfl⟩
    refine ⟨(), hloaded, lists, hlists, hcount, (), hcheck, table, htable, hrows, _, _,
      ⟨_, added, rfl, hadded, rfl, rfl⟩, ?_⟩
    cases rows with
    | nil => exact ⟨rfl, rfl⟩
    | cons r rows => exact ⟨rfl, rfl⟩

theorem addRow_returns {row : Except Complaint (Row α)} {entries : Offer (RowEntries α)} {k : ℕ} :
    Returns (addRow row entries) i j k ↔
      k = i.numRows ∧ ∃ r, row = .ok r ∧ Returns (addRows [r] (.ok [entries])) i j [i.numRows] := by
  simp only [addRow, returns_get_bind]
  cases row with
  | error complaint => simp [not_returns_throw]
  | ok r =>
      simp only [returns_bind, returns_pure, Except.ok.injEq, exists_eq_left']
      constructor
      · rintro ⟨_, ks, h, rfl, rfl⟩
        obtain ⟨-, -, -, -, -, -, -, -, -, -, rfl, -⟩ := addRows_returns.mp h
        exact ⟨rfl, h⟩
      · rintro ⟨rfl, h⟩
        exact ⟨_, _, h, rfl, rfl⟩

private theorem onMatrix_atomic {β : Type} {task : Action (SparseMatrix α) α β} (h : Atomic task) :
    Atomic (onMatrix task) := h.within fun _ => rfl

theorem assignNames_atomic (kind : Except String EntityKind) (names : Offer (List Names.Given))
    (first last : ℤ) : Atomic (assignNames kind names first last : Action (Instance α) α Unit) := by
  apply steady_get.bind_atomic
  intro i
  apply (steady_lift _).bind_atomic
  intro _
  have hset : ∀ f g : Instance α → Instance α,
      Sure (do modify f; modify g : Action (Instance α) α Unit) :=
    fun f g => (sure_modify f).bind fun _ => sure_modify g
  split
  · exact (steady_throw _).atomic
  · apply (steady_lift _).bind_atomic
    intro given
    apply (steady_lift _).bind_atomic
    exact fun _ => (hset _ _).atomic
  · apply (steady_lift _).bind_atomic
    intro given
    apply (steady_lift _).bind_atomic
    exact fun _ => (hset _ _).atomic

theorem addRows_atomic (rows : List (Row α)) (entries : Offer (List (Offer (RowEntries α)))) :
    Atomic (addRows rows entries) := by
  apply steady_get.bind_atomic
  intro i
  apply (steady_lift _).bind_atomic
  intro _
  apply (steady_lift _).bind_atomic
  intro lists
  apply Atomic.guard
  apply (steady_lift _).bind_atomic
  intro _
  apply (steady_lift _).bind_atomic
  intro table
  apply Atomic.guard
  -- the matrix is the first part that changes, and the last that may refuse
  apply (onMatrix_atomic (SparseMatrix.appendRows_atomic _)).bind_sure
  intro _
  apply (sure_modify _).bind
  intro _
  apply (sure_modify _).bind
  intro _
  apply Sure.ite
  · apply (sure_modify _).bind
    intro _
    apply (sure_report _).bind
    exact fun _ => sure_pure _
  · exact sure_pure _

theorem addRow_atomic (row : Except Complaint (Row α)) (entries : Offer (RowEntries α)) :
    Atomic (addRow row entries) := by
  apply steady_get.bind_atomic
  intro i
  cases row with
  | error complaint => exact (steady_throw _).atomic
  | ok r =>
      apply (addRows_atomic [r] (.ok [entries])).bind_sure
      exact fun _ => sure_pure _

theorem changeSense_atomic (sense : Except String Sense) :
    Atomic (changeSense sense : Action (Instance α) α Unit) := by
  apply steady_get.bind_atomic
  intro i
  apply (steady_lift _).bind_atomic
  intro _
  apply (steady_lift _).bind_atomic
  intro s
  apply Sure.atomic
  apply Sure.ite
  · exact (sure_modify _).bind fun _ => sure_loseBasis _
  · exact sure_pure _

variable [Scalar α]

theorem load_returns {d : Description α} :
    Returns (load d) i j u ↔
      ∃ sense matrix rowTable columnTable, checkSense (α := α) d.sense = .ok sense ∧
        d.matrix.read = .ok matrix ∧ matrix.numColumns = d.columns.length ∧
        matrix.numRows ≤ d.rows.length ∧ checkEach Row.check 0 d.rows = .ok () ∧
        checkEach (fun k => Column.check (.whole k)) 0 d.columns = .ok () ∧
        Names.index (α := α) .row [] 0 (d.rows.map (·.name)) = .ok rowTable ∧
        Names.index (α := α) .column [] 0 (d.columns.map (·.name)) = .ok columnTable ∧
        j = { i with
          name := d.name
          sense := sense
          matrix := matrix.padRows d.rows.length
          loaded := true
          rows := d.rows
          columns := d.columns
          rowTable := rowTable
          columnTable := columnTable
          progress := .unsolved
          lastStatus := none
          basis := none } := by
  simp only [load, returns_lift_bind, returns_guard, returns_modify_bind, returns_report,
    ne_eq, not_not, not_lt]
  constructor
  · rintro ⟨sense, hsense, matrix, hmatrix, hcolumns, hrows, _, hrowCheck, _, hcolumnCheck,
      rowTable, hrowTable, columnTable, hcolumnTable, rfl⟩
    exact ⟨sense, matrix, rowTable, columnTable, hsense, hmatrix, hcolumns, hrows, hrowCheck,
      hcolumnCheck, hrowTable, hcolumnTable, rfl⟩
  · rintro ⟨sense, matrix, rowTable, columnTable, hsense, hmatrix, hcolumns, hrows, hrowCheck,
      hcolumnCheck, hrowTable, hcolumnTable, rfl⟩
    exact ⟨sense, hsense, matrix, hmatrix, hcolumns, hrows, _, hrowCheck, _, hcolumnCheck,
      rowTable, hrowTable, columnTable, hcolumnTable, rfl⟩

theorem load_atomic (d : Description α) : Atomic (load d) := by
  apply (steady_lift _).bind_atomic
  intro sense
  apply (steady_lift _).bind_atomic
  intro matrix
  apply Atomic.guard
  apply Atomic.guard
  apply (steady_lift _).bind_atomic
  intro _
  apply (steady_lift _).bind_atomic
  intro _
  apply (steady_lift _).bind_atomic
  intro rowTable
  apply (steady_lift _).bind_atomic
  intro columnTable
  apply Sure.atomic
  apply (sure_modify _).bind
  exact fun _ => sure_report _

theorem addColumns_returns {columns : List (Column α)} {count : Offer ℕ}
    {starts rows : Offer IndexArray} {values : Offer (ValueArray α)} {ks : List ℕ} :
    Returns (addColumns columns count starts rows values) i j ks ↔
      i.loaded = true ∧ count = .ok (columns.length + 1) ∧
        ∃ s r v added table,
          checkEach (fun k => Column.check (.whole k)) i.numColumns columns = .ok () ∧
          Names.index (α := α) .column i.columnTable i.numColumns (columns.map (·.name)) =
            .ok table ∧
          readPositions (α := α) .columnStart starts = .ok s ∧
          readPositions (α := α) .rowIndex rows = .ok r ∧ readValues values = .ok v ∧
          SparseMatrix.checkedRuns i.matrix.numColumns (.whole i.matrix.numRows) s r v =
            .ok added ∧
          ks = List.range' i.numColumns columns.length ∧
          j = { i with
            matrix := { i.matrix with columns := i.matrix.columns ++ added }
            columns := i.columns ++ columns
            columnTable := table
            progress := if columns.isEmpty then i.progress else i.markExtended.progress
            basis := if columns.isEmpty then i.basis else none } := by
  simp only [addColumns, returns_get_bind, returns_lift_bind, returns_guard, onMatrix_returns_bind,
    returns_modify_bind, SparseMatrix.appendColumns_returns, requireLoaded_eq_ok, accept_eq_ok,
    ne_eq, not_not]
  simp only [returns_ite, loseBasis_returns_bind, returns_pure]
  constructor
  · rintro ⟨_, hloaded, _, hcount, rfl, _, hcheck, table, htable, _, _,
      ⟨s, r, v, added, hs, hr, hv, hadded, rfl, rfl⟩, h⟩
    refine ⟨hloaded, hcount, s, r, v, added, table, hcheck, htable, hs, hr, hv, hadded, ?_⟩
    cases columns with
    | nil => exact ⟨h.2.symm, h.1.symm⟩
    | cons c columns => exact ⟨h.2.symm, h.1.symm⟩
  · rintro ⟨hloaded, hcount, s, r, v, added, table, hcheck, htable, hs, hr, hv, hadded, rfl, rfl⟩
    refine ⟨(), hloaded, _, hcount, rfl, (), hcheck, table, htable, _, _,
      ⟨s, r, v, added, hs, hr, hv, hadded, rfl, rfl⟩, ?_⟩
    cases columns with
    | nil => exact ⟨rfl, rfl⟩
    | cons c columns => exact ⟨rfl, rfl⟩

theorem changeBounds_returns {changes : Offer (List (Offer (BoundChange α)))} :
    Returns (changeBounds changes) i j u ↔
      i.loaded = true ∧ ∃ offers staged, changes = .ok offers ∧
        offers.mapM (checkedBounds i.columns) = .ok staged ∧
        j = { i with
          columns := staged.foldl (fun cs s => cs.set s.1 s.2) i.columns
          progress := if staged.isEmpty then i.progress else i.markExtended.progress
          basis := if staged.isEmpty then i.basis else none } := by
  simp only [changeBounds, returns_get_bind, returns_lift_bind, returns_forEach_modify_bind,
    requireLoaded_eq_ok, accept_eq_ok, returns_ite, loseBasis_returns, returns_pure, foldl_set]
  constructor
  · rintro ⟨_, hloaded, offers, hoffers, staged, hstaged, h⟩
    refine ⟨hloaded, offers, staged, hoffers, hstaged, ?_⟩
    cases staged with
    | nil => exact h.1.symm
    | cons s staged => exact h.symm
  · rintro ⟨hloaded, offers, staged, hoffers, hstaged, rfl⟩
    refine ⟨(), hloaded, offers, hoffers, staged, hstaged, ?_⟩
    cases staged with
    | nil => exact ⟨rfl, trivial⟩
    | cons s staged => rfl

omit [Scalar α] in
theorem forEach_setCost_returns {staged : List (Ordinal α × Extended α)} :
    Returns (forEach staged setCost) i j u ↔
      ∃ ks, staged.mapM (fun s => columnPosition (α := α) s.1) = .ok ks ∧
        j = { i with
          columns := (ks.zip staged).foldl
            (fun cs s => cs.modify s.1 fun c => { c with objective := s.2.2 }) i.columns } := by
  induction staged generalizing i with
  | nil =>
      rw [forEach, returns_pure, List.mapM_nil]
      constructor
      · rintro ⟨rfl, -⟩
        exact ⟨[], rfl, rfl⟩
      · rintro ⟨ks, -, rfl⟩
        rw [List.zip_nil_right]
        exact ⟨rfl, rfl⟩
  | cons s staged ih =>
      rw [forEach, returns_bind]
      simp only [setCost, returns_lift_bind, returns_modify, List.mapM_cons, bind_eq_ok, pure_eq_ok]
      constructor
      · rintro ⟨_, _, ⟨k, hk, rfl⟩, h⟩
        obtain ⟨ks, hks, rfl⟩ := ih.mp h
        exact ⟨k :: ks, ⟨k, hk, ks, hks, rfl⟩, rfl⟩
      · rintro ⟨_, ⟨k, hk, ks, hks, rfl⟩, rfl⟩
        exact ⟨_, (), ⟨k, hk, rfl⟩, ih.mpr ⟨ks, hks, rfl⟩⟩

theorem changeObjective_returns {changes : Offer (List (Offer (CostChange α)))} :
    Returns (changeObjective changes) i j u ↔
      i.loaded = true ∧ ∃ offers staged ks, changes = .ok offers ∧
        offers.mapM (checkedCost i.numColumns) = .ok staged ∧
        staged.mapM (fun s => columnPosition (α := α) s.1) = .ok ks ∧
        j = { i with
          columns := (ks.zip staged).foldl
            (fun cs s => cs.modify s.1 fun c => { c with objective := s.2.2 }) i.columns
          progress := if staged.isEmpty then i.progress else i.markExtended.progress
          basis := if staged.isEmpty then i.basis else none } := by
  simp only [changeObjective, returns_get_bind, returns_lift_bind, requireLoaded_eq_ok,
    accept_eq_ok]
  constructor
  · rintro ⟨_, hloaded, offers, hoffers, staged, hstaged, h⟩
    obtain ⟨_, _, hset, h⟩ := returns_bind.mp h
    obtain ⟨ks, hks, rfl⟩ := forEach_setCost_returns.mp hset
    refine ⟨hloaded, offers, staged, ks, hoffers, hstaged, hks, ?_⟩
    simp only [returns_ite, loseBasis_returns, returns_pure] at h
    cases staged with
    | nil => exact h.1.symm
    | cons s staged => exact h.symm
  · rintro ⟨hloaded, offers, staged, ks, hoffers, hstaged, hks, rfl⟩
    refine ⟨(), hloaded, offers, hoffers, staged, hstaged, ?_⟩
    refine returns_bind.mpr ⟨_, (), forEach_setCost_returns.mpr ⟨ks, hks, rfl⟩, ?_⟩
    simp only [returns_ite, loseBasis_returns, returns_pure]
    cases staged with
    | nil => exact ⟨rfl, trivial⟩
    | cons s staged => rfl

theorem addColumns_atomic (columns : List (Column α)) (count : Offer ℕ)
    (starts rows : Offer IndexArray) (values : Offer (ValueArray α)) :
    Atomic (addColumns columns count starts rows values) := by
  apply steady_get.bind_atomic
  intro i
  apply (steady_lift _).bind_atomic
  intro _
  apply (steady_lift _).bind_atomic
  intro n
  apply Atomic.guard
  apply (steady_lift _).bind_atomic
  intro _
  apply (steady_lift _).bind_atomic
  intro table
  apply (onMatrix_atomic (SparseMatrix.appendColumns_atomic _ _ _)).bind_sure
  intro _
  apply (sure_modify _).bind
  intro _
  apply (sure_modify _).bind
  intro _
  apply Sure.ite
  · exact (sure_loseBasis _).bind fun _ => sure_pure _
  · exact sure_pure _

theorem changeBounds_atomic (changes : Offer (List (Offer (BoundChange α)))) :
    Atomic (changeBounds changes) := by
  apply steady_get.bind_atomic
  intro i
  apply (steady_lift _).bind_atomic
  intro _
  apply (steady_lift _).bind_atomic
  intro offers
  apply (steady_lift _).bind_atomic
  intro staged
  apply Sure.atomic
  apply (sure_forEach fun _ => sure_modify _).bind
  intro _
  exact (sure_loseBasis _).ite (sure_pure _)

end IncrementalLP.Instance
