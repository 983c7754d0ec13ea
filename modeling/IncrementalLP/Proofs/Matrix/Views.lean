import IncrementalLP.Number.Instances
import IncrementalLP.Proofs.Matrix.Coordinates
/-!
# Views of a matrix

However a matrix was made and grown, its entries, its columns, its rows, its size and its dense form
all show the coordinate map on which the same calls were made. A call that fails changes nothing.
-/
namespace IncrementalLP.SparseMatrix

variable {α : Type}

/-- A call that grows a matrix, or copies it. -/
inductive Call (α : Type) where
  | appendRows (rows : Offer (List (Offer (RowEntries α))))
  | appendColumns (starts rows : Offer IndexArray) (values : Offer (ValueArray α))
  | padRows (numRows : ℤ)
  | copy

/-- The columns and values that are given for a row. -/
def givenRow : Offer (RowEntries α) → List (ℕ × Extended α)
  | .ok ⟨.ok (.integers columns), .ok values⟩ => (columns.map (·.toInt.toNat)).zip values
  | _ => []

def givenRows : Offer (List (Offer (RowEntries α))) → List (List (ℕ × Extended α))
  | .ok rows => rows.map givenRow
  | .error _ => []

/-- The rows and values that a column layout gives for each column: what is between its starts. -/
def givenColumns : Offer IndexArray → Offer IndexArray → Offer (ValueArray α) →
    List (List (ℕ × Extended α))
  | .ok (.integers starts), .ok (.integers rows), .ok (.numbers values) =>
    Runs.slices (starts.map (·.toInt.toNat)) ((rows.map (·.toInt.toNat)).zip values)
  | _, _, _ => []

/-- The row count that a column layout states or, if it states none, needs. -/
def givenCount (numRows : Option ℤ) : Offer IndexArray → ℕ
  | .ok (.integers rows) => (numRows.getD (((rows.map (·.toInt)).max?.map (· + 1)).getD 0)).toNat
  | _ => 0

/-- The starts are far from the limits of their words. -/
def SmallStarts (starts : Offer IndexArray) : Prop :=
  ∀ v, starts = .ok (.integers v) → ∀ s ∈ v, |s.toInt| < 2 ^ 62

theorem smallStarts_integers {v : List Int64} :
    SmallStarts (.ok (.integers v)) ↔ ∀ s ∈ v, |s.toInt| < 2 ^ 62 := by
  simp [SmallStarts]

namespace Call

/-- The call on a map. -/
def onMap (c : Coordinates α) : Call α → Coordinates α
  | .appendRows rows => c.appendRows (givenRows rows)
  | .appendColumns starts rows values => c.appendColumns (givenColumns starts rows values)
  | .padRows numRows => c.padRows numRows.toNat
  | .copy => c

def Small : Call α → Prop
  | .appendColumns starts _ _ => SmallStarts starts
  | _ => True

variable [Scalar α]

/-- The call on a matrix. -/
def run : Call α → Action (SparseMatrix α) α Unit
  | .appendRows rows => do
    let _ ← SparseMatrix.appendRows rows
  | .appendColumns starts rows values => do
    let _ ← SparseMatrix.appendColumns starts rows values
  | .padRows numRows => extendRows numRows
  | .copy => pure ()

end Call

variable [Scalar α]

/-- The matrix and the map come of the same calls: one that makes a matrix, and then calls that grow
it or fail. -/
inductive Follows : SparseMatrix α → Coordinates α → Prop
  | blank {rows columns : ℤ} {m : SparseMatrix α} : blank? rows columns = .ok m →
      Follows m (.blank rows.toNat columns.toNat)
  | build {starts rows : Offer IndexArray} {values : Offer (ValueArray α)} {numRows : Option ℤ}
      {m : SparseMatrix α} : build starts rows values (.ok (numRows.map .whole)) = .ok m →
      SmallStarts starts → Follows m
        ((Coordinates.blank (givenCount numRows rows) 0).appendColumns
          (givenColumns starts rows values))
  | ofCoordinates {numRows numColumns : ℤ} {entries : List (ℤ × ℤ × Extended α)}
      {m : SparseMatrix α} : ofCoordinates numRows numColumns entries = .ok m →
      entries.length < 2 ^ 62 → (∀ e ∈ entries, e.1 < 2 ^ 62) → Follows m
        (.ofEntries numRows.toNat numColumns.toNat
          (entries.map fun e => ⟨e.1.toNat, e.2.1.toNat, e.2.2⟩))
  | ofTable {t : Table α} {m : SparseMatrix α} : ofTable t = .ok m →
      (∀ row ∈ t.rows, row.length = t.numColumns) → t.rows.length < 2 ^ 62 →
      t.nonzeros.length < 2 ^ 62 → Follows m (.ofEntries t.rows.length t.numColumns t.nonzeros)
  | call {m m' : SparseMatrix α} {c : Coordinates α} {call : Call α} {u : Unit} : Follows m c →
      call.Small → call.run.Returns m m' u → Follows m' (call.onMap c)
  | refused {m : SparseMatrix α} {c : Coordinates α} {call : Call α} {f : Fault α} : Follows m c →
      (call.run m).answer = .error f → Follows (call.run m).state c

omit [Scalar α] in
private theorem Fits.stored {numColumns : ℕ} {offer : Offer (RowEntries α)} {run : List (ℕ × α)}
    (h : Fits numColumns offer run) :
    givenRow offer = (run.map fun e => (e.1, .finite e.2)) ∧ (run.map (·.1)).Nodup ∧
      ∀ e ∈ run, e.1 < numColumns := by
  obtain ⟨columns, values, rfl, hcolumns, hnodup, rfl⟩ := h
  refine ⟨?_, ?_, ?_⟩
  · rw [givenRow, List.zip_map_right]
    rfl
  · have hfirst : ((columns.map (·.toInt.toNat)).zip values).map (·.1) =
        (columns.map (·.toInt.toNat)).take
          (min (columns.map (·.toInt.toNat)).length values.length) := by
      rw [List.zip_eq_zip_take_min]
      exact List.map_fst_zip (by simp)
    rw [hfirst]
    exact ((Runs.nodup_map_toNat fun w hw => (hcolumns w hw).1).mpr hnodup).sublist
      (List.take_sublist _ _)
  · intro e he
    obtain ⟨j, hj, hje⟩ := List.mem_map.mp (List.of_mem_zip he).1
    obtain ⟨hle, hlt⟩ := hcolumns j hj
    rw [← hje]
    omega

private theorem givenColumns_eq_offered {first : ℕ} {numRows : Ordinal α} {starts rows : List Int64}
    {values : List α} {runs : Runs α} (hsmall : ∀ s ∈ starts, |s.toInt| < 2 ^ 62)
    (h : checkedRuns first numRows starts rows values = .ok runs) :
    givenColumns (.ok (.integers starts)) (.ok (.integers rows))
      (.ok (.numbers (values.map .finite))) = offered runs := by
  rw [givenColumns, List.zip_map_right, Runs.slices_map,
    ← slices_of_ascends (ascends_of_checkedRuns hsmall h) h]
  rfl

theorem rowCount_eq_ok {rows : List Int64} {numRows : Option ℤ} {count : Ordinal α} {n : ℕ}
    (hcount : rowCount rows (numRows.map .whole) = .ok count) (hn : count.count = .ok n) :
    givenCount numRows (.ok (.integers rows)) = n ∧
      ∀ i : ℕ, count.atMost i = false → i < n := by
  have hwhole {k : ℤ} (hk : count = .whole k) : k.toNat = n ∧
      ∀ i : ℕ, count.atMost i = false → i < n := by
    rw [hk] at hn ⊢
    obtain rfl := Except.ok.inj hn
    refine ⟨rfl, fun i hi => ?_⟩
    rw [Ordinal.atMost, decide_eq_false_iff_not] at hi
    omega
  cases numRows with
  | none => exact hwhole (Except.ok.inj hcount).symm
  | some k =>
      rw [Option.map_some, rowCount] at hcount
      split at hcount
      · cases hcount
      · exact hwhole (Except.ok.inj hcount).symm

omit [Scalar α] in
private theorem givenRows_eq_offered {numColumns : ℕ} {lists : List (Offer (RowEntries α))}
    {runs : Runs α} (h : List.Forall₂ (Fits numColumns) lists runs) :
    givenRows (.ok lists) = offered runs ∧
      ∀ run ∈ runs, (run.map (·.1)).Nodup ∧ ∀ e ∈ run, e.1 < numColumns := by
  induction h with
  | nil => exact ⟨rfl, fun run hrun => absurd hrun List.not_mem_nil⟩
  | @cons offer run lists runs hfits _ ih =>
      obtain ⟨hgiven, hrun⟩ := hfits.stored
      obtain ⟨hrest, hruns⟩ := ih
      refine ⟨?_, List.forall_mem_cons.mpr ⟨hrun, hruns⟩⟩
      rw [givenRows, List.map_cons, hgiven]
      exact congrArg _ hrest

variable {m m' : SparseMatrix α} {c : Coordinates α}

/-- What a call does to a matrix where it returns. -/
def Call.Does (m m' : SparseMatrix α) : Call α → Prop
  | .appendRows rows => (SparseMatrix.appendRows rows).Returns m m' m.numRows
  | .appendColumns starts rows values =>
    (SparseMatrix.appendColumns starts rows values).Returns m m' m.numColumns
  | .padRows n => m.numRows ≤ n ∧ m' = m.padRows n.toNat
  | .copy => m' = m

theorem Call.does {call : Call α} {u : Unit} (h : call.run.Returns m m' u) : call.Does m m' := by
  cases call with
  | appendRows rows =>
      obtain ⟨n, hrows⟩ := Action.returns_discard.mp h
      obtain ⟨-, -, -, -, -, rfl⟩ := appendRows_returns.mp hrows
      exact hrows
  | appendColumns starts rows values =>
      obtain ⟨n, hcolumns⟩ := Action.returns_discard.mp h
      obtain ⟨-, -, -, -, -, -, -, -, -, rfl⟩ := appendColumns_returns.mp hcolumns
      exact hcolumns
  | padRows n => exact extendRows_returns.mp h
  | copy => exact (Action.returns_pure.mp h).1.symm

theorem Call.atomic (call : Call α) : call.run.Atomic := by
  cases call with
  | appendRows rows => exact (appendRows_atomic rows).bind_sure fun _ => Action.sure_pure ()
  | appendColumns starts rows values =>
      exact (appendColumns_atomic starts rows values).bind_sure fun _ => Action.sure_pure ()
  | padRows n => exact extendRows_atomic n
  | copy => exact (Action.sure_pure ()).atomic

private theorem Agrees.call (h : Agrees m c) {call : Call α} (hsmall : call.Small) {u : Unit}
    (hcall : call.run.Returns m m' u) : Agrees m' (call.onMap c) := by
  have hdoes := Call.does hcall
  cases call with
  | appendRows rows =>
      obtain ⟨lists, added, rfl, hadded, rfl, -⟩ := appendRows_returns.mp hdoes
      obtain ⟨hgiven, hruns⟩ := givenRows_eq_offered (checkedRows_eq_ok.mp hadded)
      rw [Call.onMap, hgiven]
      exact h.appendRows hruns
  | appendColumns starts rows values =>
      obtain ⟨s, r, v, added, hs, hr, hv, hadded, rfl, -⟩ := appendColumns_returns.mp hdoes
      obtain rfl := readPositions_eq_ok.mp hs
      obtain rfl := readPositions_eq_ok.mp hr
      obtain rfl := readValues_eq_ok.mp hv
      rw [Call.onMap, givenColumns_eq_offered (hsmall s rfl) hadded]
      exact h.appendColumns (runsFit_whole.mp (runsFit_of_checkedRuns hadded))
  | padRows n =>
      obtain ⟨hle, rfl⟩ := hdoes
      exact h.padRows (by omega)
  | copy =>
      obtain rfl := hdoes
      exact h

theorem Agrees.of_build {starts rows : Offer IndexArray} {values : Offer (ValueArray α)}
    {numRows : Option ℤ} (h : build starts rows values (.ok (numRows.map .whole)) = .ok m) :
    Agrees m ((Coordinates.blank m.numRows 0).appendColumns (offered m.columns)) := by
  obtain ⟨s, r, v, given, count, columns, n, -, -, -, hgiven, hcount, hcolumns, hn, rfl⟩ :=
    build_eq_ok.mp h
  obtain rfl := Except.ok.inj hgiven
  have hfit := runsFit_of_checkedRuns hcolumns
  have hlt := (rowCount_eq_ok hcount hn).2
  exact (Agrees.blank n 0).appendColumns fun run hrun =>
    ⟨(hfit run hrun).1, fun e he => hlt e.1 ((hfit run hrun).2 e he)⟩

private theorem place_of_mem_columnOf {es : List (Entry (Extended α))} {j : ℕ}
    {e : ℕ × Extended α}
    (he : e ∈ Compressed.columnOf ((es.filter (·.column == j)).map fun e => (e.row, e.value))) :
    (e.1, j) ∈ es.map Entry.place := by
  have htotal := ((Compressed.mem_columnOf _).2 e.1 e.2).mp he
  by_contra hnot
  rw [Compressed.totalFrom_of_not_mem] at htotal
  · cases htotal
  · intro e' he' heq
    obtain ⟨e'', he'', rfl⟩ := List.mem_map.mp he'
    obtain ⟨hmem, hcolumn⟩ := List.mem_filter.mp he''
    exact hnot (List.mem_map.mpr ⟨e'', hmem, Prod.ext heq (beq_iff_eq.mp hcolumn)⟩)

private theorem compressed_ofEntries_le (numRows numColumns : ℕ) (es : List (Entry (Extended α))) :
    (∀ i ∈ (Compressed.ofEntries numRows numColumns es).columns.positions,
        ∃ e ∈ es, e.row = i) ∧
      (Compressed.ofEntries numRows numColumns es).columns.size ≤ es.length := by
  set columns := (Compressed.ofEntries numRows numColumns es).columns with hcolumns
  constructor
  · intro i hi
    obtain ⟨e, he, rfl⟩ := List.mem_map.mp hi
    obtain ⟨run, hrun, he⟩ := List.mem_flatten.mp he
    obtain ⟨j, -, rfl⟩ := List.mem_map.mp hrun
    obtain ⟨e', he', hplace⟩ := List.mem_map.mp (place_of_mem_columnOf he)
    exact ⟨e', he', (Prod.mk.inj hplace).1⟩
  · have hruns : ∀ run ∈ columns, (run.map (·.1)).Nodup := by
      intro run hrun
      obtain ⟨j, -, rfl⟩ := List.mem_map.mp hrun
      exact (Compressed.mem_columnOf _).1
    have hsub : (ofColumns 0 columns).map Entry.place ⊆ es.map Entry.place := by
      intro p hp
      obtain ⟨e, he, rfl⟩ := List.mem_map.mp hp
      obtain ⟨-, run, hrun, hmem⟩ := mem_ofColumns.mp he
      rw [hcolumns, Compressed.ofEntries, List.getElem?_map, Option.map_eq_some_iff] at hrun
      obtain ⟨j, hj, rfl⟩ := hrun
      obtain ⟨hlt, rfl⟩ := List.getElem?_eq_some_iff.mp hj
      rw [List.getElem_range] at hmem
      exact place_of_mem_columnOf hmem
    -- every place is listed once, so that there are no more than were named
    have hle := (((nodup_ofColumns 0 columns).mpr hruns).subperm hsub).length_le
    rwa [List.length_map, List.length_map, ofColumns, List.length_map, Runs.length_owned] at hle

theorem ofCompressed_ofEntries_eq_ok {numRows numColumns : ℕ} {es : List (Entry (Extended α))}
    (hrows : ∀ e ∈ es, e.row < 2 ^ 62) (hlength : es.length < 2 ^ 62) :
    ofCompressed (.ofEntries numRows numColumns es) = .ok m ↔
      ∃ runs : Runs α, (Compressed.ofEntries numRows numColumns es).columns = offered runs ∧
        RunsFit (.whole numRows : Ordinal α) runs ∧ m = ⟨numRows, runs, []⟩ := by
  obtain ⟨hnamed, hsize⟩ := compressed_ofEntries_le numRows numColumns es
  refine ofCompressed_eq_ok (by omega) fun i hi => ?_
  obtain ⟨e, he, rfl⟩ := hnamed i hi
  have := hrows e he
  omega

private theorem Agrees.of_ofCompressed {numRows numColumns : ℕ} {es : List (Entry (Extended α))}
    (hmade : ofCompressed (.ofEntries numRows numColumns es) = .ok m)
    (hrows : ∀ e ∈ es, e.row < 2 ^ 62) (hcolumns : ∀ e ∈ es, e.column < numColumns)
    (hlength : es.length < 2 ^ 62) : Agrees m (.ofEntries numRows numColumns es) := by
  obtain ⟨runs, hruns, hfit, rfl⟩ := (ofCompressed_ofEntries_eq_ok hrows hlength).mp hmade
  exact .ofEntries hruns hfit hcolumns

theorem ofCompressed_of_ofCoordinates {numRows numColumns : ℤ} {entries : List (ℤ × ℤ × Extended α)}
    (h : ofCoordinates numRows numColumns entries = .ok m) (hrows : ∀ e ∈ entries, e.1 < 2 ^ 62) :
    let es : List (Entry (Extended α)) := entries.map fun e => ⟨e.1.toNat, e.2.1.toNat, e.2.2⟩
    ofCompressed (.ofEntries numRows.toNat numColumns.toNat es) = .ok m ∧
      (∀ e ∈ es, e.row < 2 ^ 62) ∧ ∀ e ∈ es, e.column < numColumns.toNat := by
  intro es
  simp only [SparseMatrix.ofCoordinates, bind_eq_ok, accept_eq_ok] at h
  obtain ⟨compressed, hcompressed, hmade⟩ := h
  unfold Compressed.ofCoordinates at hcompressed
  simp only at hcompressed
  split at hcompressed
  · cases hcompressed
  · next hnot =>
    obtain rfl := Except.ok.inj hcompressed
    have hinside : ∀ e ∈ entries, 0 ≤ e.1 ∧ 0 ≤ e.2.1 ∧ e.2.1 < numColumns := by
      intro e he
      have hin := mt (fun h => Or.inr (Or.inr (List.any_eq_true.mpr ⟨e, he, h⟩))) hnot
      simp only [Bool.or_eq_true, decide_eq_true_eq, not_or, not_lt, not_le] at hin
      exact ⟨hin.1.1.1, hin.1.2, hin.2⟩
    refine ⟨hmade, ?_, ?_⟩
    · rw [List.forall_mem_map]
      intro e he
      have := hinside e he
      have := hrows e he
      simp only
      omega
    · rw [List.forall_mem_map]
      intro e he
      have := hinside e he
      simp only
      omega

theorem inside_of_mem_nonzeros {t : Table α} (hwidth : ∀ row ∈ t.rows, row.length = t.numColumns) :
    ∀ e ∈ t.nonzeros, e.row < t.rows.length ∧ e.column < t.numColumns := by
  intro e he
  obtain ⟨⟨row, i⟩, hrow, he⟩ := List.mem_flatMap.mp he
  obtain ⟨⟨v, j⟩, hv, rfl⟩ := List.mem_map.mp he
  obtain ⟨-, hi, hget⟩ := List.mem_zipIdx hrow
  obtain ⟨-, hj, -⟩ := List.mem_zipIdx (List.mem_filter.mp hv).1
  rw [hwidth row (hget ▸ List.getElem_mem _)] at hj
  exact ⟨by simpa using hi, by simpa using hj⟩

theorem Follows.agrees (h : Follows m c) : Agrees m c := by
  induction h with
  | @blank rows columns m hblank =>
      unfold blank? at hblank
      split at hblank
      · cases hblank
      · obtain rfl := Except.ok.inj hblank
        exact .blank _ _
  | @build starts rows values numRows m hbuild hsmall =>
      have hagrees := Agrees.of_build hbuild
      obtain ⟨s, r, v, given, count, columns, n, rfl, rfl, rfl, hgiven, hcount, hcolumns, hn,
        rfl⟩ := build_eq_ok.mp hbuild
      obtain rfl := Except.ok.inj hgiven
      rw [(rowCount_eq_ok hcount hn).1, givenColumns_eq_offered (hsmall s rfl) hcolumns]
      exact hagrees
  | @ofCoordinates numRows numColumns entries m hmade hlength hrows =>
      obtain ⟨hcompressed, hbelow, hinside⟩ := ofCompressed_of_ofCoordinates hmade hrows
      exact .of_ofCompressed hcompressed hbelow hinside (by rwa [List.length_map])
  | @ofTable t m hmade hwidth hrows hlength =>
      have hinside := inside_of_mem_nonzeros hwidth
      exact .of_ofCompressed hmade (fun e he => (hinside e he).1.trans hrows)
        (fun e he => (hinside e he).2) hlength
  | call _ hsmall hcall ih => exact ih.call hsmall hcall
  | @refused m c call f _ hfailed ih =>
      rw [call.atomic m f hfailed]
      exact ih

/-- The views of the matrix show the map. -/
structure Shows (m : SparseMatrix α) (c : Coordinates α) : Prop where
  numRows : m.numRows = c.numRows
  numColumns : m.numColumns = c.numColumns
  /-- The entries list each place of the map once, with its value. -/
  entries : Represents m.entries c.values
  size : m.size = c.values.keys.card
  column : ∀ j < m.numColumns, ∃ l, m.column j = .ok l ∧ (l.map (·.1)).Nodup ∧
    ∀ i w, c.values.lookup (i, j) = some w ↔ ∃ v, w = .finite v ∧ (i, v) ∈ l
  row : ∀ i < m.numRows, ∃ l, m.row i = .ok l ∧ (l.map (·.1)).Nodup ∧
    ∀ j w, c.values.lookup (i, j) = some w ↔ ∃ v, w = .finite v ∧ (j, v) ∈ l
  dense : m.dense = c.dense

/-- What a call adds to a matrix: the given entries, in new rows or columns. -/
def Call.Adds (m m' : SparseMatrix α) : Call α → Prop
  | .appendRows rows =>
    m'.columns.starts = m.columns.starts ∧ m'.columns.positions = m.columns.positions ∧
      m'.columns.values = m.columns.values ∧ m'.numRows = m.numRows + (givenRows rows).length ∧
      m'.numColumns = m.numColumns ∧
      ∀ e, e ∈ m'.entries ↔ e ∈ m.entries ∨ ∃ k row, (givenRows rows)[k]? = some row ∧
        e.row = m.numRows + k ∧ (e.column, .finite e.value) ∈ row
  | .appendColumns starts rows values =>
    m'.numRows = m.numRows ∧
      m'.numColumns = m.numColumns + (givenColumns starts rows values).length ∧
      ∀ e, e ∈ m'.entries ↔ e ∈ m.entries ∨
        ∃ k column, (givenColumns starts rows values)[k]? = some column ∧
          e.column = m.numColumns + k ∧ (e.row, .finite e.value) ∈ column
  | .padRows numRows =>
    m'.numRows = numRows ∧ m'.numColumns = m.numColumns ∧ m'.entries = m.entries
  | .copy => m' = m

namespace Agrees

private theorem views (h : Agrees m c) : Shows m c where
  numRows := h.numRows
  numColumns := h.numColumns
  entries := h.represents
  size := by rw [size_eq, h.represents.card_keys]
  column j hj := by
    have hcolumn : m.column j = .ok (m.columnEntries j) := by
      rw [SparseMatrix.column, if_pos ⟨by omega, by omega⟩, Int.toNat_natCast]
    refine ⟨_, hcolumn, ?_⟩
    rw [columnEntries_eq]
    exact h.represents.line (·.column == j) Entry.row (·, j)
      (fun e => by simp [Entry.place]) fun _ _ => rfl
  row i hi := by
    have hrow : m.row i = .ok (m.rowEntries i) := by
      rw [SparseMatrix.row, if_pos ⟨by omega, by omega⟩, Int.toNat_natCast]
    refine ⟨_, hrow, ?_⟩
    rw [rowEntries_eq]
    exact h.represents.line (·.row == i) Entry.column (i, ·)
      (fun e => by simp [Entry.place]) fun _ _ => rfl
  dense := by
    rw [SparseMatrix.dense, Coordinates.dense, h.numRows, h.numColumns]
    simp only [h.represents.valueAt_eq]

end Agrees

omit [Scalar α] in
private theorem mem_offered {runs : Runs α} {k i : ℕ} {v : α} :
    (∃ given, (offered runs)[k]? = some given ∧ (i, .finite v) ∈ given) ↔
      ∃ run, runs[k]? = some run ∧ (i, v) ∈ run := by
  rw [offered, List.getElem?_map]
  cases runs[k]? with
  | none => simp
  | some run =>
      simp only [Option.map_some, Option.some.injEq, exists_eq_left', List.mem_map]
      constructor
      · rintro ⟨e, he, heq⟩
        obtain ⟨rfl, hv⟩ := Prod.mk.inj heq
        rw [← Extended.finite.inj hv]
        exact he
      · exact fun he => ⟨_, he, rfl⟩

private theorem Call.adds {call : Call α} (hsmall : call.Small) {u : Unit}
    (hcall : call.run.Returns m m' u) : call.Adds m m' := by
  have hdoes := Call.does hcall
  cases call with
  | appendRows rows =>
      obtain ⟨lists, added, rfl, hadded, rfl, -⟩ := appendRows_returns.mp hdoes
      obtain ⟨hgiven, -⟩ := givenRows_eq_offered (checkedRows_eq_ok.mp hadded)
      refine ⟨rfl, rfl, rfl, ?_, rfl, fun e => ?_⟩
      · rw [hgiven, offered, List.length_map]
        simp only [numRows, List.length_append, Nat.add_assoc]
      · rw [entries_appendRows, List.mem_append, mem_ofRows, hgiven]
        refine or_congr_right ⟨?_, ?_⟩
        · rintro ⟨hle, run, hrun, hmem⟩
          obtain ⟨given, hrow, hgiven⟩ := mem_offered.mpr ⟨run, hrun, hmem⟩
          exact ⟨_, given, hrow, by omega, hgiven⟩
        · rintro ⟨k, given, hrow, hk, hgiven⟩
          rw [hk, Nat.add_sub_cancel_left]
          exact ⟨Nat.le_add_right _ _, mem_offered.mp ⟨given, hrow, hgiven⟩⟩
  | appendColumns starts rows values =>
      obtain ⟨s, r, v, added, hs, hr, hv, hadded, rfl, -⟩ := appendColumns_returns.mp hdoes
      obtain rfl := readPositions_eq_ok.mp hs
      obtain rfl := readPositions_eq_ok.mp hr
      obtain rfl := readValues_eq_ok.mp hv
      rw [Call.Adds, givenColumns_eq_offered (hsmall s rfl) hadded]
      refine ⟨rfl, ?_, fun e => ?_⟩
      · rw [offered, List.length_map]
        simp only [numColumns, List.length_append]
      · rw [(entries_appendColumns_perm m added).mem_iff, List.mem_append, mem_ofColumns]
        refine or_congr_right ⟨?_, ?_⟩
        · rintro ⟨hle, run, hrun, hmem⟩
          obtain ⟨given, hcolumn, hgiven⟩ := mem_offered.mpr ⟨run, hrun, hmem⟩
          exact ⟨_, given, hcolumn, by omega, hgiven⟩
        · rintro ⟨k, given, hcolumn, hk, hgiven⟩
          rw [hk, Nat.add_sub_cancel_left]
          exact ⟨Nat.le_add_right _ _, mem_offered.mp ⟨given, hcolumn, hgiven⟩⟩
  | padRows n =>
      obtain ⟨hle, rfl⟩ := hdoes
      refine ⟨?_, numColumns_padRows m _, entries_padRows m _⟩
      rw [numRows_padRows (by omega)]
      omega
  | copy => exact hdoes

/-- After every run of calls the views of the matrix show the map on which the same calls were made.
Each further call that returns adds exactly the given entries, rows without touching the arrays of
the columns; each call that fails leaves the matrix as it was. -/
theorem Follows.shows (h : Follows m c) :
    Shows m c ∧ ∀ call : Call α,
      (∀ m' u, call.Small → call.run.Returns m m' u → call.Adds m m') ∧
        ∀ f, (call.run m).answer = .error f → (call.run m).state = m :=
  ⟨h.agrees.views, fun call =>
    ⟨fun _ _ hsmall hcall => call.adds hsmall hcall, fun f hfailed => call.atomic m f hfailed⟩⟩

/-- A matrix with an entry of each sort: one that was built, one in an appended row, and two in a
column that was appended after that row, of which one is in that row. -/
theorem Follows.shows_sample :
    let m : SparseMatrix ℚ := ⟨1, [[(0, 5)], [(1, 8), (0, 7)]], [[(0, 2)]]⟩
    (∃ c, Follows m c ∧ Shows m c) ∧ m.dense = [[5, 7], [2, 8]] ∧
      ((Call.padRows 1).run m).state = m := by
  intro m
  let built : SparseMatrix ℚ := ⟨1, [[(0, 5)]], []⟩
  let grown : SparseMatrix ℚ := ⟨1, [[(0, 5)]], [[(0, 2)]]⟩
  have hbuilt := @Follows.build ℚ _ (.ok (.integers [0, 1])) (.ok (.integers [0]))
    (.ok (.numbers [.finite 5])) none built rfl (smallStarts_integers.mpr (by simp))
  have hgrown := @Follows.call ℚ _ built grown _
    (.appendRows (.ok [.ok ⟨.ok (.integers [0]), .ok [.finite 2]⟩])) () hbuilt trivial ⟨rfl, rfl⟩
  have hfollows := @Follows.call ℚ _ grown m _
    (.appendColumns (.ok (.integers [0, 2])) (.ok (.integers [1, 0]))
      (.ok (.numbers [.finite 8, .finite 7]))) () hgrown (smallStarts_integers.mpr (by simp))
        ⟨rfl, rfl⟩
  obtain ⟨hshows, hcalls⟩ := hfollows.shows
  exact ⟨⟨_, hfollows, hshows⟩, by decide +kernel, (hcalls (.padRows 1)).2 (.shrinking 2 1) rfl⟩

end IncrementalLP.SparseMatrix
