import IncrementalLP.Proofs.Matrix.Builds
import IncrementalLP.Proofs.Matrix.Views
/-!
# Arrays of a matrix

A matrix is stored in flat arrays, and each call writes at their ends: columns behind the columns,
rows behind the rows of the arena. No call compares the two stores. That they never share a place is
an invariant of the order of all calls, and so are the offsets, the ranges and the values.
-/
namespace IncrementalLP

/-- The arrays of a matrix: where each column starts, with the rows and values of its entries, and
where each row of the arena starts, with the columns and values of its entries. -/
structure Arrays (α : Type) where
  numRows : ℤ
  columnStart : List ℤ
  rowIndex : List ℤ
  coefficient : List (Extended α)
  /-- The first row of the arena. -/
  arenaFirst : ℤ
  arenaStart : List ℤ
  arenaColumn : List ℤ
  arenaValue : List (Extended α)

/-- Starts for a number of runs that begin at zero, do not decrease, and end at a total. -/
structure Offsets (starts : List ℤ) (count total : ℤ) : Prop where
  length : (starts.length : ℤ) = count + 1
  begins : starts.head? = some 0
  ascends : starts.IsChain (· ≤ ·)
  ends : starts.getLast? = some total

namespace Arrays

variable {α : Type}

/-- The arrays of columns, with an arena that is empty. -/
def ofColumns (numRows : ℤ) (starts rows : List ℤ) (values : List (Extended α)) : Arrays α :=
  ⟨numRows, starts, rows, values, numRows, [0], [], []⟩

/-- The arrays of compressed columns. -/
def ofCompressed (c : Compressed (Extended α)) : Arrays α :=
  .ofColumns c.numRows (c.columns.starts.map fun n : ℕ => (n : ℤ))
    (c.columns.positions.map fun n : ℕ => (n : ℤ)) c.columns.values

/-- The starts of new columns are moved behind the last one. -/
def appendColumns (a : Arrays α) (starts rows : List Int64) (values : List (Extended α)) :
    Arrays α :=
  { a with
    columnStart := a.columnStart ++ starts.tail.map fun s => a.columnStart.getLastD 0 + s.toInt
    rowIndex := a.rowIndex ++ rows.map (·.toInt)
    coefficient := a.coefficient ++ values }

def appendRow (a : Arrays α) (entries : List (Int64 × Extended α)) : Arrays α :=
  { a with
    numRows := a.numRows + 1
    arenaStart := a.arenaStart ++ [(a.arenaColumn.length + entries.length : ℤ)]
    arenaColumn := a.arenaColumn ++ entries.map (·.1.toInt)
    arenaValue := a.arenaValue ++ entries.map (·.2) }

/-- As long as the arena has no row, rows without entries come before it. -/
def padRows (a : Arrays α) (numRows : ℤ) : Arrays α :=
  if a.numRows = a.arenaFirst then
    { a with numRows := numRows, arenaFirst := a.arenaFirst + (numRows - a.numRows) }
  else
    { a with
      numRows := numRows
      arenaStart := a.arenaStart ++
        List.replicate (numRows - a.numRows).toNat (a.arenaColumn.length : ℤ) }

/-- For each entry the run between starts that it is in. Runs are counted from `k`. -/
def owners (k : ℤ) : List ℤ → List ℤ
  | a :: b :: rest => List.replicate (b - a).toNat k ++ owners (k + 1) (b :: rest)
  | _ => []

/-- The places of all entries as rows and columns: those of the columns, then those of the arena. -/
def places (a : Arrays α) : List (ℤ × ℤ) :=
  a.rowIndex.zip (owners 0 a.columnStart) ++ (owners a.arenaFirst a.arenaStart).zip a.arenaColumn

/-- The arrays fit together, for a number of columns: starts go with entries, positions lie inside,
values are finite, and no place is stored twice. -/
structure Intact (a : Arrays α) (numColumns : ℕ) : Prop where
  columnStart : Offsets a.columnStart numColumns a.rowIndex.length
  coefficient : a.coefficient.length = a.rowIndex.length
  rowIndex : ∀ i ∈ a.rowIndex, 0 ≤ i ∧ i < a.numRows
  arenaStart : Offsets a.arenaStart (a.numRows - a.arenaFirst) a.arenaColumn.length
  arenaValue : a.arenaValue.length = a.arenaColumn.length
  arenaColumn : ∀ j ∈ a.arenaColumn, 0 ≤ j ∧ j < numColumns
  finite : ∀ v ∈ a.coefficient ++ a.arenaValue, v.isFinite = true
  once : a.places.Nodup

end Arrays

namespace Runs

variable {β : Type}

private theorem head?_startsFrom (n : ℕ) (runs : Runs β) : (startsFrom n runs).head? = some n := by
  cases runs <;> rfl

private theorem startsFrom_add (n k : ℕ) (runs : Runs β) :
    startsFrom (n + k) runs = (startsFrom k runs).map (n + ·) := by
  induction runs generalizing k with
  | nil => rfl
  | cons run runs ih => rw [startsFrom, startsFrom, List.map_cons, ← ih, Nat.add_assoc]

private theorem startsFrom_append (n : ℕ) (a b : Runs β) :
    startsFrom n (a ++ b) = startsFrom n a ++ (startsFrom (n + a.size) b).tail := by
  induction a generalizing n with
  | nil =>
      cases b <;> rfl
  | cons run a ih =>
      rw [List.cons_append, startsFrom, ih, startsFrom, List.cons_append, size, size,
        List.flatten_cons, List.length_append, Nat.add_assoc]

theorem starts_append (a b : Runs β) :
    (a ++ b).starts = a.starts ++ b.starts.tail.map (a.size + ·) := by
  rw [starts, startsFrom_append, Nat.zero_add, ← Nat.add_zero a.size, startsFrom_add, List.map_tail]
  rfl

theorem positions_append (a b : Runs β) : (a ++ b).positions = a.positions ++ b.positions := by
  rw [positions, List.flatten_append, List.map_append]
  rfl

theorem values_append (a b : Runs β) : (a ++ b).values = a.values ++ b.values := by
  rw [values, List.flatten_append, List.map_append]
  rfl

section

variable (k : ℕ)

private theorem starts_replicate_nil :
    starts (List.replicate k ([] : List (ℕ × β))) = List.replicate (k + 1) 0 := by
  rw [starts]
  induction k with
  | zero => rfl
  | succ k ih =>
      rw [List.replicate_succ, startsFrom, List.length_nil, Nat.add_zero, ih]
      rfl

private theorem positions_replicate_nil :
    positions (List.replicate k ([] : List (ℕ × β))) = [] := by
  rw [positions, List.flatten_replicate_nil]
  rfl

private theorem values_replicate_nil : values (List.replicate k ([] : List (ℕ × β))) = [] := by
  rw [values, List.flatten_replicate_nil]
  rfl

end

private theorem startsFrom_of_differences {n : ℕ} {starts : List ℕ}
    (h : (n :: starts).IsChain (· ≤ ·))
    {runs : Runs β} (hlengths : runs.map List.length = differences (n :: starts)) :
    startsFrom n runs = n :: starts := by
  induction starts generalizing n runs with
  | nil =>
      obtain rfl := List.map_eq_nil_iff.mp hlengths
      rfl
  | cons m starts ih =>
      obtain ⟨hle, hchain⟩ := List.isChain_cons_cons.mp h
      cases runs with
      | nil => cases hlengths
      | cons run runs =>
          obtain ⟨hrun, hruns⟩ := List.cons.inj hlengths
          rw [startsFrom, hrun, Nat.add_sub_cancel' hle, ih hchain hruns]

private theorem offsets_starts (runs : Runs β) :
    Offsets (runs.starts.map fun n : ℕ => (n : ℤ)) runs.length runs.size where
  length := by
    rw [List.length_map, starts, length_startsFrom]
    norm_cast
  begins := by
    rw [List.head?_map, starts, head?_startsFrom]
    rfl
  ascends := by
    rw [List.isChain_map]
    exact (isChain_startsFrom 0 runs).imp fun _ _ h => Int.ofNat_le.mpr h
  ends := by
    have hlast := getLastD_startsFrom 0 0 runs
    rw [List.getLast?_map, starts]
    rw [List.getLastD_eq_getLast?, Nat.zero_add] at hlast
    cases h : (startsFrom 0 runs).getLast? with
    | none =>
        rw [List.getLast?_eq_none_iff] at h
        have hhead := head?_startsFrom 0 runs
        rw [h] at hhead
        cases hhead
    | some n =>
        rw [h] at hlast
        exact congrArg (fun n : ℕ => some (n : ℤ)) hlast

/-- From the starts alone the run of every entry is found. -/
theorem owners_startsFrom (k n : ℕ) (runs : Runs β) :
    Arrays.owners k ((startsFrom n runs).map fun n : ℕ => (n : ℤ)) =
      (owned k runs).map fun e => (e.1 : ℤ) := by
  induction runs generalizing k n with
  | nil => rfl
  | cons run runs ih =>
      have hrest := ih (k + 1) (n + run.length)
      obtain ⟨rest, hstarts⟩ := List.head?_eq_some_iff.mp (head?_startsFrom (n + run.length) runs)
      rw [hstarts, List.map_cons, Nat.cast_add, Nat.cast_add, Nat.cast_one] at hrest
      rw [startsFrom, hstarts, List.map_cons, List.map_cons, Arrays.owners, Nat.cast_add, hrest,
        add_sub_cancel_left, Int.toNat_natCast, owned_cons, List.map_append, List.map_map]
      congr 1
      exact List.map_const'.symm

end Runs

namespace SparseMatrix

variable {α : Type}

/-- The arrays that a matrix is stored in. -/
def arrays (m : SparseMatrix α) : Arrays α where
  numRows := m.numRows
  columnStart := m.columns.starts.map fun n : ℕ => (n : ℤ)
  rowIndex := m.columns.positions.map fun n : ℕ => (n : ℤ)
  coefficient := m.columns.values.map .finite
  arenaFirst := m.baseRows
  arenaStart := m.appended.starts.map fun n : ℕ => (n : ℤ)
  arenaColumn := m.appended.positions.map fun n : ℕ => (n : ℤ)
  arenaValue := m.appended.values.map .finite

/-- The row that is offered, at the end of the arena. -/
def writeRow (a : Arrays α) : Offer (RowEntries α) → Arrays α
  | .ok ⟨.ok (.integers columns), .ok values⟩ => a.appendRow (columns.zip values)
  | _ => a

/-- The call on arrays. -/
def Call.onArrays (a : Arrays α) : Call α → Arrays α
  | .appendRows (.ok rows) => rows.foldl writeRow a
  | .appendColumns (.ok (.integers starts)) (.ok (.integers rows)) (.ok (.numbers values)) =>
    a.appendColumns starts rows values
  | .padRows numRows => a.padRows numRows
  | _ => a

/-- The matrix and the arrays come of the same calls: one that makes a matrix, and then calls that
grow it or fail. -/
inductive Stores [Scalar α] : SparseMatrix α → Arrays α → Prop
  | blank {rows columns : ℤ} {m : SparseMatrix α} : blank? rows columns = .ok m →
      Stores m (.ofColumns rows (List.replicate (columns.toNat + 1) 0) [] [])
  | build {starts rows : List Int64} {values : List (Extended α)} {numRows : Option ℤ}
      {m : SparseMatrix α} :
      build (.ok (.integers starts)) (.ok (.integers rows)) (.ok (.numbers values))
        (.ok (numRows.map .whole)) = .ok m →
      SmallStarts (.ok (.integers starts)) → Stores m
        (.ofColumns (givenCount numRows (.ok (.integers rows))) (starts.map (·.toInt))
          (rows.map (·.toInt)) values)
  | ofCoordinates {numRows numColumns : ℤ} {entries : List (ℤ × ℤ × Extended α)}
      {m : SparseMatrix α} : ofCoordinates numRows numColumns entries = .ok m →
      entries.length < 2 ^ 62 → (∀ e ∈ entries, e.1 < 2 ^ 62) → Stores m
        (.ofCompressed (.ofEntries numRows.toNat numColumns.toNat
          (entries.map fun e => ⟨e.1.toNat, e.2.1.toNat, e.2.2⟩)))
  | ofTable {t : Table α} {m : SparseMatrix α} : ofTable t = .ok m →
      (∀ row ∈ t.rows, row.length = t.numColumns) → t.rows.length < 2 ^ 62 →
      t.nonzeros.length < 2 ^ 62 → Stores m
        (.ofCompressed (.ofEntries t.rows.length t.numColumns t.nonzeros))
  | call {m m' : SparseMatrix α} {a : Arrays α} {call : Call α} {u : Unit} : Stores m a →
      call.Small → call.run.Returns m m' u → Stores m' (call.onArrays a)
  | refused {m : SparseMatrix α} {a : Arrays α} {call : Call α} {f : Fault α} : Stores m a →
      (call.run m).answer = .error f → Stores (call.run m).state a

variable {m m' : SparseMatrix α} {c : Coordinates α} {starts rows : List Int64} {values : List α}
  {runs : Runs α}

private theorem Flat.arrays_eq (h : Flat starts rows values runs) (n : ℕ) :
    arrays ⟨n, runs, []⟩ =
      .ofColumns n (starts.map (·.toInt)) (rows.map (·.toInt)) (values.map .finite) := by
  rw [h.starts, h.rows, h.values]
  rfl

private theorem arrays_blank (numRows numColumns : ℕ) :
    (blank numRows numColumns : SparseMatrix α).arrays =
      .ofColumns numRows (List.replicate (numColumns + 1) 0) [] [] := by
  unfold arrays blank
  rw [Runs.starts_replicate_nil, Runs.positions_replicate_nil, Runs.values_replicate_nil,
    List.map_replicate]
  rfl

theorem Flat.arrays_appendColumns (h : Flat starts rows values runs) :
    arrays { m with columns := m.columns ++ runs } =
      m.arrays.appendColumns starts rows (values.map .finite) := by
  have hlast : m.arrays.columnStart.getLastD 0 = m.columns.size := by
    rw [arrays, List.getLastD_eq_getLast?, m.columns.offsets_starts.ends]
    rfl
  have hstarts : (starts.tail.map fun s => (m.columns.size : ℤ) + s.toInt) =
      (runs.starts.tail.map (m.columns.size + ·)).map fun n : ℕ => (n : ℤ) := by
    have htail : starts.tail.map (·.toInt) = runs.starts.tail.map fun n : ℕ => (n : ℤ) := by
      rw [List.map_tail, h.starts, List.map_tail]
    have hmoved := congrArg (List.map ((m.columns.size : ℤ) + ·)) htail
    rw [List.map_map, List.map_map] at hmoved
    rw [List.map_map]
    exact hmoved
  rw [Arrays.appendColumns, hlast, hstarts, h.rows, h.values]
  simp only [arrays, Runs.starts_append, Runs.positions_append, Runs.values_append, List.map_append]
  rfl

private theorem Fits.arrays_appendRow {n : ℕ} {offer : Offer (RowEntries α)} {run : List (ℕ × α)}
    (h : Fits n offer run) :
    arrays { m with appended := m.appended ++ [run] } = writeRow m.arrays offer := by
  obtain ⟨columns, values, rfl, hcolumns, -, rfl⟩ := h
  rw [writeRow]
  have hgiven : columns.zip (values.map Extended.finite) =
      (columns.zip values).map (Prod.map id Extended.finite) := List.zip_map_right
  generalize columns.zip (values.map Extended.finite) = given at hgiven ⊢
  have hstart : ((Runs.starts [(columns.map (·.toInt.toNat)).zip values]).tail.map
      (m.appended.size + ·)).map (fun n : ℕ => (n : ℤ)) =
        [(m.arrays.arenaColumn.length + given.length : ℤ)] := by
    rw [arrays, List.length_map, Runs.length_positions, hgiven, ← Nat.cast_add]
    simp [Runs.starts, Runs.startsFrom]
  have hcolumn : (Runs.positions [(columns.map (·.toInt.toNat)).zip values]).map
      (fun n : ℕ => (n : ℤ)) = given.map (·.1.toInt) := by
    rw [Runs.positions, List.flatten_singleton, List.zip_map_left, hgiven, List.map_map,
      List.map_map, List.map_map]
    exact List.map_congr_left fun e he =>
      Int.toNat_of_nonneg (hcolumns e.1 (List.of_mem_zip he).1).1
  have hvalue : (Runs.values [(columns.map (·.toInt.toNat)).zip values]).map Extended.finite =
      given.map (·.2) := by
    rw [Runs.values, List.flatten_singleton, List.zip_map_left, hgiven, List.map_map, List.map_map,
      List.map_map]
    rfl
  rw [Arrays.appendRow, ← hstart, ← hcolumn, ← hvalue]
  simp only [arrays, Runs.starts_append, Runs.positions_append, Runs.values_append, List.map_append,
    numRows, List.length_append]
  rfl

private theorem arrays_padRows {n : ℤ} (h : m.numRows ≤ n) :
    (m.padRows n.toNat).arrays = m.arrays.padRows n := by
  have hfirst : m.arrays.numRows = m.arrays.arenaFirst ↔ m.appended = [] := by
    rw [← List.length_eq_zero_iff]
    simp only [arrays, numRows]
    omega
  have hrows : ((m.padRows n.toNat).numRows : ℤ) = n := by
    rw [numRows_padRows (by omega)]
    omega
  rw [arrays, hrows]
  unfold SparseMatrix.padRows Arrays.padRows
  simp only [List.isEmpty_iff, hfirst]
  split
  · have hbase : ((m.baseRows + (n.toNat - m.numRows) : ℕ) : ℤ) = m.baseRows + (n - m.numRows) := by
      omega
    simp only [arrays, hbase]
  · have hcount : n.toNat - m.numRows = (n - m.numRows).toNat := by omega
    simp only [arrays, Runs.starts_append, Runs.positions_append, Runs.values_append, hcount,
      Runs.starts_replicate_nil, Runs.positions_replicate_nil, Runs.values_replicate_nil,
      List.append_nil, List.replicate_succ, List.tail_cons, List.map_append, List.map_replicate,
      Nat.add_zero, List.length_map, Runs.length_positions]

/-- Rows that fit are written one after the other. -/
theorem arrays_appendRows {lists : List (Offer (RowEntries α))} {n : ℕ}
    (h : List.Forall₂ (Fits n) lists runs) :
    arrays { m with appended := m.appended ++ runs } = lists.foldl writeRow m.arrays := by
  induction h generalizing m with
  | nil =>
      rw [List.append_nil]
      rfl
  | @cons offer run lists runs hrun _ ih =>
      rw [List.foldl_cons, ← hrun.arrays_appendRow, ← ih, List.append_assoc]
      rfl

variable [Scalar α]

private theorem flat_of_checkedRuns {first : ℕ} {numRows : Ordinal α}
    (hsmall : ∀ s ∈ starts, |s.toInt| < 2 ^ 62)
    (h : checkedRuns first numRows starts rows values = .ok runs) :
    Flat starts rows values runs := by
  have hascends := ascends_of_checkedRuns hsmall h
  obtain ⟨⟨hbegins, -⟩, ⟨hrows, hvalues⟩, ⟨-, hrange, -⟩, rfl⟩ := checkedRuns_eq_ok.mp h
  obtain ⟨hwords, hchain⟩ := words_of_ascends hbegins hascends
  have hflatten : ((cutRuns starts rows values).map storedRun).flatten =
      (rows.map (·.toInt.toNat)).zip values := by
    rw [List.zip_map_left, ← flatten_cutRuns hbegins hascends hrows hvalues, List.map_flatten]
    rfl
  have hlengths : ((cutRuns starts rows values).map storedRun).map List.length =
      Runs.differences (starts.map (·.toInt.toNat)) := by
    have hcut := Runs.map_length_cut (length_zip_eq_sum hbegins hascends hrows hvalues).ge
    rw [List.map_map, ← hwords.lengths hchain, ← hcut]
    exact List.map_congr_left fun run _ => List.length_map _
  constructor
  · obtain ⟨rest, rfl⟩ := List.head?_eq_some_iff.mp hbegins
    exact hwords.trans (congrArg _ (Runs.startsFrom_of_differences hchain hlengths).symm)
  · rw [Runs.positions, hflatten, List.map_fst_zip (by rw [List.length_map]; omega)]
    exact Runs.words_of_nonneg fun r hr => (hrange r hr).1
  · rw [Runs.values, hflatten, List.map_snd_zip (by rw [List.length_map]; omega)]

private theorem arrays_of_ofCompressed {numRows numColumns : ℕ} {es : List (Entry (Extended α))}
    (h : ofCompressed (.ofEntries numRows numColumns es) = .ok m)
    (hrows : ∀ e ∈ es, e.row < 2 ^ 62) (hlength : es.length < 2 ^ 62) :
    m.arrays = .ofCompressed (.ofEntries numRows numColumns es) := by
  obtain ⟨runs, hruns, -, rfl⟩ := (ofCompressed_ofEntries_eq_ok hrows hlength).mp h
  rw [Arrays.ofCompressed, hruns, starts_offered, positions_offered, values_offered]
  rfl

private theorem Call.arrays_eq {call : Call α} (hsmall : call.Small) {u : Unit}
    (hcall : call.run.Returns m m' u) : m'.arrays = call.onArrays m.arrays := by
  have hdoes := Call.does hcall
  cases call with
  | appendRows rows =>
      obtain ⟨lists, added, rfl, hadded, rfl, -⟩ := appendRows_returns.mp hdoes
      exact arrays_appendRows (checkedRows_eq_ok.mp hadded)
  | appendColumns starts rows values =>
      obtain ⟨s, r, v, added, hs, hr, hv, hadded, rfl, -⟩ := appendColumns_returns.mp hdoes
      obtain rfl := readPositions_eq_ok.mp hs
      obtain rfl := readPositions_eq_ok.mp hr
      obtain rfl := readValues_eq_ok.mp hv
      exact (flat_of_checkedRuns (hsmall s rfl) hadded).arrays_appendColumns
  | padRows n =>
      obtain ⟨hle, rfl⟩ := hdoes
      exact arrays_padRows hle
  | copy =>
      obtain rfl := hdoes
      rfl

/-- The arrays that calls have written are those of the matrix. -/
theorem Stores.eq_arrays {a : Arrays α} (h : Stores m a) : a = m.arrays := by
  induction h with
  | @blank rows columns m hblank =>
      unfold blank? at hblank
      split at hblank
      · cases hblank
      · next hnot =>
        obtain rfl := Except.ok.inj hblank
        rw [arrays_blank, Int.toNat_of_nonneg (by omega)]
  | @build starts rows values numRows m hbuild hsmall =>
      obtain ⟨s, r, v, given, count, columns, n, hs, hr, hv, hgiven, hcount, hcolumns, hn, rfl⟩ :=
        build_eq_ok.mp hbuild
      obtain rfl := IndexArray.integers.inj (Except.ok.inj hs)
      obtain rfl := IndexArray.integers.inj (Except.ok.inj hr)
      obtain rfl := ValueArray.numbers.inj (Except.ok.inj hv)
      obtain rfl := Except.ok.inj hgiven
      rw [(rowCount_eq_ok hcount hn).1]
      exact ((flat_of_checkedRuns (hsmall _ rfl) hcolumns).arrays_eq n).symm
  | @ofCoordinates numRows numColumns entries m hmade hlength hrows =>
      obtain ⟨hcompressed, hbelow, -⟩ := ofCompressed_of_ofCoordinates hmade hrows
      exact (arrays_of_ofCompressed hcompressed hbelow (by rwa [List.length_map])).symm
  | @ofTable t m hmade hwidth hrows hlength =>
      have hinside := inside_of_mem_nonzeros hwidth
      exact (arrays_of_ofCompressed hmade (fun e he => (hinside e he).1.trans hrows) hlength).symm
  | call _ hsmall hcall ih => rw [ih, Call.arrays_eq hsmall hcall]
  | @refused m a call f _ hfailed ih => rw [ih, call.atomic m f hfailed]

private theorem Stores.follows {a : Arrays α} (h : Stores m a) : ∃ c, Follows m c := by
  induction h with
  | blank hblank => exact ⟨_, .blank hblank⟩
  | build hbuild hsmall => exact ⟨_, .build hbuild hsmall⟩
  | ofCoordinates hmade hlength hrows => exact ⟨_, .ofCoordinates hmade hlength hrows⟩
  | ofTable hmade hwidth hrows hlength => exact ⟨_, .ofTable hmade hwidth hrows hlength⟩
  | call _ hsmall hcall ih =>
      obtain ⟨c, hc⟩ := ih
      exact ⟨_, hc.call hsmall hcall⟩
  | refused _ hfailed ih =>
      obtain ⟨c, hc⟩ := ih
      exact ⟨c, hc.refused hfailed⟩

omit [Scalar α]

private theorem places_arrays (m : SparseMatrix α) :
    m.arrays.places = (m.entries.map Entry.place).map (Prod.map Nat.cast Nat.cast) := by
  have hpositions (k : ℕ) (runs : Runs α) : (runs.positions.map fun n : ℕ => (n : ℤ)) =
      (Runs.owned k runs).map fun e => (e.2.1 : ℤ) := by
    rw [Runs.positions, ← Runs.map_snd_owned k, List.map_map, List.map_map]
    rfl
  have howners := Runs.owners_startsFrom 0 0 m.columns
  rw [Nat.cast_zero] at howners
  rw [Arrays.places, arrays, Runs.starts, Runs.starts, howners, Runs.owners_startsFrom m.baseRows,
    hpositions 0, hpositions m.baseRows, List.zip_map', List.zip_map', entries_eq, List.map_append,
    List.map_append, ofColumns, ofRows, List.map_map, List.map_map, List.map_map, List.map_map]
  rfl

private theorem Agrees.intact (h : Agrees m c) : m.arrays.Intact m.numColumns where
  columnStart := by
    have hstarts := m.columns.offsets_starts
    rwa [← Runs.length_positions, ← List.length_map (fun n : ℕ => (n : ℤ))] at hstarts
  coefficient := by simp [arrays]
  rowIndex := by
    rw [arrays, List.forall_mem_map, ← map_row_ofColumns 0, List.forall_mem_map]
    intro e he
    have := h.inside e (by rw [entries_eq]; exact List.mem_append_left _ he)
    simp only
    omega
  arenaStart := by
    have hstarts := m.appended.offsets_starts
    rw [← Runs.length_positions, ← List.length_map (fun n : ℕ => (n : ℤ))] at hstarts
    have hcount : m.arrays.numRows - m.arrays.arenaFirst = m.appended.length := by
      simp only [arrays, SparseMatrix.numRows]
      omega
    rwa [hcount]
  arenaValue := by simp [arrays]
  arenaColumn := by
    rw [arrays, List.forall_mem_map, ← map_column_ofRows m.baseRows, List.forall_mem_map]
    intro e he
    have := h.inside e (by rw [entries_eq]; exact List.mem_append_right _ he)
    omega
  finite := by
    rw [arrays, ← List.map_append, List.forall_mem_map]
    exact fun _ _ => rfl
  once := by
    rw [places_arrays]
    exact h.represents.nodup.map (Nat.cast_injective.prodMap Nat.cast_injective)

variable [Scalar α]

/-- After every run of calls the arrays are those of the matrix, and fit together. -/
theorem Stores.arrays_intact {a : Arrays α} (h : Stores m a) :
    a = m.arrays ∧ a.Intact m.numColumns := by
  obtain ⟨c, hc⟩ := h.follows
  rw [h.eq_arrays]
  exact ⟨rfl, hc.agrees.intact⟩

/-- Rows are added before the arena has one and after, and a column in between has an entry in a row
of the arena; the last call would shrink the matrix. -/
theorem Stores.arrays_intact_sample :
    let m : SparseMatrix ℚ := ⟨2, [[(0, 5)], [(2, 8), (1, 7)]], [[(0, 2)], []]⟩
    let a : Arrays ℚ := ⟨4, [0, 1, 3], [0, 2, 1], [.finite 5, .finite 8, .finite 7], 2, [0, 1, 1],
      [0], [.finite 2]⟩
    Stores m a ∧ a.Intact 2 ∧ a.places = [(0, 0), (2, 1), (1, 1), (2, 0)] := by
  intro m a
  have hbuilt := @Stores.build ℚ _ [0, 1] [0] [.finite 5] none ⟨1, [[(0, 5)]], []⟩ rfl
    (smallStarts_integers.mpr (by simp))
  have hpadded := @Stores.call ℚ _ _ ⟨2, [[(0, 5)]], []⟩ _ (.padRows 2) () hbuilt trivial ⟨rfl, rfl⟩
  have hrow := @Stores.call ℚ _ _ ⟨2, [[(0, 5)]], [[(0, 2)]]⟩ _
    (.appendRows (.ok [.ok ⟨.ok (.integers [0]), .ok [.finite 2]⟩])) () hpadded trivial ⟨rfl, rfl⟩
  have hcolumn := @Stores.call ℚ _ _ ⟨2, [[(0, 5)], [(2, 8), (1, 7)]], [[(0, 2)]]⟩ _
    (.appendColumns (.ok (.integers [0, 2])) (.ok (.integers [2, 1]))
      (.ok (.numbers [.finite 8, .finite 7]))) () hrow (smallStarts_integers.mpr (by simp))
        ⟨rfl, rfl⟩
  have hgrown := @Stores.call ℚ _ _ m _ (.padRows 4) () hcolumn trivial ⟨rfl, rfl⟩
  have hstores : Stores m a := @Stores.refused ℚ _ m _ (.padRows 3) (.shrinking 4 3) hgrown rfl
  exact ⟨hstores, hstores.arrays_intact.2, rfl⟩

end SparseMatrix

end IncrementalLP
