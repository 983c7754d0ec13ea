import IncrementalLP.Proofs.Matrix.Conversions
/-!
# Matrices as coordinate maps

The same calls are made on a matrix and on a finite map from coordinates to values. After every run
of calls all views of the matrix show the map.
-/
namespace IncrementalLP

variable {α : Type}

/-- A matrix as a finite map from coordinates to values. -/
structure Coordinates (α : Type) where
  numRows : ℕ
  numColumns : ℕ
  values : Finmap fun _ : ℕ × ℕ => Extended α

namespace Coordinates

def blank (numRows numColumns : ℕ) : Coordinates α := ⟨numRows, numColumns, ∅⟩

def appendRow (c : Coordinates α) (row : List (ℕ × Extended α)) : Coordinates α :=
  { c with
    numRows := c.numRows + 1
    values := row.foldl (fun f e => f.insert (c.numRows, e.1) e.2) c.values }

def appendColumn (c : Coordinates α) (column : List (ℕ × Extended α)) : Coordinates α :=
  { c with
    numColumns := c.numColumns + 1
    values := column.foldl (fun f e => f.insert (e.1, c.numColumns) e.2) c.values }

def appendRows (c : Coordinates α) (rows : List (List (ℕ × Extended α))) : Coordinates α :=
  rows.foldl appendRow c

def appendColumns (c : Coordinates α) (columns : List (List (ℕ × Extended α))) : Coordinates α :=
  columns.foldl appendColumn c

def padRows (c : Coordinates α) (numRows : ℕ) : Coordinates α := { c with numRows := numRows }

section

variable [Scalar α]

/-- Adds a value to that of its place. -/
def add (f : Finmap fun _ : ℕ × ℕ => Extended α) (e : Entry (Extended α)) :
    Finmap fun _ : ℕ × ℕ => Extended α :=
  f.insert e.place (match f.lookup e.place with
    | some v => v + e.value
    | none => e.value)

/-- The sums of the values that are given for each place. -/
def ofEntries (numRows numColumns : ℕ) (entries : List (Entry (Extended α))) : Coordinates α :=
  ⟨numRows, numColumns, entries.foldl add ∅⟩

/-- The rows of the map with all their zeros; what is stored is added to zero. -/
def dense (c : Coordinates α) : List (List α) :=
  (List.range c.numRows).map fun i => (List.range c.numColumns).map fun j =>
    match c.values.lookup (i, j) with
    | some (.finite v) => 0 + v
    | _ => 0

end

end Coordinates

/-- The entries are those of the map: each place once, with its value. -/
structure Represents (es : List (Entry α)) (f : Finmap fun _ : ℕ × ℕ => Extended α) : Prop where
  nodup : (es.map Entry.place).Nodup
  lookup (i j : ℕ) (w : Extended α) :
    f.lookup (i, j) = some w ↔ ∃ v, w = .finite v ∧ ⟨i, j, v⟩ ∈ es

namespace Represents

variable {es new : List (Entry α)} {f : Finmap fun _ : ℕ × ℕ => Extended α}

theorem empty : Represents ([] : List (Entry α)) ∅ := ⟨List.nodup_nil, by simp⟩

theorem perm (h : Represents es f) (hperm : es.Perm new) : Represents new f where
  nodup := (hperm.map _).nodup_iff.mp h.nodup
  lookup i j w := by simp only [h.lookup, hperm.mem_iff]

private theorem insert (h : Represents es f) {e : Entry α} (he : e.place ∉ es.map Entry.place) :
    Represents (es ++ [e]) (f.insert e.place (.finite e.value)) where
  nodup := by
    rw [List.map_append, List.map_singleton]
    exact List.nodup_append.mpr ⟨h.nodup, List.nodup_singleton _, by
      rintro p hp _ hq rfl
      exact he (List.mem_singleton.mp hq ▸ hp)⟩
  lookup i j w := by
    by_cases hplace : (i, j) = e.place
    · rw [hplace, Finmap.lookup_insert]
      constructor
      · intro hw
        refine ⟨e.value, (Option.some.inj hw).symm, List.mem_append_right _ ?_⟩
        rw [List.mem_singleton, (Prod.mk.inj hplace).1, (Prod.mk.inj hplace).2]
      · rintro ⟨v, rfl, hmem⟩
        rcases List.mem_append.mp hmem with hmem | hmem
        · exact absurd (List.mem_map.mpr ⟨_, hmem, hplace⟩) he
        · rw [← List.mem_singleton.mp hmem]
    · rw [Finmap.lookup_insert_of_ne _ hplace, h.lookup]
      refine exists_congr fun v => and_congr_right fun _ => ?_
      rw [List.mem_append, List.mem_singleton]
      refine (or_iff_left fun heq => hplace ?_).symm
      rw [← heq]
      rfl

theorem foldl_insert (h : Represents es f) (hnodup : (new.map Entry.place).Nodup)
    (hnew : ∀ e ∈ new, e.place ∉ es.map Entry.place) :
    Represents (es ++ new) (new.foldl (fun f e => f.insert e.place (.finite e.value)) f) := by
  induction new generalizing es f with
  | nil =>
      rw [List.append_nil]
      exact h
  | cons e new ih =>
      obtain ⟨hfirst, hrest⟩ := List.nodup_cons.mp hnodup
      obtain ⟨he, hnew⟩ := List.forall_mem_cons.mp hnew
      rw [List.foldl_cons, List.append_cons]
      refine ih (h.insert he) hrest fun e' he' hmem => ?_
      rw [List.map_append, List.map_singleton] at hmem
      rcases List.mem_append.mp hmem with hmem | hmem
      · exact hnew e' he' hmem
      · rw [← List.mem_singleton.mp hmem] at hfirst
        exact hfirst (List.mem_map_of_mem he')

theorem card_keys (h : Represents es f) : f.keys.card = es.length := by
  have hkeys : f.keys = (es.map Entry.place).toFinset := by
    ext ⟨i, j⟩
    rw [Finmap.mem_keys, ← Finmap.lookup_isSome, Option.isSome_iff_exists, List.mem_toFinset,
      List.mem_map]
    constructor
    · rintro ⟨w, hw⟩
      obtain ⟨v, -, hmem⟩ := (h.lookup i j w).mp hw
      exact ⟨_, hmem, rfl⟩
    · rintro ⟨e, hmem, hplace⟩
      obtain ⟨rfl, rfl⟩ := Prod.mk.inj hplace
      exact ⟨.finite e.value, (h.lookup _ _ _).mpr ⟨e.value, rfl, hmem⟩⟩
  rw [hkeys, List.toFinset_card_of_nodup h.nodup, List.length_map]

theorem line (h : Represents es f) (p : Entry α → Bool) (position : Entry α → ℕ)
    (place : ℕ → ℕ × ℕ) (hplace : ∀ e, p e = true ↔ e.place = place (position e))
    (hposition : ∀ k v, position ⟨(place k).1, (place k).2, v⟩ = k) :
    (((es.filter p).map fun e => (position e, e.value)).map (·.1)).Nodup ∧
      ∀ k w, f.lookup (place k) = some w ↔
        ∃ v, w = .finite v ∧ (k, v) ∈ (es.filter p).map fun e => (position e, e.value) := by
  constructor
  · have hplaces := h.nodup.sublist ((List.filter_sublist (p := p)).map Entry.place)
    have hline : (es.filter p).map Entry.place =
        (((es.filter p).map fun e => (position e, e.value)).map (·.1)).map place := by
      rw [List.map_map, List.map_map]
      exact List.map_congr_left fun e he => (hplace e).mp (List.mem_filter.mp he).2
    rw [hline] at hplaces
    exact hplaces.of_map
  · intro k w
    rw [← Prod.mk.eta (p := place k), h.lookup]
    refine exists_congr fun v => and_congr_right fun _ => ?_
    rw [List.mem_map]
    constructor
    · intro hmem
      refine ⟨_, List.mem_filter.mpr ⟨hmem, (hplace _).mpr ?_⟩, ?_⟩
      · rw [hposition]
        rfl
      · rw [hposition]
    · rintro ⟨e, he, heq⟩
      obtain ⟨hmem, hp⟩ := List.mem_filter.mp he
      obtain ⟨rfl, rfl⟩ := Prod.mk.inj heq
      rw [← (hplace e).mp hp]
      exact hmem

/-- The value of a place is what the map has there, added to zero. -/
theorem valueAt_eq [Scalar α] (h : Represents es f) (i j : ℕ) :
    SparseMatrix.valueAt es i j =
      match f.lookup (i, j) with
      | some (.finite v) => 0 + v
      | _ => 0 := by
  have hmem {e : Entry α} : e ∈ es.filter (fun e => e.row == i && e.column == j) ↔
      e ∈ es ∧ e.place = (i, j) := by
    rw [List.mem_filter, Bool.and_eq_true, beq_iff_eq, beq_iff_eq, Entry.place, Prod.mk.injEq]
  have hnodup := h.nodup.sublist
    ((List.filter_sublist (p := fun e : Entry α => e.row == i && e.column == j)).map Entry.place)
  rw [SparseMatrix.valueAt]
  cases hfilter : es.filter fun e => e.row == i && e.column == j with
  | nil =>
      have hnone : f.lookup (i, j) = none := by
        rw [Option.eq_none_iff_forall_ne_some]
        intro w hw
        obtain ⟨v, -, hv⟩ := (h.lookup i j w).mp hw
        have := hmem.mpr ⟨hv, rfl⟩
        rw [hfilter] at this
        cases this
      rw [hnone]
      rfl
  | cons e rest =>
      rw [hfilter] at hmem hnodup
      obtain ⟨he, hplace⟩ := hmem.mp List.mem_cons_self
      have hrest : rest = [] := by
        rw [List.eq_nil_iff_forall_not_mem]
        intro e' he'
        have heq := (hmem.mp (List.mem_cons_of_mem _ he')).2.trans hplace.symm
        exact (List.nodup_cons.mp hnodup).1 (List.mem_map.mpr ⟨e', he', heq⟩)
      obtain ⟨rfl, rfl⟩ := Prod.mk.inj hplace
      rw [hrest, (h.lookup _ _ (.finite e.value)).mpr ⟨e.value, rfl, he⟩]
      rfl

end Represents

namespace SparseMatrix

/-- The matrix has the size of the map, and its entries are those of the map and lie inside. -/
structure Agrees (m : SparseMatrix α) (c : Coordinates α) : Prop where
  numRows : m.numRows = c.numRows
  numColumns : m.numColumns = c.numColumns
  inside : ∀ e ∈ m.entries, e.row < m.numRows ∧ e.column < m.numColumns
  represents : Represents m.entries c.values

namespace Agrees

variable {m : SparseMatrix α} {c : Coordinates α} {run : List (ℕ × α)} {runs : Runs α}

private theorem nodup_places {place : ℕ → ℕ × ℕ} (hplace : Function.Injective place)
    (hrun : (run.map (·.1)).Nodup) : (run.map fun e => place e.1).Nodup := by
  have hmap := hrun.map hplace
  rwa [List.map_map] at hmap

private theorem appendRow (h : Agrees m c) (hnodup : (run.map (·.1)).Nodup)
    (hlt : ∀ e ∈ run, e.1 < m.numColumns) :
    Agrees { m with appended := m.appended ++ [run] }
      (c.appendRow (run.map fun e => (e.1, .finite e.2))) := by
  have hentries := entries_appendRows m [run]
  have hnew : ofRows m.numRows [run] = run.map fun e => ⟨m.numRows, e.1, e.2⟩ := by
    simp [ofRows, Runs.owned]
  rw [hnew] at hentries
  have hsize : SparseMatrix.numRows { m with appended := m.appended ++ [run] } = m.numRows + 1 := by
    simp only [SparseMatrix.numRows, List.length_append, List.length_singleton]
    omega
  refine ⟨hsize.trans (congrArg (· + 1) h.numRows), h.numColumns, ?_, ?_⟩
  · rw [hentries, hsize]
    intro e he
    rcases List.mem_append.mp he with he | he
    · obtain ⟨hrow, hcolumn⟩ := h.inside e he
      exact ⟨Nat.lt_succ_of_lt hrow, hcolumn⟩
    · obtain ⟨e', he', rfl⟩ := List.mem_map.mp he
      exact ⟨Nat.lt_succ_self _, hlt e' he'⟩
  · have hplaces : ((run.map fun e => (⟨m.numRows, e.1, e.2⟩ : Entry α)).map
        Entry.place).Nodup := by
      rw [List.map_map]
      exact nodup_places (fun _ _ heq => (Prod.mk.inj heq).2) hnodup
    have hfresh : ∀ e ∈ run.map fun e => (⟨m.numRows, e.1, e.2⟩ : Entry α),
        e.place ∉ m.entries.map Entry.place := by
      intro e he hplace
      obtain ⟨e, -, rfl⟩ := List.mem_map.mp he
      obtain ⟨e', he', heq⟩ := List.mem_map.mp hplace
      have := (h.inside e' he').1
      rw [show e'.row = m.numRows from (Prod.mk.inj heq).1] at this
      exact lt_irrefl _ this
    have hrepresents := h.represents.foldl_insert hplaces hfresh
    rw [hentries, Coordinates.appendRow, List.foldl_map, ← h.numRows]
    rw [List.foldl_map] at hrepresents
    exact hrepresents

private theorem appendColumn (h : Agrees m c) (hnodup : (run.map (·.1)).Nodup)
    (hlt : ∀ e ∈ run, e.1 < m.numRows) :
    Agrees { m with columns := m.columns ++ [run] }
      (c.appendColumn (run.map fun e => (e.1, .finite e.2))) := by
  have hentries := entries_appendColumns_perm m [run]
  have hnew : ofColumns m.numColumns [run] = run.map fun e => ⟨e.1, m.numColumns, e.2⟩ := by
    simp [ofColumns, Runs.owned]
  rw [hnew] at hentries
  have hsize : SparseMatrix.numColumns { m with columns := m.columns ++ [run] } =
      m.numColumns + 1 := by
    simp only [SparseMatrix.numColumns, List.length_append, List.length_singleton]
  refine ⟨h.numRows, hsize.trans (congrArg (· + 1) h.numColumns), ?_, ?_⟩
  · rw [hsize]
    intro e he
    rcases List.mem_append.mp (hentries.mem_iff.mp he) with he | he
    · obtain ⟨hrow, hcolumn⟩ := h.inside e he
      exact ⟨hrow, Nat.lt_succ_of_lt hcolumn⟩
    · obtain ⟨e', he', rfl⟩ := List.mem_map.mp he
      exact ⟨hlt e' he', Nat.lt_succ_self _⟩
  · have hplaces : ((run.map fun e => (⟨e.1, m.numColumns, e.2⟩ : Entry α)).map
        Entry.place).Nodup := by
      rw [List.map_map]
      exact nodup_places (fun _ _ heq => (Prod.mk.inj heq).1) hnodup
    have hfresh : ∀ e ∈ run.map fun e => (⟨e.1, m.numColumns, e.2⟩ : Entry α),
        e.place ∉ m.entries.map Entry.place := by
      intro e he hplace
      obtain ⟨e, -, rfl⟩ := List.mem_map.mp he
      obtain ⟨e', he', heq⟩ := List.mem_map.mp hplace
      have := (h.inside e' he').2
      rw [show e'.column = m.numColumns from (Prod.mk.inj heq).2] at this
      exact lt_irrefl _ this
    have hrepresents := h.represents.foldl_insert hplaces hfresh
    rw [Coordinates.appendColumn, List.foldl_map, ← h.numColumns]
    rw [List.foldl_map] at hrepresents
    exact hrepresents.perm hentries.symm

theorem appendRows (h : Agrees m c)
    (hruns : ∀ run ∈ runs, (run.map (·.1)).Nodup ∧ ∀ e ∈ run, e.1 < m.numColumns) :
    Agrees { m with appended := m.appended ++ runs } (c.appendRows (offered runs)) := by
  induction runs generalizing m c with
  | nil =>
      rw [List.append_nil]
      exact h
  | cons run runs ih =>
      obtain ⟨⟨hnodup, hlt⟩, hruns⟩ := List.forall_mem_cons.mp hruns
      rw [List.append_cons]
      exact ih (h.appendRow hnodup hlt) hruns

theorem appendColumns (h : Agrees m c)
    (hruns : ∀ run ∈ runs, (run.map (·.1)).Nodup ∧ ∀ e ∈ run, e.1 < m.numRows) :
    Agrees { m with columns := m.columns ++ runs } (c.appendColumns (offered runs)) := by
  induction runs generalizing m c with
  | nil =>
      rw [List.append_nil]
      exact h
  | cons run runs ih =>
      obtain ⟨⟨hnodup, hlt⟩, hruns⟩ := List.forall_mem_cons.mp hruns
      rw [List.append_cons]
      exact ih (h.appendColumn hnodup hlt) hruns

theorem padRows (h : Agrees m c) {n : ℕ} (hn : m.numRows ≤ n) :
    Agrees (m.padRows n) (c.padRows n) where
  numRows := numRows_padRows hn
  numColumns := (numColumns_padRows m n).trans h.numColumns
  inside := by
    rw [entries_padRows, numRows_padRows hn, numColumns_padRows]
    exact fun e he => ⟨(h.inside e he).1.trans_le hn, (h.inside e he).2⟩
  represents := by
    rw [entries_padRows]
    exact h.represents

theorem blank (numRows numColumns : ℕ) :
    Agrees (SparseMatrix.blank numRows numColumns : SparseMatrix α)
      (.blank numRows numColumns) := by
  have hentries : (SparseMatrix.blank numRows numColumns : SparseMatrix α).entries = [] := by
    rw [← List.length_eq_zero_iff, ← size_eq]
    simp [SparseMatrix.blank, size, Runs.size]
  refine ⟨rfl, List.length_replicate .., ?_, ?_⟩
  · rw [hentries]
    exact fun e he => absurd he List.not_mem_nil
  · rw [hentries]
    exact .empty

variable [Scalar α]

private theorem lookup_foldl_add (es : List (Entry (Extended α)))
    (f : Finmap fun _ : ℕ × ℕ => Extended α) (i j : ℕ) :
    (es.foldl Coordinates.add f).lookup (i, j) =
      Compressed.totalFrom (f.lookup (i, j))
        ((es.filter (·.column == j)).map fun e => (e.row, e.value)) i := by
  induction es generalizing f with
  | nil => rfl
  | cons e es ih =>
      rw [List.foldl_cons, ih]
      by_cases hcolumn : e.column = j
      · rw [List.filter_cons_of_pos (by simpa using hcolumn), List.map_cons]
        by_cases hrow : e.row = i
        · have hplace : e.place = (i, j) := Prod.ext hrow hcolumn
          subst hrow
          rw [Compressed.totalFrom_cons_self, Coordinates.add, hplace, Finmap.lookup_insert]
          cases f.lookup (e.row, j) <;> rfl
        · have hplace : (i, j) ≠ e.place := fun h => hrow (Prod.mk.inj h).1.symm
          rw [Compressed.totalFrom_cons_of_ne hrow, Coordinates.add,
            Finmap.lookup_insert_of_ne _ hplace]
      · have hplace : (i, j) ≠ e.place := fun h => hcolumn (Prod.mk.inj h).2.symm
        rw [List.filter_cons_of_neg (by simpa using hcolumn), Coordinates.add,
          Finmap.lookup_insert_of_ne _ hplace]

theorem ofEntries {numRows numColumns : ℕ} {es : List (Entry (Extended α))}
    (hruns : (Compressed.ofEntries numRows numColumns es).columns = offered runs)
    (hfit : RunsFit (.whole numRows : Ordinal α) runs)
    (hcolumns : ∀ e ∈ es, e.column < numColumns) :
    Agrees ⟨numRows, runs, []⟩ (.ofEntries numRows numColumns es) := by
  have hlength : runs.length = numColumns := by
    have h := congrArg List.length hruns
    rw [Compressed.ofEntries, offered, List.length_map, List.length_map, List.length_range] at h
    exact h.symm
  have hrun {j : ℕ} {run : List (ℕ × α)} (h : runs[j]? = some run) :
      Compressed.columnOf ((es.filter (·.column == j)).map fun e => (e.row, e.value)) =
        run.map fun e => (e.1, .finite e.2) := by
    have hj := (List.getElem?_eq_some_iff.mp h).1
    have hget := congrArg (·[j]?) hruns
    simp only [Compressed.ofEntries, offered, List.getElem?_map, h,
      List.getElem?_range (hlength ▸ hj), Option.map_some, Option.some.injEq] at hget
    exact hget
  have hblank := (blank (α := α) numRows 0).appendColumns (runsFit_whole.mp hfit)
  refine ⟨rfl, hlength, hblank.inside, hblank.represents.nodup, fun i j w => ?_⟩
  rw [Coordinates.ofEntries, lookup_foldl_add, Finmap.lookup_empty,
    ← (Compressed.mem_columnOf _).2, entries_columns]
  simp only [mem_ofColumns, Nat.zero_le, true_and, Nat.sub_zero]
  cases hj : runs[j]? with
  | some run =>
      rw [hrun hj, List.mem_map]
      constructor
      · rintro ⟨e, he, heq⟩
        obtain ⟨rfl, rfl⟩ := Prod.mk.inj heq
        exact ⟨e.2, rfl, run, rfl, he⟩
      · rintro ⟨v, rfl, run', hrun', he⟩
        obtain rfl := Option.some.inj hrun'
        exact ⟨_, he, rfl⟩
  | none =>
      -- no entry was given for a column that is not there
      have hnone : es.filter (·.column == j) = [] := by
        rw [List.filter_eq_nil_iff]
        intro e he heq
        have := hcolumns e he
        have := List.getElem?_eq_none_iff.mp hj
        rw [beq_iff_eq] at heq
        omega
      simp [hnone, Compressed.columnOf, Compressed.sumRepeats]

end Agrees

end SparseMatrix

end IncrementalLP
