import IncrementalLP.Proofs.Instance.Calls
import IncrementalLP.Proofs.Instance.Checks
import IncrementalLP.Proofs.Matrix.Entries
/-!
# What changes do

For each call on an instance, what is known of the instance that it leaves behind: its rows and
columns pass the checks, and the sizes of its matrix go with them.
-/
namespace IncrementalLP

section

variable {α β : Type} {l l' : List α} {g : α → β}

theorem length_eq_of_map_eq (h : l'.map g = l.map g) : l'.length = l.length := by
  have hlength := congrArg List.length h
  rwa [List.length_map, List.length_map] at hlength

theorem get_cast_of_map_eq (h : l'.map g = l.map g) (hlength : l.length = l'.length)
    (k : Fin l.length) : g (l'.get (k.cast hlength)) = g (l.get k) := by
  have hget := congrArg (fun m => m[(k : ℕ)]?) h
  have hk : (k : ℕ) < l'.length := lt_of_lt_of_eq k.isLt hlength
  simp only [List.getElem?_map, List.getElem?_eq_getElem k.isLt, List.getElem?_eq_getElem hk]
    at hget
  exact Option.some.inj hget

theorem flatMap_zipIdx_congr (f : α → ℕ → List β) {g : α → α} (h : l'.map g = l.map g)
    (hg : ∀ a k, f (g a) k = f a k) :
    (l'.zipIdx.flatMap fun e => f e.1 e.2) = l.zipIdx.flatMap fun e => f e.1 e.2 := by
  have hmap : ∀ m : List α, (m.zipIdx.flatMap fun e => f e.1 e.2) =
      (m.map g).zipIdx.flatMap fun e => f e.1 e.2 := by
    intro m
    rw [List.zipIdx_map, List.flatMap_map]
    exact List.flatMap_congr fun e _ => (hg e.1 e.2).symm
  rw [hmap l', h, ← hmap l]

end

/-- A row without its name. -/
def Row.bare {α : Type} (r : Row α) : Row α := { r with name := none }

def Column.bare {α : Type} (c : Column α) : Column α := { c with name := none }

namespace Names

variable {β γ : Type} {rename : String → β → β}

private theorem map_zipWith_rename {f : β → γ} (hf : ∀ name b, f (rename name b) = f b)
    (names : List String) (l : List β) :
    (List.zipWith rename names l).map f = (l.take names.length).map f := by
  induction names generalizing l with
  | nil => rfl
  | cons name names ih =>
      cases l with
      | nil => rfl
      | cons b l =>
          rw [List.zipWith_cons_cons, List.map_cons, ih, hf, List.length_cons, List.take_succ_cons,
            List.map_cons]

theorem map_overwrite {f : β → γ} (hf : ∀ name b, f (rename name b) = f b) (first : ℕ)
    (names : List String) (l : List β) : (overwrite rename first names l).map f = l.map f := by
  unfold overwrite
  rw [List.map_append, List.map_append, map_zipWith_rename hf, ← List.map_append, ← List.map_append,
    List.append_assoc, ← List.drop_drop, List.take_append_drop, List.take_append_drop]

end Names

theorem Row.map_bare_overwrite {α : Type} (first : ℕ) (names : List String) (rows : List (Row α)) :
    (Names.overwrite Row.rename first names rows).map Row.bare = rows.map Row.bare := by
  apply Names.map_overwrite
  exact fun _ _ => rfl

theorem Column.map_bare_overwrite {α : Type} (first : ℕ) (names : List String)
    (columns : List (Column α)) :
    (Names.overwrite Column.rename first names columns).map Column.bare =
      columns.map Column.bare := by
  apply Names.map_overwrite
  exact fun _ _ => rfl

namespace SparseMatrix

theorem valueAt_filter {α : Type} [Scalar α] (l : List (Entry α)) {n k : ℕ} (hk : k < n) (j : ℕ) :
    valueAt (l.filter (·.row < n)) k j = valueAt l k j := by
  unfold valueAt
  rw [List.filter_filter]
  congr 1
  refine List.filter_congr fun e _ => ?_
  by_cases he : e.row = k
  · simp [he, hk]
  · simp [he]

end SparseMatrix

namespace Instance

variable {α : Type} [Scalar α] {i j : Instance α} {u : Unit}

theorem load_spec {d : Description α} (h : (load d).Returns i j u) :
    j.matrix.numRows = j.numRows ∧ j.matrix.numColumns = j.numColumns ∧
      (∀ r ∈ j.rows, r.Usable) ∧ ∀ c ∈ j.columns, c.Usable := by
  obtain ⟨sense, matrix, rowTable, columnTable, -, -, hcolumns, hrows, hrowCheck, hcolumnCheck,
    -, -, rfl⟩ := load_returns.mp h
  exact ⟨SparseMatrix.numRows_padRows hrows,
    (SparseMatrix.numColumns_padRows _ _).trans hcolumns, Row.checkEach_eq_ok.mp hrowCheck,
    Column.checkEach_eq_ok.mp hcolumnCheck⟩

omit [Scalar α] in
theorem addRows_spec {rows : List (Row α)} {entries : Offer (List (Offer (RowEntries α)))}
    {ks : List ℕ} (h : (addRows rows entries).Returns i j ks) :
    i.matrix.numRows = i.numRows ∧ (∀ r ∈ rows, r.Usable) ∧
      ∃ (added : Runs α) (table : Names.Table) (progress : Progress),
        added.length = rows.length ∧ (i.progress ≠ .unsolved → progress ≠ .unsolved) ∧
        j = { i with
          matrix := { i.matrix with appended := i.matrix.appended ++ added }
          rows := i.rows ++ rows
          rowTable := table
          progress := progress } := by
  obtain ⟨-, lists, added, table, -, hcount, hcheck, -, hsize, hadded, -, rfl⟩ :=
    addRows_returns.mp h
  refine ⟨hsize, Row.checkEach_eq_ok.mp hcheck, added, table, _,
    (SparseMatrix.length_checkedRows hadded).trans hcount.symm, ?_, rfl⟩
  intro hprogress
  unfold markExtended
  simp only
  split
  · exact hprogress
  · split
    · nofun
    · exact hprogress

omit [Scalar α] in
theorem assignNames_spec {kind : Except String EntityKind} {names : Offer (List Names.Given)}
    {first last : ℤ} (h : (assignNames kind names first last).Returns i j u) :
    ∃ rows columns rowTable columnTable, rows.map Row.bare = i.rows.map Row.bare ∧
      columns.map Column.bare = i.columns.map Column.bare ∧
      j = { i with
        rows := rows, columns := columns, rowTable := rowTable, columnTable := columnTable } := by
  obtain ⟨-, given, texts, table, -, ⟨-, -, rfl⟩ | ⟨-, -, rfl⟩⟩ := assignNames_returns.mp h
  · exact ⟨_, _, _, _, Row.map_bare_overwrite _ _ _, rfl, rfl⟩
  · exact ⟨_, _, _, _, rfl, Column.map_bare_overwrite _ _ _, rfl⟩

theorem addColumns_spec {columns : List (Column α)} {count : Offer ℕ}
    {starts rows : Offer IndexArray} {values : Offer (ValueArray α)} {ks : List ℕ}
    (hstarts : ∀ v, starts = .ok (.integers v) → count = .ok v.length)
    (h : (addColumns columns count starts rows values).Returns i j ks) :
    (∀ c ∈ columns, c.Usable) ∧
      ∃ (added : Runs α) (table : Names.Table) (progress : Progress) (basis : _),
        added.length = columns.length ∧
        j = { i with
          matrix := { i.matrix with columns := i.matrix.columns ++ added }
          columns := i.columns ++ columns
          columnTable := table
          progress := progress
          basis := basis } := by
  obtain ⟨-, hcount, s, r, v, added, table, hcheck, -, hs, -, -, hadded, -, rfl⟩ :=
    addColumns_returns.mp h
  refine ⟨Column.checkEach_eq_ok.mp hcheck, added, table, _, _, ?_, rfl⟩
  have hlist : starts = .ok (.integers s) := readPositions_eq_ok.mp hs
  have hlength := hstarts s hlist
  rw [hcount] at hlength
  rw [SparseMatrix.length_checkedRuns hadded, ← Except.ok.inj hlength, Nat.add_sub_cancel]

private theorem foldl_set_usable {staged : List (ℕ × Column α)} (hstaged : ∀ s ∈ staged, s.2.Usable)
    {columns : List (Column α)} (h : ∀ c ∈ columns, c.Usable) :
    ∀ c ∈ staged.foldl (fun cs s => cs.set s.1 s.2) columns, c.Usable := by
  induction staged generalizing columns with
  | nil => exact h
  | cons s staged ih =>
      refine ih (fun s hs => hstaged s (List.mem_cons_of_mem _ hs)) fun c hc => ?_
      rcases List.mem_or_eq_of_mem_set hc with hc | rfl
      · exact h c hc
      · exact hstaged s List.mem_cons_self

omit [Scalar α] in
private theorem foldl_set_names {staged : List (ℕ × Column α)} {columns : List (Column α)}
    (h : ∀ s ∈ staged, (columns.map (·.name))[s.1]? = some s.2.name) :
    (staged.foldl (fun cs s => cs.set s.1 s.2) columns).map (·.name) = columns.map (·.name) := by
  induction staged generalizing columns with
  | nil => rfl
  | cons s staged ih =>
      have hset : (columns.set s.1 s.2).map (·.name) = columns.map (·.name) := by
        obtain ⟨hlt, hname⟩ := List.getElem?_eq_some_iff.mp (h s List.mem_cons_self)
        rw [List.map_set, ← hname, List.set_getElem_self]
      rw [List.foldl_cons, ih, hset]
      rw [hset]
      exact fun s' hs' => h s' (List.mem_cons_of_mem _ hs')

private theorem checkedBounds_spec {columns : List (Column α)} {offer : Offer (BoundChange α)}
    {s : ℕ × Column α} (h : checkedBounds columns offer = .ok s) :
    s.2.Usable ∧ (columns.map (·.name))[s.1]? = some s.2.name := by
  simp only [checkedBounds, bind_eq_ok] at h
  obtain ⟨change, -, ordinal, -, k, -, lower, -, upper, -, h⟩ := h
  split at h
  · exact absurd h throw_ne_ok
  · next c hc =>
    simp only [bind_eq_ok, pure_eq_ok] at h
    obtain ⟨_, hcheck, rfl⟩ := h
    exact ⟨Column.check_eq_ok.mp hcheck, by rw [List.getElem?_map, hc]; rfl⟩

theorem changeBounds_spec {changes : Offer (List (Offer (BoundChange α)))}
    (h : (changeBounds changes).Returns i j u) (husable : ∀ c ∈ i.columns, c.Usable) :
    ∃ (columns : List (Column α)) (progress : Progress) (basis : _),
      columns.map (·.name) = i.columnNames ∧ (∀ c ∈ columns, c.Usable) ∧
        j = { i with columns := columns, progress := progress, basis := basis } := by
  obtain ⟨-, offers, staged, -, hstaged, rfl⟩ := changeBounds_returns.mp h
  have hchecked : ∀ s ∈ staged, s.2.Usable ∧ i.columnNames[s.1]? = some s.2.name := by
    intro s hs
    obtain ⟨offer, -, hoffer⟩ := forall_of_mapM hstaged s hs
    exact checkedBounds_spec hoffer
  exact ⟨_, _, _, foldl_set_names fun s hs => (hchecked s hs).2,
    foldl_set_usable (fun s hs => (hchecked s hs).1) husable, rfl⟩

private theorem checkedCost_finite {count : ℕ} {offer : Offer (CostChange α)}
    {s : Ordinal α × Extended α} (h : checkedCost count offer = .ok s) : s.2.isFinite = true := by
  simp only [checkedCost, bind_eq_ok] at h
  obtain ⟨change, -, ordinal, -, cost, -, h⟩ := h
  split at h
  · next hfinite =>
    rw [pure_eq_ok] at h
    rw [← h]
    exact hfinite
  · exact absurd h throw_ne_ok

/-- The instance is the given one but for usable columns of the same names, and perhaps without what
is known of its last solve. -/
private def Recosted (i j : Instance α) : Prop :=
  ∃ (columns : List (Column α)) (progress : Progress) (basis : _),
    columns.map (·.name) = i.columnNames ∧ (∀ c ∈ columns, c.Usable) ∧
      (basis = none ∨ basis = i.basis ∧ progress = i.progress) ∧
        j = { i with columns := columns, progress := progress, basis := basis }

private theorem preserves_setCost {change : Ordinal α × Extended α}
    (hcost : change.2.isFinite = true) : (setCost change).Preserves (Recosted i) := by
  apply Action.preserves_lift_bind
  intro k _
  apply Action.preserves_modify
  rintro _ ⟨columns, progress, basis, hnames, husable, hbasis, rfl⟩
  refine ⟨_, progress, basis, Eq.trans ?_ hnames, ?_, hbasis, rfl⟩
  · apply List.ext_getElem?
    intro n
    simp only [List.getElem?_map, List.getElem?_modify]
    cases columns[n]? <;> simp [apply_ite]
  · intro c hc
    obtain ⟨n, hn, rfl⟩ := List.getElem_of_mem hc
    rw [List.length_modify] at hn
    rw [List.getElem_modify]
    have hcolumn := husable _ (List.getElem_mem hn)
    split
    · exact ⟨hcolumn.lower, hcolumn.upper, hcolumn.order, hcost⟩
    · exact hcolumn

theorem changeObjective_spec (i : Instance α) (changes : Offer (List (Offer (CostChange α))))
    (husable : ∀ c ∈ i.columns, c.Usable) :
    ∃ (columns : List (Column α)) (progress : Progress) (basis : _),
      columns.map (·.name) = i.columnNames ∧ (∀ c ∈ columns, c.Usable) ∧
        (basis = none ∨ basis = i.basis ∧ progress = i.progress) ∧
          (i.changeObjective changes).state =
            { i with columns := columns, progress := progress, basis := basis } := by
  have hi : Recosted i i := ⟨_, _, _, rfl, husable, Or.inr ⟨rfl, rfl⟩, rfl⟩
  have hlose : (loseBasis .objectiveChanged).Preserves (Recosted i) := by
    rintro _ ⟨columns, progress, basis, hnames, husable, -, rfl⟩
    exact ⟨_, _, _, hnames, husable, Or.inl rfl, (loseBasis_returns (u := ()).mpr rfl).1⟩
  refine (?_ : (changeObjective changes).Preserves (Recosted i)) i hi
  apply Action.preserves_get_bind
  intro j hj
  refine (?_ : Action.Preserves (Recosted i) _) j hj
  apply Action.preserves_lift_bind
  intro _ _
  apply Action.preserves_lift_bind
  intro offers _
  apply Action.preserves_lift_bind
  intro staged hstaged
  refine Action.Preserves.bind (Action.preserves_forEach fun s hs => ?_) fun _ => ?_
  · obtain ⟨offer, -, hoffer⟩ := forall_of_mapM hstaged s hs
    exact preserves_setCost (checkedCost_finite hoffer)
  · split
    · exact hlose
    · exact fun _ h => h

omit [Scalar α] in
theorem changeSense_spec {sense : Except String Sense} (h : (changeSense sense).Returns i j u) :
    ∃ (s : Sense) (progress : Progress) (basis : _),
      j = { i with sense := s, progress := progress, basis := basis } := by
  obtain ⟨-, s, -, rfl⟩ := changeSense_returns.mp h
  split
  · exact ⟨i.sense, i.progress, i.basis, rfl⟩
  · exact ⟨s, _, _, rfl⟩

end Instance

end IncrementalLP
