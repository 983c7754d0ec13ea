import IncrementalLP.Proofs.Session.Handles
import IncrementalLP.Reading.Records
/-!
# Tables of names

An instance stores its names twice: with the rows and columns that carry them, and in tables from
names to ordinals. After every run of calls the two say the same, no name is carried twice, and
every row and column has passed the checks of loading.
-/
namespace IncrementalLP

namespace Names

variable {α : Type}

theorem ordinal?_eq_none {table : Table} {name : String} :
    ordinal? table name = none ↔ name ∉ table.map (·.1) := by
  simp only [ordinal?, Option.map_eq_none_iff, List.find?_eq_none, beq_iff_eq, List.mem_map,
    not_exists, not_and]

private theorem mem_of_ordinal? {table : Table} {name : String} {k : ℕ}
    (h : ordinal? table name = some k) : (name, k) ∈ table := by
  obtain ⟨⟨found, _⟩, hfind, rfl⟩ := Option.map_eq_some_iff.mp h
  obtain rfl : found = name := by simpa using List.find?_some hfind
  exact List.mem_of_find?_eq_some hfind

theorem ordinal?_eq_some {table : Table} (hnodup : (table.map (·.1)).Nodup) {name : String}
    {k : ℕ} : ordinal? table name = some k ↔ (name, k) ∈ table := by
  refine ⟨mem_of_ordinal?, fun h => ?_⟩
  cases hfound : ordinal? table name with
  | none => exact absurd (List.mem_map_of_mem h) (ordinal?_eq_none.mp hfound)
  | some m =>
      have heq := List.inj_on_of_nodup_map hnodup (mem_of_ordinal? hfound) h rfl
      rw [(Prod.mk.inj heq).2]

/-- The entries for names whose ordinals are counted from `k`. -/
def located (k : ℕ) : List (Option String) → Table
  | [] => []
  | none :: names => located (k + 1) names
  | some name :: names => (name, k) :: located (k + 1) names

theorem mem_located {k m : ℕ} {name : String} {names : List (Option String)} :
    (name, m) ∈ located k names ↔ k ≤ m ∧ names[m - k]? = some (some name) := by
  induction names generalizing k with
  | nil => simp [located]
  | cons first names ih =>
      have hshift : k + 1 ≤ m ∧ names[m - (k + 1)]? = some (some name) ↔
          m ≠ k ∧ k ≤ m ∧ (first :: names)[m - k]? = some (some name) := by
        rcases Nat.lt_trichotomy m k with h | rfl | h
        · omega
        · simp
        · obtain ⟨d, rfl⟩ := Nat.exists_eq_add_of_lt h
          rw [show k + d + 1 - k = d + 1 by omega, show k + d + 1 - (k + 1) = d by omega,
            List.getElem?_cons_succ]
          have hne : k + d + 1 ≠ k := by omega
          have hle : k ≤ k + d + 1 := by omega
          have hlt : k + 1 ≤ k + d + 1 := by omega
          simp [hne, hle, hlt]
      cases first with
      | none =>
          rw [located, ih, hshift]
          refine ⟨fun h => h.2, fun h => ⟨?_, h⟩⟩
          rintro rfl
          simp at h
      | some first =>
          rw [located, List.mem_cons, ih, hshift]
          by_cases hm : m = k
          · subst hm
            simp [eq_comm]
          · simp [hm]

theorem enter_eq_ok_iff {clash : String → ℕ → ℕ → Fault α} {table table' : Table} {k : ℕ}
    {names : List (Option String)} :
    enter clash table k names = .ok table' ↔
      names.reduceOption.Nodup ∧ (∀ name ∈ names.reduceOption, name ∉ table.map (·.1)) ∧
        table' = table ++ located k names := by
  induction names generalizing table k with
  | nil => simp [enter, located, eq_comm]
  | cons first names ih =>
      cases first with
      | none => simp only [enter, located, List.reduceOption_cons_of_none, ih]
      | some name =>
          rw [enter, List.reduceOption_cons_of_some, List.nodup_cons, List.forall_mem_cons,
            located]
          split
          · next holder hfound =>
            refine iff_of_false nofun fun h => h.2.1.1 ?_
            exact List.mem_map_of_mem (mem_of_ordinal? hfound)
          · next hfree =>
            have hfresh := ordinal?_eq_none.mp hfree
            have hextend : (∀ t ∈ names.reduceOption, t ∉ (table ++ [(name, k)]).map (·.1)) ↔
                name ∉ names.reduceOption ∧ ∀ t ∈ names.reduceOption, t ∉ table.map (·.1) := by
              simp only [List.map_append, List.map_singleton, List.mem_append, List.mem_singleton,
                not_or]
              exact ⟨fun h => ⟨fun hmem => (h name hmem).2 rfl, fun t ht => (h t ht).1⟩,
                fun h t ht => ⟨h.2 t ht, fun heq => h.1 (heq ▸ ht)⟩⟩
            rw [ih, hextend, List.append_assoc, List.singleton_append]
            tauto

private theorem map_fst_located (k : ℕ) (names : List (Option String)) :
    (located k names).map (·.1) = names.reduceOption := by
  induction names generalizing k with
  | nil => rfl
  | cons first names ih =>
      cases first with
      | none => rw [located, ih, List.reduceOption_cons_of_none]
      | some name => rw [located, List.map_cons, ih, List.reduceOption_cons_of_some]

private theorem enter_eq_ok {clash : String → ℕ → ℕ → Fault α} {table table' : Table} {k : ℕ}
    {names : List (Option String)} (h : enter clash table k names = .ok table')
    (hnodup : (table.map (·.1)).Nodup) :
    table' = table ++ located k names ∧ (table'.map (·.1)).Nodup := by
  obtain ⟨hnames, hfresh, rfl⟩ := enter_eq_ok_iff.mp h
  refine ⟨rfl, ?_⟩
  rw [List.map_append, map_fst_located]
  exact hnodup.append hnames fun name htable hname => hfresh name hname htable

/-- The table finds each name at the ordinal that carries it, and nothing else. -/
structure Indexes (table : Table) (names : List (Option String)) : Prop where
  nodup : (table.map (·.1)).Nodup
  mem_iff : ∀ name k, (name, k) ∈ table ↔ names[k]? = some (some name)

namespace Indexes

variable {table table' : Table} {names new : List (Option String)}

theorem nil : Indexes [] [] where
  nodup := List.nodup_nil
  mem_iff := by simp

theorem ordinal? (h : Indexes table names) (name : String) (k : ℕ) :
    Names.ordinal? table name = some k ↔ names[k]? = some (some name) := by
  rw [ordinal?_eq_some h.nodup, h.mem_iff]

theorem eq_of_carried (h : Indexes table names) {name : String} {k m : ℕ}
    (hk : names[k]? = some (some name)) (hm : names[m]? = some (some name)) : k = m := by
  rw [← h.ordinal?] at hk hm
  exact Option.some.inj (hk.symm.trans hm)

theorem append {kind : EntityKind} (h : Indexes table names)
    (hindex : index (α := α) kind table names.length new = .ok table') :
    Indexes table' (names ++ new) := by
  obtain ⟨rfl, hnodup⟩ := enter_eq_ok hindex h.nodup
  refine ⟨hnodup, fun name k => ?_⟩
  rw [List.mem_append, h.mem_iff, mem_located]
  rcases Nat.lt_or_ge k names.length with hk | hk
  · rw [List.getElem?_append_left hk]
    simp [Nat.not_le_of_lt hk]
  · rw [List.getElem?_append_right hk, List.getElem?_eq_none hk]
    simp [hk]

end Indexes

theorem checkTexts_eq_ok {kind : EntityKind} {k : ℕ} {given : List Given} {texts : List String} :
    checkTexts (α := α) kind k given = .ok texts ↔ given = texts.map .ok ∧ ∀ t ∈ texts, t ≠ "" := by
  induction given generalizing k texts with
  | nil =>
      rw [checkTexts, Except.ok.injEq, eq_comm]
      cases texts <;> simp
  | cons name given ih =>
      cases name with
      | error shown =>
          refine iff_of_false nofun ?_
          cases texts <;> simp
      | ok name =>
          rw [checkTexts]
          split
          · next hempty =>
            refine iff_of_false nofun fun h => ?_
            cases texts with
            | nil => cases h.1
            | cons t texts =>
                cases h.1
                exact (List.forall_mem_cons.mp h.2).1 (String.isEmpty_iff.mp hempty)
          · next hname =>
            rw [String.isEmpty_iff] at hname
            constructor
            · intro h
              cases hrest : checkTexts (α := α) kind (k + 1) given with
              | error f =>
                  rw [hrest] at h
                  cases h
              | ok rest =>
                  rw [hrest] at h
                  cases h
                  obtain ⟨rfl, hnonempty⟩ := ih.mp hrest
                  exact ⟨rfl, List.forall_mem_cons.mpr ⟨hname, hnonempty⟩⟩
            · rintro ⟨hgiven, hnonempty⟩
              cases texts with
              | nil => cases hgiven
              | cons t texts =>
                  obtain ⟨heq, hrest⟩ := List.cons.inj hgiven
                  cases heq
                  rw [ih.mpr ⟨hrest, (List.forall_mem_cons.mp hnonempty).2⟩]
                  rfl

private theorem length_of_checkTexts {kind : EntityKind} {k : ℕ} {given : List Given}
    {texts : List String}
    (h : checkTexts (α := α) kind k given = .ok texts) : texts.length = given.length := by
  rw [(checkTexts_eq_ok.mp h).1, List.length_map]

theorem checkExtent_eq_ok {kind : EntityKind} {count given : ℕ} {first last : ℤ} {u : Unit} :
    checkExtent (α := α) kind count given first last = .ok u ↔
      0 ≤ first ∧ last < count ∧ first ≤ last ∧ (given : ℤ) = last - first + 1 := by
  unfold checkExtent
  split
  · simp only [reduceCtorEq, false_iff]
    omega
  · split
    · simp only [reduceCtorEq, false_iff]
      omega
    · simp only [true_iff]
      omega

private theorem checkedRange_eq_ok {kind : EntityKind} {count : ℕ} {given : List Given}
    {first last : ℤ} {texts : List String} (hnodup : (table.map (·.1)).Nodup)
    (h : checkedRange (α := α) kind count table given first last = .ok (texts, table')) :
    first.toNat + texts.length ≤ count ∧
      table' = (table.filter fun e =>
          decide (e.2 < first.toNat) || decide (first.toNat + texts.length ≤ e.2)) ++
        located first.toNat (texts.map some) ∧
      (table'.map (·.1)).Nodup := by
  simp only [checkedRange, bind_eq_ok, pure_eq_ok, Prod.mk.injEq] at h
  obtain ⟨_, hextent, texts, htexts, renewed, henter, rfl, rfl⟩ := h
  obtain ⟨hfirst, hlast, hle, hgiven⟩ := checkExtent_eq_ok.mp hextent
  have hlength := length_of_checkTexts htexts
  obtain ⟨rfl, hrenewed⟩ := enter_eq_ok henter (hnodup.sublist (List.filter_sublist.map _))
  refine ⟨by omega, ?_, hrenewed⟩
  congr 1
  refine List.filter_congr fun e _ => ?_
  congr 1
  · simp only [decide_eq_decide]
    omega
  · simp only [decide_eq_decide]
    omega

private theorem map_zipWith_name {β : Type} {rename : String → β → β} {nameOf : β → Option String}
    (hname : ∀ name b, nameOf (rename name b) = some name) {texts : List String} {l : List β}
    (hle : texts.length ≤ l.length) :
    (List.zipWith rename texts l).map nameOf = texts.map some := by
  induction texts generalizing l with
  | nil => rfl
  | cons text texts ih =>
      cases l with
      | nil => simp at hle
      | cons b l =>
          rw [List.zipWith_cons_cons, List.map_cons, hname, ih (by simpa using hle), List.map_cons]

private theorem map_name_overwrite {β : Type} {rename : String → β → β} {nameOf : β → Option String}
    (hname : ∀ name b, nameOf (rename name b) = some name) {first : ℕ} {texts : List String}
    {l : List β} (hle : first + texts.length ≤ l.length) :
    (overwrite rename first texts l).map nameOf =
      (l.map nameOf).take first ++ (texts.map some ++ (l.map nameOf).drop (first + texts.length))
    := by
  have hrange : texts.length ≤ (l.drop first).length := by
    rw [List.length_drop]
    omega
  rw [overwrite, List.map_append, List.map_append, map_zipWith_name hname hrange, List.map_take,
    List.map_drop, List.append_assoc]

theorem getElem?_map_overwrite {β : Type} (rename : String → β → β) {nameOf : β → Option String}
    (hname : ∀ name b, nameOf (rename name b) = some name) {first : ℕ} {texts : List String}
    {l : List β} (hle : first + texts.length ≤ l.length) (k : ℕ) :
    ((overwrite rename first texts l).map nameOf)[k]? =
      if first ≤ k ∧ k < first + texts.length then (texts.map some)[k - first]?
      else (l.map nameOf)[k]? := by
  have hlength : ((l.map nameOf).take first).length = first := by
    rw [List.length_take, List.length_map]
    omega
  rw [map_name_overwrite hname hle]
  rcases Nat.lt_or_ge k first with hk | hk
  · rw [List.getElem?_append_left (by omega), List.getElem?_take_of_lt hk, if_neg (by omega)]
  · rw [List.getElem?_append_right (by omega), hlength]
    rcases Nat.lt_or_ge (k - first) texts.length with hin | hin
    · rw [List.getElem?_append_left (by simpa using hin), if_pos (by omega)]
    · rw [List.getElem?_append_right (by simpa using hin), List.length_map, List.getElem?_drop,
        show first + texts.length + (k - first - texts.length) = k by omega, if_neg (by omega)]

theorem Indexes.overwrite {β : Type} (rename : String → β → β) {nameOf : β → Option String}
    (hname : ∀ name b, nameOf (rename name b) = some name) {kind : EntityKind} {l : List β}
    {given : List Given} {first last : ℤ} {texts : List String} (h : Indexes table (l.map nameOf))
    (hrange : checkedRange (α := α) kind l.length table given first last = .ok (texts, table')) :
    Indexes table' ((Names.overwrite rename first.toNat texts l).map nameOf) := by
  obtain ⟨hle, rfl, hnodup⟩ := checkedRange_eq_ok h.nodup hrange
  refine ⟨hnodup, fun name k => ?_⟩
  rw [getElem?_map_overwrite rename hname hle, List.mem_append, List.mem_filter, h.mem_iff,
    mem_located, Bool.or_eq_true, decide_eq_true_eq, decide_eq_true_eq]
  split
  · next hin =>
    rw [or_iff_right fun hout => by omega, and_iff_right hin.1]
  · next hout =>
    rw [or_iff_left, and_iff_left (by omega)]
    rintro ⟨hle, hsome⟩
    have hlt := (List.getElem?_eq_some_iff.mp hsome).1
    rw [List.length_map] at hlt
    omega

end Names

/-- The width of a range row is a number, and it is not negative. -/
def Row.Proper {α : Type} [Scalar α] (r : Row α) : Prop :=
  ∀ w ∈ r.sense.width?, w.isNan = false ∧ w.less (.finite 0) = false

instance {α : Type} [Scalar α] (r : Row α) : Decidable r.Proper :=
  inferInstanceAs (Decidable (∀ w ∈ r.sense.width?, w.isNan = false ∧ w.less (.finite 0) = false))

/-- Every row that is read from a description has a proper width. -/
theorem Reading.proper_of_row {v : Value} {r : Row Float} (h : Reading.row v = .ok r) :
    r.Proper := by
  have hrowOf : ∀ {sense rhs width name}, rowOf sense rhs width name = .ok r → r.Proper := by
    intro sense rhs width name h
    unfold rowOf at h
    split at h
    · cases h
    · next w =>
      split at h
      · cases h
      · next hwidth =>
        obtain rfl := Validated.ok.inj h
        rintro _ ⟨⟩
        simpa using hwidth
    · next hsense =>
      obtain rfl := Validated.ok.inj h
      cases sense with
      | range w => exact absurd rfl (hsense w)
      | _ => nofun
    · cases h
  cases v with
  | object fields =>
      simp only [Reading.row, Reading.record, Validated.andThen] at h
      split at h
      · exact hrowOf h
      · cases h
  | _ => cases h

namespace Instance

variable {α : Type} {i j : Instance α} {u : Unit}

/-- Both tables go with the names that are carried. -/
structure Indexed (i : Instance α) : Prop where
  rows : Names.Indexes i.rowTable i.rowNames
  columns : Names.Indexes i.columnTable i.columnNames

namespace Indexed

private theorem declare (token : ℕ) (name : String) :
    (Instance.declare token name : Instance α).Indexed :=
  ⟨.nil, .nil⟩

private theorem of_same (hi : i.Indexed) (hrows : j.rowNames = i.rowNames)
    (hrowTable : j.rowTable = i.rowTable) (hcolumns : j.columnNames = i.columnNames)
    (hcolumnTable : j.columnTable = i.columnTable) : j.Indexed where
  rows := by
    rw [hrows, hrowTable]
    exact hi.rows
  columns := by
    rw [hcolumns, hcolumnTable]
    exact hi.columns

private theorem of_solve (hi : i.Indexed) (h : j = i ∨ ∃ r, j = i.recordSolve r) : j.Indexed := by
  rcases h with rfl | ⟨r, rfl⟩
  · exact hi
  · exact hi.of_same rfl rfl rfl rfl

private theorem assignNames (hi : i.Indexed) {kind : Except String EntityKind}
    {names : Offer (List Names.Given)} {first last : ℤ}
    (h : (assignNames kind names first last).Returns i j u) : j.Indexed := by
  obtain ⟨-, given, texts, table, -, ⟨-, hrange, rfl⟩ | ⟨-, hrange, rfl⟩⟩ :=
    assignNames_returns.mp h
  · exact ⟨hi.rows.overwrite Row.rename (fun _ _ => rfl) hrange, hi.columns⟩
  · exact ⟨hi.rows, hi.columns.overwrite Column.rename (fun _ _ => rfl) hrange⟩

private theorem addRows (hi : i.Indexed) {rows : List (Row α)}
    {entries : Offer (List (Offer (RowEntries α)))} {ks : List ℕ}
    (h : (addRows rows entries).Returns i j ks) : j.Indexed := by
  obtain ⟨-, lists, added, table, -, -, -, hindex, -, -, -, rfl⟩ := addRows_returns.mp h
  refine ⟨?_, hi.columns⟩
  rw [rowNames, List.map_append]
  rw [numRows, ← List.length_map (f := fun r : Row α => r.name)] at hindex
  exact hi.rows.append hindex

private theorem addRow (hi : i.Indexed) {row : Except Complaint (Row α)}
    {entries : Offer (RowEntries α)} {k : ℕ} (h : (addRow row entries).Returns i j k) :
    j.Indexed := by
  obtain ⟨-, r, -, hrows⟩ := addRow_returns.mp h
  exact hi.addRows hrows

variable [Scalar α]

theorem load {d : Description α} (h : (load d).Returns i j u) : j.Indexed := by
  obtain ⟨sense, matrix, rowTable, columnTable, -, -, -, -, -, -, hrowTable, hcolumnTable, rfl⟩ :=
    load_returns.mp h
  exact ⟨Names.Indexes.nil.append hrowTable, Names.Indexes.nil.append hcolumnTable⟩

private theorem addColumns (hi : i.Indexed) {columns : List (Column α)} {count : Offer ℕ}
    {starts rows : Offer IndexArray} {values : Offer (ValueArray α)} {ks : List ℕ}
    (h : (addColumns columns count starts rows values).Returns i j ks) : j.Indexed := by
  obtain ⟨-, -, s, r, v, added, table, -, hindex, -, -, -, -, -, rfl⟩ := addColumns_returns.mp h
  refine ⟨hi.rows, ?_⟩
  rw [columnNames, List.map_append]
  rw [numColumns, ← List.length_map (f := fun c : Column α => c.name)] at hindex
  exact hi.columns.append hindex

private theorem after (hi : i.Indexed) (hsound : i.Sound) (op : Operation α) :
    (op.after i).Indexed := by
  cases op with
  | load d => exact (load_atomic d).state_induction hi load
  | assignNames kind names first last =>
      exact (assignNames_atomic kind names first last).state_induction hi hi.assignNames
  | addRow row entries => exact (addRow_atomic row entries).state_induction hi hi.addRow
  | addRows rows entries => exact (addRows_atomic rows entries).state_induction hi hi.addRows
  | addColumns columns count starts rows values counted =>
      exact (addColumns_atomic columns count starts rows values).state_induction hi hi.addColumns
  | changeBounds changes =>
      refine (changeBounds_atomic changes).state_induction hi fun h => ?_
      obtain ⟨columns, progress, basis, hnames, -, rfl⟩ := changeBounds_spec h hsound.columns
      exact hi.of_same rfl rfl hnames rfl
  | changeObjective changes =>
      -- costs that were set before a failure stay set
      obtain ⟨columns, progress, basis, hnames, -, -, hstate⟩ :=
        i.changeObjective_spec changes hsound.columns
      rw [Operation.after, hstate]
      exact hi.of_same rfl rfl hnames rfl
  | changeSense sense =>
      refine (changeSense_atomic sense).state_induction hi fun h => ?_
      obtain ⟨s, progress, basis, rfl⟩ := changeSense_spec h
      exact hi.of_same rfl rfl rfl rfl
  | solveCold s o => exact hi.of_solve (Session.solveCold_course s i o).state
  | solveWarm s h o => exact hi.of_solve (Session.solveWarm_course s i o h).state
  | solve s o => exact hi.of_solve (Session.solve_course s i o).state

end Indexed

namespace Operation

/-- The rows that come with a call. -/
def rows : Operation α → List (Row α)
  | .load d => d.rows
  | .addRow (.ok r) _ => [r]
  | .addRows rows _ => rows
  | _ => []

/-- The rows of the second instance come from the first one or with the call, up to their names. -/
def Supplies (op : Operation α) (i j : Instance α) : Prop :=
  ∀ r ∈ j.rows, ∃ r' ∈ i.rows ++ op.rows, r.bare = r'.bare

private theorem supplies_of_subset {op : Operation α} (h : ∀ r ∈ j.rows, r ∈ i.rows ++ op.rows) :
    op.Supplies i j := fun r hr => ⟨r, h r hr, rfl⟩

private theorem supplies_of_eq {op : Operation α} (h : j.rows = i.rows) : op.Supplies i j :=
  supplies_of_subset fun _ hr => List.mem_append_left _ (h ▸ hr)

variable [Scalar α]

private theorem supplies_after (hsound : i.Sound) (op : Operation α) :
    op.Supplies i (op.after i) := by
  have hi : op.Supplies i i := supplies_of_eq rfl
  have of_solve : ∀ {j : Instance α}, (j = i ∨ ∃ r, j = i.recordSolve r) → op.Supplies i j := by
    rintro j (rfl | ⟨r, rfl⟩)
    · exact hi
    · exact supplies_of_eq rfl
  cases op with
  | load d =>
      refine (load_atomic d).state_induction hi fun h => supplies_of_subset ?_
      obtain ⟨sense, matrix, rowTable, columnTable, -, -, -, -, -, -, -, -, rfl⟩ :=
        load_returns.mp h
      exact fun r hr => List.mem_append_right _ hr
  | assignNames kind names first last =>
      refine (assignNames_atomic kind names first last).state_induction hi fun h r hr => ?_
      obtain ⟨rows, columns, _, _, hrows, -, rfl⟩ := assignNames_spec h
      have hbare : r.bare ∈ rows.map Row.bare := List.mem_map_of_mem hr
      rw [hrows] at hbare
      obtain ⟨r', hr', heq⟩ := List.mem_map.mp hbare
      exact ⟨r', List.mem_append_left _ hr', heq.symm⟩
  | addRow row entries =>
      refine (addRow_atomic row entries).state_induction hi fun h => supplies_of_subset ?_
      obtain ⟨-, r, rfl, hrows⟩ := addRow_returns.mp h
      obtain ⟨-, -, added, table, progress, -, -, rfl⟩ := addRows_spec hrows
      exact fun r hr => hr
  | addRows rows entries =>
      refine (addRows_atomic rows entries).state_induction hi fun h => supplies_of_subset ?_
      obtain ⟨-, -, added, table, progress, -, -, rfl⟩ := addRows_spec h
      exact fun r hr => hr
  | addColumns columns count starts rows values counted =>
      refine (addColumns_atomic columns count starts rows values).state_induction hi fun h => ?_
      obtain ⟨-, added, table, progress, basis, -, rfl⟩ := addColumns_spec counted h
      exact supplies_of_eq rfl
  | changeBounds changes =>
      refine (changeBounds_atomic changes).state_induction hi fun h => ?_
      obtain ⟨columns, progress, basis, -, -, rfl⟩ := changeBounds_spec h hsound.columns
      exact supplies_of_eq rfl
  | changeObjective changes =>
      obtain ⟨columns, progress, basis, -, -, -, hstate⟩ :=
        i.changeObjective_spec changes hsound.columns
      refine supplies_of_eq ?_
      rw [after, hstate]
  | changeSense sense =>
      refine (changeSense_atomic sense).state_induction hi fun h => ?_
      obtain ⟨s, progress, basis, rfl⟩ := changeSense_spec h
      exact supplies_of_eq rfl
  | solveCold s o => exact of_solve (Session.solveCold_course s i o).state
  | solveWarm s h o => exact of_solve (Session.solveWarm_course s i o h).state
  | solve s o => exact of_solve (Session.solve_course s i o).state

/-- Every row that comes with the call has a proper width. -/
def Proper (op : Operation α) : Prop := ∀ r ∈ op.rows, r.Proper

instance (op : Operation α) : Decidable op.Proper :=
  inferInstanceAs (Decidable (∀ r ∈ op.rows, r.Proper))

private theorem Proper.after {op : Operation α} (hop : op.Proper) (hsound : i.Sound)
    (hi : ∀ r ∈ i.rows, r.Proper) : ∀ r ∈ (op.after i).rows, r.Proper := by
  intro r hr
  obtain ⟨r', hr', heq⟩ := supplies_after hsound op r hr
  have hproper : r'.bare.Proper := (List.mem_append.mp hr').elim (hi r') (hop r')
  rwa [← heq] at hproper

end Operation

variable [Scalar α]

/-- Whatever calls an instance has gone through, returned or failed. -/
theorem indexed_run (token : ℕ) (name : String) (ops : List (Operation α)) :
    (Operation.run (declare token name) ops).Indexed := by
  induction ops using List.reverseRecOn with
  | nil => exact .declare token name
  | append_singleton ops op ih =>
      rw [Operation.run_concat]
      exact ih.after (Operation.sound_run (.declare token name) ops) op

/-- As long as the rows that were handed in have proper widths, all rows have. -/
theorem invariants_of_run (token : ℕ) (name : String) {ops : List (Operation α)}
    (hops : ∀ op ∈ ops, op.Proper) :
    let i := Operation.run (declare token name) ops
    i.Indexed ∧ ∀ r ∈ i.rows, r.Proper := by
  refine ⟨indexed_run token name ops, ?_⟩
  induction ops using List.reverseRecOn with
  | nil => exact fun _ h => absurd h List.not_mem_nil
  | append_singleton ops op ih =>
      have hproper := ih fun op' hop' => hops op' (List.mem_append_left _ hop')
      have hop : op.Proper := hops op (List.mem_append_right _ List.mem_cons_self)
      rw [Operation.run_concat]
      exact hop.after (Operation.sound_run (.declare token name) ops) hproper

/-- After every run of calls, returned or failed, the matrix has the rows and columns that are
listed; each table finds a name exactly at the ordinal that carries it, so that no name is carried
twice; the bounds of every column enclose a number, and its cost is one; and every row has a limit
that can be used. -/
theorem tables_of_run (token : ℕ) (name : String) {ops : List (Operation α)}
    (hops : ∀ op ∈ ops, op.Proper) :
    let i := Operation.run (declare token name) ops
    (i.matrix.numRows = i.numRows ∧ i.matrix.numColumns = i.numColumns) ∧
      (∀ (name : String) (k : ℕ),
        Names.ordinal? i.rowTable name = some k ↔ i.rowNames[k]? = some (some name)) ∧
      (∀ (name : String) (k : ℕ),
        Names.ordinal? i.columnTable name = some k ↔ i.columnNames[k]? = some (some name)) ∧
      (∀ (name : String) (k m : ℕ), i.rowNames[k]? = some (some name) →
        i.rowNames[m]? = some (some name) → k = m) ∧
      (∀ (name : String) (k m : ℕ), i.columnNames[k]? = some (some name) →
        i.columnNames[m]? = some (some name) → k = m) ∧
      (∀ c ∈ i.columns, c.Usable) ∧ ∀ r ∈ i.rows, r.Usable ∧ r.Proper := by
  intro i
  have hsound : i.Sound := Operation.sound_run (.declare token name) ops
  obtain ⟨hindexed, hproper⟩ := invariants_of_run token name hops
  exact ⟨⟨hsound.matrixRows, hsound.matrixColumns⟩, hindexed.rows.ordinal?,
    hindexed.columns.ordinal?, fun _ _ _ => hindexed.rows.eq_of_carried,
    fun _ _ _ => hindexed.columns.eq_of_carried, hsound.columns,
    fun r hr => ⟨hsound.rows r hr, hproper r hr⟩⟩

/-- The sample problem with two rows named, a cut refused for a name that is carried, and a range
row under a new name. -/
theorem tables_of_run_sample :
    let ops : List (Operation ℚ) :=
      [.load ⟨"sample", .ok .max, Sample.parts.rows, Sample.parts.columns,
          .held Sample.parts.matrix⟩,
        .assignNames (.ok .row) (.ok [.ok "hours", .ok "stock"]) 1 2,
        .addRow (.ok ⟨.atMost, .finite 3, some "stock"⟩) (.ok ⟨.ok (.integers []), .ok []⟩),
        .addRow (.ok ⟨.range (.finite 2), .finite 5, some "band"⟩)
          (.ok ⟨.ok (.integers [0]), .ok [.finite 1]⟩)]
    let i := Operation.run (declare 0 "sample") ops
    (∀ op ∈ ops, op.Proper) ∧ i.matrix.numRows = 5 ∧
      Names.ordinal? i.rowTable "stock" = some 2 ∧ Names.ordinal? i.rowTable "band" = some 4 := by
  intro ops i
  have hops : ∀ op ∈ ops, op.Proper := by decide +kernel
  obtain ⟨⟨hrows, -⟩, htable, -⟩ := tables_of_run 0 "sample" hops
  exact ⟨hops, hrows, (htable "stock" 2).mpr rfl, (htable "band" 4).mpr rfl⟩

end Instance

end IncrementalLP
