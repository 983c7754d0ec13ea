import IncrementalLP.Proofs.Instance.Tables
/-!
# Naming ranges

Which names may be given to a range of rows or columns, and what the range, the rest of the
instance and the table of names are then. Inside a range names may be kept, swapped, or taken over
from an ordinal that gives them up in the same call.
-/
namespace IncrementalLP

namespace Names

variable {α : Type} {table table' : Table} {names names' : List (Option String)}
  {texts : List String} {first last : ℤ}

/-- The texts may become the names of the ordinals from `first` to `last`, one for each. -/
structure Assignable (names : List (Option String)) (texts : List String) (first last : ℤ) :
    Prop where
  begins : 0 ≤ first
  ascends : first ≤ last
  ends : last < names.length
  length : (texts.length : ℤ) = last - first + 1
  nonempty : ∀ t ∈ texts, t ≠ ""
  nodup : texts.Nodup
  /-- A name that is carried is free only inside the range. -/
  free : ∀ t ∈ texts, ∀ k : ℕ, names[k]? = some (some t) → first ≤ k ∧ k ≤ last

/-- The entries of the ordinals outside a range. -/
def outside (first last : ℤ) (table : Table) : Table :=
  table.filter fun e => decide (e.2 < first) || decide (last < e.2)

private theorem mem_outside {name : String} {k : ℕ} :
    (name, k) ∈ outside first last table ↔ (name, k) ∈ table ∧ (k < first ∨ last < k) := by
  rw [outside, List.mem_filter, Bool.or_eq_true, decide_eq_true_eq, decide_eq_true_eq]

@[simp] theorem outside_outside : outside first last (outside first last table) =
    outside first last table := by
  rw [outside, outside, List.filter_filter]
  simp only [Bool.and_self]

private theorem outside_append : outside first last (table ++ table') =
    outside first last table ++ outside first last table' := List.filter_append _ _

private theorem outside_located (hfirst : 0 ≤ first)
    (hlength : (texts.length : ℤ) = last - first + 1) :
    outside first last (located first.toNat (texts.map some)) = [] := by
  rw [List.eq_nil_iff_forall_not_mem]
  rintro ⟨name, k⟩ hmem
  obtain ⟨hlocated, hout⟩ := mem_outside.mp hmem
  obtain ⟨hle, hsome⟩ := mem_located.mp hlocated
  have hlt := (List.getElem?_eq_some_iff.mp hsome).1
  rw [List.length_map] at hlt
  omega

private theorem reduceOption_map_some (texts : List String) :
    (texts.map some).reduceOption = texts := by
  rw [List.reduceOption, List.filterMap_map]
  exact List.filterMap_some

private theorem Indexes.checkedRange_eq_ok_iff (h : Indexes table names) {kind : EntityKind}
    {given : List Given} :
    checkedRange (α := α) kind names.length table given first last = .ok (texts, table') ↔
      given = texts.map .ok ∧ Assignable names texts first last ∧
        table' = outside first last table ++ located first.toNat (texts.map some) := by
  have hfree : (∀ t ∈ texts, t ∉ (outside first last table).map (·.1)) ↔
      ∀ t ∈ texts, ∀ k : ℕ, names[k]? = some (some t) → first ≤ k ∧ k ≤ last := by
    refine forall₂_congr fun t _ => ?_
    simp only [List.mem_map, Prod.exists, exists_eq_right, mem_outside, h.mem_iff, not_exists,
      exists_and_right, exists_eq_right]
    refine forall_congr' fun k => ?_
    rw [not_and]
    refine forall_congr' fun _ => ?_
    omega
  simp only [checkedRange, bind_eq_ok, pure_eq_ok, Prod.mk.injEq, checkExtent_eq_ok,
    checkTexts_eq_ok, enter_eq_ok_iff, reduceOption_map_some]
  constructor
  · rintro ⟨_, ⟨hfirst, hlast, hle, hgiven⟩, texts, ⟨rfl, hnonempty⟩, _,
      ⟨hnodup, hfresh, rfl⟩, rfl, rfl⟩
    rw [List.length_map] at hgiven
    exact ⟨rfl, ⟨hfirst, hle, hlast, hgiven, hnonempty, hnodup, hfree.mp hfresh⟩, rfl⟩
  · rintro ⟨rfl, hok, rfl⟩
    refine ⟨(), ⟨hok.begins, hok.ends, hok.ascends, ?_⟩, texts, ⟨rfl, hok.nonempty⟩, _,
      ⟨hok.nodup, hfree.mpr hok.free, rfl⟩, rfl, rfl⟩
    rw [List.length_map, hok.length]

private theorem Assignable.fits (h : Assignable names texts first last) :
    first.toNat + texts.length ≤ names.length := by
  have := h.begins
  have := h.ends
  have := h.length
  omega

private theorem Assignable.again (h : Assignable names texts first last)
    (hlength : names'.length = names.length)
    (hkept : ∀ k : ℕ, k < first ∨ last < k → names'[k]? = names[k]?) :
    Assignable names' texts first last where
  begins := h.begins
  ascends := h.ascends
  ends := hlength ▸ h.ends
  length := h.length
  nonempty := h.nonempty
  nodup := h.nodup
  free t ht k hk := by
    by_contra hout
    rw [hkept k (by omega)] at hk
    exact hout (h.free t ht k hk)

private theorem Indexes.ordinal?_eq_none (h : Indexes table names) (h' : Indexes table' names')
    (hkept : ∀ k : ℕ, k < first ∨ last < k → names'[k]? = names[k]?)
    (hinside : ∀ (k : ℕ) (t : String), first ≤ k → k ≤ last → names'[k]? = some (some t) →
      t ∈ texts)
    {k : ℕ} (hk : first ≤ k ∧ k ≤ last) {t : String} (ht : names[k]? = some (some t))
    (hnew : t ∉ texts) : Names.ordinal? table' t = none := by
  rw [Option.eq_none_iff_forall_ne_some]
  intro m hm
  rw [h'.ordinal?] at hm
  by_cases hin : first ≤ m ∧ m ≤ last
  · exact hnew (hinside m t hin.1 hin.2 hm)
  · rw [hkept m (by omega)] at hm
    exact hin (h.eq_of_carried ht hm ▸ hk)

section

variable {β : Type} {rename : String → β → β}

private theorem zipWith_rename_append
    (hrename : ∀ name name' b, rename name (rename name' b) = rename name b) {l rest : List β}
    (hle : texts.length ≤ l.length) :
    List.zipWith rename texts (List.zipWith rename texts l ++ rest) =
      List.zipWith rename texts l := by
  induction texts generalizing l with
  | nil => rfl
  | cons text texts ih =>
      cases l with
      | nil => simp at hle
      | cons b l =>
          rw [List.zipWith_cons_cons, List.cons_append, List.zipWith_cons_cons, hrename,
            ih (by simpa using hle)]

private theorem overwrite_eq_self {start : ℕ} {before range after : List β}
    (hbefore : before.length = start) (hlength : range.length = texts.length)
    (hrange : List.zipWith rename texts (range ++ after) = range) :
    overwrite rename start texts (before ++ (range ++ after)) = before ++ (range ++ after) := by
  rw [overwrite, ← List.drop_drop, List.take_left' hbefore, List.drop_left' hbefore, hrange,
    List.drop_left' hlength, List.append_assoc]

variable (rename) in
private theorem overwrite_overwrite
    (hrename : ∀ name name' b, rename name (rename name' b) = rename name b) {start : ℕ}
    {l : List β} (hle : start + texts.length ≤ l.length) :
    overwrite rename start texts (overwrite rename start texts l) =
      overwrite rename start texts l := by
  have hrange : texts.length ≤ (l.drop start).length := by
    rw [List.length_drop]
    omega
  have hparts : overwrite rename start texts l = l.take start ++
      (List.zipWith rename texts (l.drop start) ++ l.drop (start + texts.length)) := by
    rw [overwrite, List.append_assoc]
  rw [hparts]
  refine overwrite_eq_self ?_ ?_ (zipWith_rename_append hrename hrange)
  · rw [List.length_take]
    omega
  · rw [List.length_zipWith]
    omega

end

end Names

namespace Instance

open IncrementalLP.Action

variable {α : Type} {i j : Instance α} {kind : EntityKind}

/-- The names that the rows, or the columns, carry. -/
def names (i : Instance α) : EntityKind → List (Option String)
  | .row => i.rowNames
  | .column => i.columnNames

def table (i : Instance α) : EntityKind → Names.Table
  | .row => i.rowTable
  | .column => i.columnTable

/-- The instance without the names of one kind. -/
def unnamed (i : Instance α) : EntityKind → Instance α
  | .row => { i with rows := i.rows.map Row.bare, rowTable := [] }
  | .column => { i with columns := i.columns.map Column.bare, columnTable := [] }

/-- The instance with texts as the names of a range, and with another table. -/
def renamed (i : Instance α) (kind : EntityKind) (start : ℕ) (texts : List String)
    (table : Names.Table) : Instance α :=
  match kind with
  | .row =>
    { i with rows := Names.overwrite Row.rename start texts i.rows, rowTable := table }
  | .column =>
    { i with columns := Names.overwrite Column.rename start texts i.columns, columnTable := table }

section

variable {start : ℕ} {texts : List String} {table : Names.Table}

@[simp] theorem table_renamed : (i.renamed kind start texts table).table kind = table := by
  cases kind <;> rfl

@[simp] theorem unnamed_renamed : (i.renamed kind start texts table).unnamed kind =
    i.unnamed kind := by
  cases kind with
  | row => rw [unnamed, unnamed, renamed, Row.map_bare_overwrite]
  | column => rw [unnamed, unnamed, renamed, Column.map_bare_overwrite]

@[simp] theorem loaded_renamed : (i.renamed kind start texts table).loaded = i.loaded := by
  cases kind <;> rfl

private theorem length_names_renamed :
    ((i.renamed kind start texts table).names kind).length = (i.names kind).length := by
  cases kind with
  | row =>
      rw [names, names, rowNames, rowNames, List.length_map, List.length_map]
      exact length_eq_of_map_eq (Row.map_bare_overwrite start texts i.rows)
  | column =>
      rw [names, names, columnNames, columnNames, List.length_map, List.length_map]
      exact length_eq_of_map_eq (Column.map_bare_overwrite start texts i.columns)

private theorem getElem?_names_renamed (hle : start + texts.length ≤ (i.names kind).length)
    (k : ℕ) :
    ((i.renamed kind start texts table).names kind)[k]? =
      if start ≤ k ∧ k < start + texts.length then (texts.map some)[k - start]?
      else (i.names kind)[k]? := by
  cases kind with
  | row =>
      rw [names, rowNames, List.length_map] at hle
      exact Names.getElem?_map_overwrite Row.rename (fun _ _ => rfl) hle k
  | column =>
      rw [names, columnNames, List.length_map] at hle
      exact Names.getElem?_map_overwrite Column.rename (fun _ _ => rfl) hle k

section

variable {first last : ℤ} (hok : Names.Assignable (i.names kind) texts first last) (k : ℕ)

include hok

private theorem getElem?_names_given {t : String} (ht : texts[k]? = some t) :
    ((i.renamed kind first.toNat texts table).names kind)[first.toNat + k]? = some (some t) := by
  have hk := (List.getElem?_eq_some_iff.mp ht).1
  rw [getElem?_names_renamed hok.fits, if_pos (by omega), Nat.add_sub_cancel_left,
    List.getElem?_map, ht, Option.map_some]

private theorem getElem?_names_kept (hk : k < first ∨ last < k) :
    ((i.renamed kind first.toNat texts table).names kind)[k]? = (i.names kind)[k]? := by
  have := hok.begins
  have := hok.length
  rw [getElem?_names_renamed hok.fits, if_neg (by omega)]

private theorem mem_of_getElem?_names {t : String} (hfirst : first ≤ k) (hlast : k ≤ last)
    (ht : ((i.renamed kind first.toNat texts table).names kind)[k]? = some (some t)) :
    t ∈ texts := by
  have := hok.begins
  have := hok.length
  rw [getElem?_names_renamed hok.fits, if_pos (by omega), List.getElem?_map,
    Option.map_eq_some_iff] at ht
  obtain ⟨t', ht', hsome⟩ := ht
  cases hsome
  exact List.mem_of_getElem? ht'

end

private theorem renamed_renamed (hle : start + texts.length ≤ (i.names kind).length) :
    (i.renamed kind start texts table).renamed kind start texts table =
      i.renamed kind start texts table := by
  cases kind with
  | row =>
      rw [names, rowNames, List.length_map] at hle
      have hrows := Names.overwrite_overwrite Row.rename (fun _ _ _ => rfl) hle
      simp only [renamed, hrows]
  | column =>
      rw [names, columnNames, List.length_map] at hle
      have hcolumns := Names.overwrite_overwrite Column.rename (fun _ _ _ => rfl) hle
      simp only [renamed, hcolumns]

end

private theorem Indexed.indexes (hi : i.Indexed) (kind : EntityKind) :
    Names.Indexes (i.table kind) (i.names kind) := by
  cases kind with
  | row => exact hi.rows
  | column => exact hi.columns

private theorem Indexed.assignNames_returns (hi : i.Indexed) {given : List Names.Given}
    {first last : ℤ} :
    (Instance.assignNames (.ok kind) (.ok given) first last).Returns i j () ↔
      i.loaded = true ∧ ∃ texts, given = texts.map .ok ∧
        Names.Assignable (i.names kind) texts first last ∧
        j = i.renamed kind first.toNat texts (Names.outside first last (i.table kind) ++
          Names.located first.toNat (texts.map some)) := by
  have hchecked {texts : List String} {table : Names.Table} :
      Names.checkedRange (α := α) kind (i.names kind).length (i.table kind) given first last =
          .ok (texts, table) ↔
        given = texts.map .ok ∧ Names.Assignable (i.names kind) texts first last ∧
          table = Names.outside first last (i.table kind) ++
            Names.located first.toNat (texts.map some) :=
    (hi.indexes kind).checkedRange_eq_ok_iff
  rw [Instance.assignNames_returns]
  refine and_congr_right fun _ => ?_
  constructor
  · rintro ⟨_, texts, table, ⟨⟩, ⟨⟨⟩, hrange, rfl⟩ | ⟨⟨⟩, hrange, rfl⟩⟩
    · rw [numRows, ← List.length_map (f := fun r : Row α => r.name)] at hrange
      obtain ⟨hgiven, hok, rfl⟩ := hchecked.mp hrange
      exact ⟨texts, hgiven, hok, rfl⟩
    · rw [numColumns, ← List.length_map (f := fun c : Column α => c.name)] at hrange
      obtain ⟨hgiven, hok, rfl⟩ := hchecked.mp hrange
      exact ⟨texts, hgiven, hok, rfl⟩
  · rintro ⟨texts, hgiven, hok, rfl⟩
    have hrange := hchecked.mpr ⟨hgiven, hok, rfl⟩
    cases kind with
    | row =>
        rw [names, rowNames, List.length_map] at hrange
        exact ⟨given, texts, _, rfl, .inl ⟨rfl, hrange, rfl⟩⟩
    | column =>
        rw [names, columnNames, List.length_map] at hrange
        exact ⟨given, texts, _, rfl, .inr ⟨rfl, hrange, rfl⟩⟩

/-- A call that has returned returns again, and then it changes nothing. -/
theorem Indexed.assignNames_repeats (hi : i.Indexed) (hj : j.Indexed) {given : List Names.Given}
    {first last : ℤ} (h : (Instance.assignNames (.ok kind) (.ok given) first last).Returns i j ()) :
    (Instance.assignNames (.ok kind) (.ok given) first last).Returns j j () := by
  obtain ⟨hloaded, texts, hgiven, hok, rfl⟩ := hi.assignNames_returns.mp h
  refine hj.assignNames_returns.mpr ⟨loaded_renamed.trans hloaded, texts, hgiven,
    hok.again length_names_renamed (getElem?_names_kept hok), ?_⟩
  rw [table_renamed, Names.outside_append, Names.outside_outside,
    Names.outside_located hok.begins hok.length, List.append_nil, renamed_renamed hok.fits]

variable [Scalar α]

/-- For an instance that is loaded, whatever it has gone through: a range of rows or columns gets
names just where the range is there, there is one name for each of its ordinals, the names are texts
that are not empty and pairwise different, and no ordinal outside the range carries one of them.
Then the range carries the names in order, the others carry what they carried, the table finds what
is carried and no name that was given up, nothing else has changed, and the same call changes
nothing more. -/
theorem assignNames_of_run (token : ℕ) (name : String) (ops : List (Operation α))
    (hloaded : (Operation.run (declare token name) ops).loaded = true) (kind : EntityKind)
    (given : List Names.Given) (first last : ℤ) :
    let i := Operation.run (declare token name) ops
    let call : Action (Instance α) α Unit := assignNames (.ok kind) (.ok given) first last
    ((∃ j, call.Returns i j ()) ↔
        ∃ texts, given = texts.map .ok ∧ Names.Assignable (i.names kind) texts first last) ∧
      ∀ j, call.Returns i j () →
        (∀ (k : ℕ) (t : String), given[k]? = some (.ok t) →
            (j.names kind)[first.toNat + k]? = some (some t)) ∧
          (∀ k : ℕ, k < first ∨ last < k → (j.names kind)[k]? = (i.names kind)[k]?) ∧
          (∀ (t : String) (k : ℕ),
            Names.ordinal? (j.table kind) t = some k ↔ (j.names kind)[k]? = some (some t)) ∧
          (∀ (t : String) (k : ℕ), first ≤ k → k ≤ last → (i.names kind)[k]? = some (some t) →
            .ok t ∉ given → Names.ordinal? (j.table kind) t = none) ∧
          j.unnamed kind = i.unnamed kind ∧ call.Returns j j () := by
  intro i call
  have hi : i.Indexed := indexed_run token name ops
  refine ⟨⟨?_, ?_⟩, fun j h => ?_⟩
  · rintro ⟨j, h⟩
    obtain ⟨-, texts, hgiven, hok, -⟩ := hi.assignNames_returns.mp h
    exact ⟨texts, hgiven, hok⟩
  · rintro ⟨texts, hgiven, hok⟩
    exact ⟨_, hi.assignNames_returns.mpr ⟨hloaded, texts, hgiven, hok, rfl⟩⟩
  · have hj : j.Indexed := by
      have hrun := indexed_run token name (ops ++ [.assignNames (.ok kind) (.ok given) first last])
      rw [Operation.run_concat] at hrun
      exact h.1 ▸ hrun
    have hrepeats := hi.assignNames_repeats hj h
    obtain ⟨-, texts, rfl, hok, rfl⟩ := hi.assignNames_returns.mp h
    refine ⟨fun k t ht => ?_, getElem?_names_kept hok, (hj.indexes kind).ordinal?,
      fun t k hfirst hlast ht hnew => ?_, unnamed_renamed, hrepeats⟩
    · rw [List.getElem?_map, Option.map_eq_some_iff] at ht
      obtain ⟨t', ht', hsome⟩ := ht
      cases hsome
      exact getElem?_names_given hok k ht'
    · -- outside the range the name would be carried twice
      refine (hi.indexes kind).ordinal?_eq_none (hj.indexes kind) (getElem?_names_kept hok)
        (fun k _ => mem_of_getElem?_names hok k) ⟨hfirst, hlast⟩ ht ?_
      exact fun hmem => hnew (List.mem_map_of_mem hmem)

/-- Of four rows two are named, and then three of them: the two names change places, and one is
taken over by a row that had none. A name that is carried outside the range is refused. -/
theorem assignNames_of_run_sample :
    let ops : List (Operation ℚ) :=
      [.load ⟨"sample", .ok .max, Sample.parts.rows, Sample.parts.columns,
          .held Sample.parts.matrix⟩,
        .assignNames (.ok .row) (.ok [.ok "hours", .ok "stock"]) 1 2]
    let i := Operation.run (declare 0 "sample") ops
    let call : Action (Instance ℚ) ℚ Unit :=
      assignNames (.ok .row) (.ok [.ok "stock", .ok "spare", .ok "hours"]) 1 3
    (∃ j, call.Returns i j () ∧ Names.ordinal? j.rowTable "hours" = some 3 ∧
        j.rowNames[1]? = some (some "stock") ∧ call.Returns j j ()) ∧
      ¬ ∃ j, (assignNames (.ok .row) (.ok [.ok "hours"]) 0 0).Returns i j () := by
  intro ops i call
  have hloaded : i.loaded = true := rfl
  have hcall : call.Returns i (call i).state () := ⟨rfl, rfl⟩
  obtain ⟨hgiven, -, htable, -, -, hrepeats⟩ :=
    (assignNames_of_run 0 "sample" ops hloaded .row _ 1 3).2 _ hcall
  refine ⟨⟨_, hcall, (htable "hours" 3).mpr (hgiven 2 "hours" rfl), hgiven 0 "stock" rfl,
    hrepeats⟩, fun hnamed => ?_⟩
  obtain ⟨texts, htexts, hok⟩ := (assignNames_of_run 0 "sample" ops hloaded .row _ 0 0).1.mp hnamed
  have hmem : .ok "hours" ∈ texts.map (.ok : String → Names.Given) := htexts ▸ List.mem_cons_self
  obtain ⟨t, ht, heq⟩ := List.mem_map.mp hmem
  cases heq
  exact absurd (hok.free "hours" ht 1 rfl).2 (by decide)

end Instance

end IncrementalLP
