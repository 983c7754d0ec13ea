import IncrementalLP.Proofs.Matrix.Builds
import IncrementalLP.Proofs.Matrix.Views
/-!
# Refusals

What the refusal of columns or rows blames. Each check of a layout blames the first column with the
defect that it looks for, which it recovers from flat lists, and the check of appended rows blames
the first entry list with any defect.
-/
namespace IncrementalLP

/-- What can be wrong with a column of a layout. -/
inductive ColumnDefect where
  /-- It starts after the next one. -/
  | decrease
  /-- It has a row that is not there. -/
  | outside
  /-- It lists a row more than once. -/
  | repeated
  deriving Repr, DecidableEq

/-- The defect of a column for which a layout is refused. -/
def Fault.columnDefect? {α : Type} : Fault α → Option ColumnDefect
  | .startsDecrease .. => some .decrease
  | .rowOutside .. => some .outside
  | .rowRepeated .. => some .repeated
  | _ => none

/-- A fault in what a matrix is made of, or in its sizes. -/
def Fault.OfMatrix {α : Type} (f : Fault α) : Prop :=
  f.family = .malformedMatrix ∨ f.family = .dimensionMismatch

private theorem Fault.not_ofMatrix_misread {α : Type} (cause : Misread) :
    ¬ (Fault.misread cause : Fault α).OfMatrix := by
  cases cause <;> rintro (h | h) <;> cases h

namespace SparseMatrix

/-- A layout of columns, for rows below a row count. -/
structure Layout (α : Type) where
  starts : List Int64
  rows : List Int64
  values : List α
  numRows : Ordinal α

namespace Layout

variable {α : Type} [Scalar α]

/-- The columns with a defect. A column lists the rows between its start and the next. -/
def Defective (l : Layout α) : ColumnDefect → Set ℕ
  | .decrease =>
    {c | ∃ a b, l.starts[c]? = some a ∧ l.starts[c + 1]? = some b ∧ b.toInt < a.toInt}
  | .outside =>
    {c | ∃ column, (Runs.slices (l.starts.map (·.toInt.toNat)) l.rows)[c]? = some column ∧
      ∃ r ∈ column, r.toInt < 0 ∨ l.numRows.atMost r.toInt = true}
  | .repeated =>
    {c | ∃ column, (Runs.slices (l.starts.map (·.toInt.toNat)) l.rows)[c]? = some column ∧
      ¬ column.Nodup}

/-- The last start is the number of rows and of values. -/
structure Counted (l : Layout α) : Prop where
  rows : (l.rows.length : ℤ) = (l.starts.getLastD 0).toInt
  values : (l.values.length : ℤ) = (l.starts.getLastD 0).toInt

/-- What is checked before a defect is looked for. -/
def Reaches (l : Layout α) : ColumnDefect → Prop
  | .decrease => l.starts.head? = some 0
  | .outside => l.starts.head? = some 0 ∧ l.Defective .decrease = ∅ ∧ l.Counted
  | .repeated =>
    l.starts.head? = some 0 ∧ l.Defective .decrease = ∅ ∧ l.Counted ∧ l.Defective .outside = ∅

/-- The starts are far from the limits of their words. -/
def Small (l : Layout α) : Prop := ∀ s ∈ l.starts, |s.toInt| < 2 ^ 62

variable {l : Layout α}

private theorem ascends (h : l.Defective .decrease = ∅) :
    (l.starts.map (·.toInt)).IsChain (· ≤ ·) := by
  rw [List.isChain_map, isChain_iff_getElem?]
  intro c a b ha hb
  by_contra hlt
  exact Set.eq_empty_iff_forall_notMem.mp h c ⟨a, b, ha, hb, not_le.mp hlt⟩

private theorem defective_decrease (h : l.Small) : l.Defective .decrease =
    {c | ∃ d, (Runs.steps l.starts)[c]? = some d ∧ decide (d < 0) = true} := by
  ext c
  simp only [Defective, Set.mem_ofPred_eq, Runs.getElem?_steps, decide_eq_true_eq,
    Int64.lt_iff_toInt_lt, Int64.toInt_zero]
  constructor
  · rintro ⟨a, b, ha, hb, hlt⟩
    refine ⟨b - a, ⟨a, b, ha, hb, rfl⟩, ?_⟩
    exact (Runs.toInt_sub_neg_iff (h a (List.mem_of_getElem? ha))
      (h b (List.mem_of_getElem? hb))).mpr hlt
  · rintro ⟨_, ⟨a, b, ha, hb, rfl⟩, hneg⟩
    refine ⟨a, b, ha, hb, ?_⟩
    exact (Runs.toInt_sub_neg_iff (h a (List.mem_of_getElem? ha))
      (h b (List.mem_of_getElem? hb))).mp hneg

private theorem Reaches.sum_eq (h : l.Reaches .outside) :
    (Runs.lengths l.starts).sum = l.rows.length :=
  sum_lengths_eq h.1 (ascends h.2.1) h.2.2.rows

private theorem Reaches.defective_outside (h : l.Reaches .outside) : l.Defective .outside =
    {c | ∃ column, (Runs.cut (Runs.lengths l.starts) l.rows)[c]? = some column ∧
      ∃ r ∈ column, (decide (r < 0) || l.numRows.atMost r.toInt) = true} := by
  rw [cut_eq_slices h.1 (ascends h.2.1)]
  simp only [Defective, Bool.or_eq_true, decide_eq_true_eq, Int64.lt_iff_toInt_lt,
    Int64.toInt_zero]

private theorem Reaches.defective_repeated (h : l.Reaches .outside) : l.Defective .repeated =
    {c | ∃ column, (Runs.cut (Runs.lengths l.starts) (l.rows.map (·.toInt)))[c]? = some column ∧
      ¬ column.Nodup} := by
  rw [Runs.cut_map, cut_eq_slices h.1 (ascends h.2.1)]
  ext c
  simp only [Defective, Set.mem_ofPred_eq, List.getElem?_map, Option.map_eq_some_iff]
  constructor
  · rintro ⟨column, hcolumn, hrepeats⟩
    exact ⟨_, ⟨column, hcolumn, rfl⟩, fun h => hrepeats (List.Nodup.of_map _ h)⟩
  · rintro ⟨_, ⟨column, hcolumn, rfl⟩, hrepeats⟩
    exact ⟨column, hcolumn, fun h => hrepeats (h.map fun _ _ => Int64.toInt_inj.mp)⟩

end Layout

variable {α β : Type}

/-- The fault reports a defect, and of the columns that have it, counted from `first`, it blames the
least one. -/
structure Blames (d : ColumnDefect) (first : ℕ) (columns : Set ℕ) (f : Fault α) : Prop where
  defect : f.columnDefect? = some d
  family : f.family = .malformedMatrix
  ordinal : ∃ c, f.ordinal? = some (.whole (first + c : ℕ)) ∧ IsLeast columns c

/-- A check for a defect passes if no column has it, and else it blames the least one. -/
inductive Judged (d : ColumnDefect) (first : ℕ) (columns : Set ℕ) :
    Except (Fault α) Unit → Prop
  | passes : columns = ∅ → Judged d first columns (.ok ())
  | refuses {f : Fault α} : Blames d first columns f → Judged d first columns (.error f)

namespace Judged

variable {d : ColumnDefect} {first : ℕ} {columns : Set ℕ} {r : Except (Fault α) Unit} {u : Unit}
  {f : Fault α}

private theorem eq_empty (h : Judged d first columns r) (hr : r = .ok u) : columns = ∅ := by
  cases h with
  | passes hempty => exact hempty
  | refuses => cases hr

private theorem blames (h : Judged d first columns r) (hr : r = .error f) :
    Blames d first columns f := by
  cases h with
  | passes => cases hr
  | refuses hblames =>
      cases hr
      exact hblames

private theorem eq_ok (h : Judged d first columns r) (hempty : columns = ∅) : r = .ok () := by
  cases h with
  | passes => rfl
  | refuses hblames =>
      obtain ⟨c, -, hc, -⟩ := hblames.ordinal
      rw [hempty] at hc
      exact absurd hc (Set.notMem_empty c)

private theorem exists_error (h : Judged d first columns r) (hne : columns.Nonempty) :
    ∃ f, r = .error f ∧ Blames d first columns f := by
  cases h with
  | passes hempty => exact absurd hempty hne.ne_empty
  | refuses hblames => exact ⟨_, rfl, hblames⟩

end Judged

section

variable [Scalar α] {l : Layout α} {f : Fault α} {d : ColumnDefect}

private theorem judged_checkStarts (first : ℕ) (hsmall : l.Small)
    (hbegins : l.starts.head? = some 0) :
    Judged .decrease first (l.Defective .decrease)
      (checkStarts first l.starts : Except (Fault α) Unit) := by
  rw [Layout.defective_decrease hsmall]
  obtain ⟨rest, hrest⟩ := List.head?_eq_some_iff.mp hbegins
  rw [hrest, checkStarts, if_neg (not_not.mpr rfl)]
  split
  · next k hk => exact .refuses ⟨rfl, rfl, k, rfl, isLeast_of_findIdx? hk⟩
  · next hnone =>
    refine .passes (Set.eq_empty_of_forall_notMem ?_)
    rintro c ⟨d, hd, hneg⟩
    rw [List.findIdx?_eq_none_iff.mp hnone d (List.mem_of_getElem? hd)] at hneg
    cases hneg

private theorem judged_checkRange (first : ℕ) (h : l.Reaches .outside) :
    Judged .outside first (l.Defective .outside)
      (checkRange first l.numRows (Runs.owners 0 (Runs.lengths l.starts)) l.rows) := by
  rw [h.defective_outside, checkRange]
  split
  · next k hk => exact .refuses ⟨rfl, rfl, _, rfl, Runs.isLeast_owner h.sum_eq hk⟩
  · next hnone =>
    refine .passes (Set.eq_empty_of_forall_notMem ?_)
    rintro c ⟨column, hcolumn, r, hr, hout⟩
    have hrows := Runs.mem_of_mem_cut (List.mem_of_getElem? hcolumn) hr
    rw [List.findIdx?_eq_none_iff.mp hnone r hrows] at hout
    cases hout

private theorem judged_checkRepeats (first : ℕ) (h : l.Reaches .outside) :
    Judged .repeated first (l.Defective .repeated)
      (checkRepeats first (Runs.owners 0 (Runs.lengths l.starts)) l.rows :
        Except (Fault α) Unit) := by
  have hsum := h.sum_eq.trans (List.length_map (·.toInt)).symm
  rw [h.defective_repeated, checkRepeats]
  split
  · next c r hr => exact .refuses ⟨rfl, rfl, c, rfl, Runs.isLeast_of_twin? hsum hr⟩
  · next hnone =>
    refine .passes (Set.eq_empty_of_forall_notMem ?_)
    rintro c ⟨column, hcolumn, hrepeats⟩
    exact hrepeats ((Runs.twin?_eq_none hsum).mp hnone column (List.mem_of_getElem? hcolumn))

omit [Scalar α] in
private theorem columnDefect?_of_checkStarts {first : ℕ} {starts : List Int64}
    (hbegins : starts.head? ≠ some 0) (h : checkStarts first starts = .error f) :
    f.columnDefect? = none := by
  cases starts with
  | nil =>
      cases h
      rfl
  | cons s starts =>
      rw [List.head?_cons, ne_eq, Option.some.injEq] at hbegins
      rw [checkStarts, if_pos hbegins] at h
      cases h
      rfl

omit [Scalar α] in
private theorem columnDefect?_of_checkCounts {starts rows : List Int64} {values : List α}
    (h : checkCounts starts rows values = .error f) : f.columnDefect? = none := by
  unfold checkCounts at h
  simp only at h
  split at h <;> cases h
  rfl

private theorem blames_of_checkedRuns {first : ℕ} (hsmall : l.Small)
    (h : checkedRuns first l.numRows l.starts l.rows l.values = .error f)
    (hd : f.columnDefect? = some d) :
    l.Reaches d ∧ Blames d first (l.Defective d) f := by
  have hdefect : ∀ {d' : ColumnDefect}, Blames d' first (l.Defective d') f → d' = d :=
    fun hblames => Option.some.inj (hblames.defect.symm.trans hd)
  obtain h | ⟨_, hstarts, h⟩ := bind_eq_error.mp h
  · by_cases hbegins : l.starts.head? = some 0
    · have hblames := (judged_checkStarts first hsmall hbegins).blames h
      obtain rfl := hdefect hblames
      exact ⟨hbegins, hblames⟩
    · rw [columnDefect?_of_checkStarts hbegins h] at hd
      cases hd
  have hbegins := (checkStarts_eq_ok.mp hstarts).1
  have hdecrease := (judged_checkStarts first hsmall hbegins).eq_empty hstarts
  obtain h | ⟨_, hcounts, h⟩ := bind_eq_error.mp h
  · rw [columnDefect?_of_checkCounts h] at hd
    cases hd
  obtain ⟨hrows, hvalues⟩ := checkCounts_eq_ok.mp hcounts
  have hreaches : l.Reaches .outside := ⟨hbegins, hdecrease, hrows, hvalues⟩
  obtain h | ⟨_, -, h⟩ := bind_eq_error.mp h
  · obtain ⟨-, ⟨-, rfl⟩ | ⟨-, hrange | ⟨hrange, hrepeats⟩⟩⟩ := checkRows_eq_error.mp h
    · cases hd
    · have hblames := (judged_checkRange first hreaches).blames hrange
      obtain rfl := hdefect hblames
      exact ⟨hreaches, hblames⟩
    · have hblames := (judged_checkRepeats first hreaches).blames hrepeats
      obtain rfl := hdefect hblames
      exact ⟨⟨hbegins, hdecrease, ⟨hrows, hvalues⟩,
        (judged_checkRange first hreaches).eq_empty hrange⟩, hblames⟩
  · cases h

private theorem checkedRuns_eq_error_of_reaches {first : ℕ} (hsmall : l.Small)
    (h : l.Reaches .outside)
    (hrest : checkRange first l.numRows (Runs.owners 0 (Runs.lengths l.starts)) l.rows =
        .error f ∨
      checkRange first l.numRows (Runs.owners 0 (Runs.lengths l.starts)) l.rows = .ok () ∧
        checkRepeats first (Runs.owners 0 (Runs.lengths l.starts)) l.rows = .error f) :
    checkedRuns first l.numRows l.starts l.rows l.values = .error f := by
  have hrows : l.rows ≠ [] := by
    intro hnil
    rw [hnil] at hrest
    rcases hrest with hrange | ⟨-, hrepeats⟩
    · cases hrange
    · rw [checkRepeats, List.map_nil, List.zip_nil_right] at hrepeats
      cases hrepeats
  obtain ⟨hbegins, hdecrease, hcounted⟩ := h
  have hstarts := (judged_checkStarts first hsmall hbegins).eq_ok hdecrease
  have hcounts := (checkCounts_eq_ok (u := ())).mpr ⟨hcounted.rows, hcounted.values⟩
  refine bind_eq_error.mpr (Or.inr ⟨(), hstarts, bind_eq_error.mpr (Or.inr ⟨(), hcounts, ?_⟩)⟩)
  refine bind_eq_error.mpr (Or.inl (checkRows_eq_error.mpr ⟨hrows, Or.inr ⟨?_, hrest⟩⟩))
  exact sum_lengths_eq hbegins (Layout.ascends hdecrease) hcounted.rows

/-- Where the checks before pass, a layout with a defect is refused for it. -/
theorem checkedRuns_refuses (first : ℕ) (hsmall : l.Small) (h : l.Reaches d)
    (hne : (l.Defective d).Nonempty) :
    ∃ f, checkedRuns first l.numRows l.starts l.rows l.values = .error f ∧
      Blames d first (l.Defective d) f := by
  cases d with
  | decrease =>
      obtain ⟨f, hf, hblames⟩ := (judged_checkStarts first hsmall h).exists_error hne
      exact ⟨f, bind_eq_error.mpr (Or.inl hf), hblames⟩
  | outside =>
      obtain ⟨f, hf, hblames⟩ := (judged_checkRange first h).exists_error hne
      exact ⟨f, checkedRuns_eq_error_of_reaches hsmall h (Or.inl hf), hblames⟩
  | repeated =>
      obtain ⟨hbegins, hdecrease, hcounted, houtside⟩ := h
      have hreaches : l.Reaches .outside := ⟨hbegins, hdecrease, hcounted⟩
      have hrange := (judged_checkRange first hreaches).eq_ok houtside
      obtain ⟨f, hf, hblames⟩ := (judged_checkRepeats first hreaches).exists_error hne
      exact ⟨f, checkedRuns_eq_error_of_reaches hsmall hreaches
        (Or.inr ⟨hrange, hf⟩), hblames⟩

/-- The arrays of the layout are offered. -/
def OffersLayout (l : Layout α) (starts rows : Offer IndexArray)
    (values : Offer (ValueArray α)) : Prop :=
  starts = .ok (.integers l.starts) ∧ rows = .ok (.integers l.rows) ∧
    values = .ok (.numbers (l.values.map .finite))

/-- A call that is given a layout refuses it for a defect if and only if the checks before pass and
some column has the defect; it blames the first one. -/
structure RefusesFirst (first : ℕ) (given : Layout α → Prop)
    (answer : Except (Fault α) β) : Prop where
  blames : ∀ f d, answer = .error f → f.columnDefect? = some d →
    ∃ l, given l ∧ l.Reaches d ∧ Blames d first (l.Defective d) f
  refuses : ∀ l d, given l → l.Reaches d → (l.Defective d).Nonempty →
    ∃ f, answer = .error f ∧ Blames d first (l.Defective d) f

omit [Scalar α] in
private theorem columnDefect?_of_accept {γ : Type} {offer : Offer γ} (h : accept offer = .error f) :
    f.columnDefect? = none := by
  obtain ⟨cause, -, rfl⟩ := accept_eq_error.mp h
  rfl

omit [Scalar α] in
private theorem columnDefect?_of_readPositions {array : ArrayName} {offer : Offer IndexArray}
    (h : readPositions array offer = .error f) : f.columnDefect? = none := by
  obtain haccept | ⟨given, -, hread⟩ := bind_eq_error.mp h
  · exact columnDefect?_of_accept haccept
  · cases given <;> cases hread <;> rfl

omit [Scalar α] in
private theorem columnDefect?_of_readValues {offer : Offer (ValueArray α)}
    (h : readValues offer = .error f) : f.columnDefect? = none := by
  obtain haccept | ⟨given, -, hread⟩ := bind_eq_error.mp h
  · exact columnDefect?_of_accept haccept
  cases given with
  | numbers values =>
      obtain ⟨j, v, rfl⟩ := finiteValues_eq_error (k := 0) hread
      rfl
  | shaped lengths =>
      cases hread
      rfl

private theorem columnDefect?_of_rowCount {rows : List Int64} {given : Option (Ordinal α)}
    (h : rowCount rows given = .error f) : f.columnDefect? = none := by
  cases given with
  | none => cases h
  | some n =>
      rw [rowCount] at h
      split at h <;> cases h
      rfl

/-- The layouts that a call is given are offered as arrays, and it fails where the checks of such a
layout do. -/
private theorem refusesFirst_of_checks {first : ℕ} {given : Layout α → Prop}
    {answer : Except (Fault α) β} (hsmall : ∀ l, given l → l.Small)
    (h : ∀ f, f.columnDefect? ≠ none → (answer = .error f ↔ ∃ l, given l ∧
      checkedRuns first l.numRows l.starts l.rows l.values = .error f)) :
    RefusesFirst first given answer where
  blames := by
    intro f d hf hd
    obtain ⟨l, hl, hchecked⟩ := (h f (by rw [hd]; nofun)).mp hf
    exact ⟨l, hl, blames_of_checkedRuns (hsmall l hl) hchecked hd⟩
  refuses := by
    intro l d hl hreaches hne
    obtain ⟨f, hchecked, hblames⟩ := checkedRuns_refuses first (hsmall l hl) hreaches hne
    refine ⟨f, (h f ?_).mpr ⟨l, hl, hchecked⟩, hblames⟩
    rw [hblames.defect]
    nofun

private theorem build_refusesFirst {starts rows : Offer IndexArray} (hsmall : SmallStarts starts)
    (values : Offer (ValueArray α)) (numRows : Offer (Option (Ordinal α))) :
    RefusesFirst 0
      (fun l => OffersLayout l starts rows values ∧
        ∃ given, numRows = .ok given ∧ rowCount l.rows given = .ok l.numRows)
      (build starts rows values numRows) := by
  refine refusesFirst_of_checks (fun l hl => hsmall _ hl.1.1) fun f hf => ⟨fun h => ?_, ?_⟩
  · obtain h | ⟨s, hs, h⟩ := bind_eq_error.mp h
    · exact absurd (columnDefect?_of_readPositions h) hf
    obtain h | ⟨r, hr, h⟩ := bind_eq_error.mp h
    · exact absurd (columnDefect?_of_readPositions h) hf
    obtain h | ⟨xs, hxs, h⟩ := bind_eq_error.mp h
    · exact absurd (columnDefect?_of_readValues h) hf
    obtain h | ⟨given, hgiven, h⟩ := bind_eq_error.mp h
    · exact absurd (columnDefect?_of_accept h) hf
    obtain h | ⟨count, hcount, h⟩ := bind_eq_error.mp h
    · exact absurd (columnDefect?_of_rowCount h) hf
    obtain h | ⟨columns, -, h⟩ := bind_eq_error.mp h
    · exact ⟨⟨s, r, xs, count⟩, ⟨⟨readPositions_eq_ok.mp hs, readPositions_eq_ok.mp hr,
        readValues_eq_ok.mp hxs⟩, given, accept_eq_ok.mp hgiven, hcount⟩, h⟩
    obtain h | ⟨_, -, h⟩ := bind_eq_error.mp h
    · exact absurd (columnDefect?_of_accept h) hf
    · cases h
  · rintro ⟨l, ⟨⟨hs, hr, hxs⟩, given, hgiven, hcount⟩, h⟩
    refine bind_eq_error.mpr (Or.inr ⟨_, readPositions_eq_ok.mpr hs, ?_⟩)
    refine bind_eq_error.mpr (Or.inr ⟨_, readPositions_eq_ok.mpr hr, ?_⟩)
    refine bind_eq_error.mpr (Or.inr ⟨_, readValues_eq_ok.mpr hxs, ?_⟩)
    refine bind_eq_error.mpr (Or.inr ⟨_, accept_eq_ok.mpr hgiven, ?_⟩)
    exact bind_eq_error.mpr (Or.inr ⟨_, hcount, bind_eq_error.mpr (Or.inl h)⟩)

private theorem appendColumns_refusesFirst (m : SparseMatrix α) {starts rows : Offer IndexArray}
    (hsmall : SmallStarts starts) (values : Offer (ValueArray α)) :
    RefusesFirst m.numColumns
      (fun l => OffersLayout l starts rows values ∧ l.numRows = .whole m.numRows)
      (appendColumns starts rows values m).answer := by
  have hfails : ∀ f, (appendColumns starts rows values m).answer = .error f ↔
      ∃ t, Action.Fails (appendColumns starts rows values) m t f :=
    fun f => ⟨fun h => ⟨_, rfl, h⟩, fun ⟨_, h⟩ => h.2⟩
  refine refusesFirst_of_checks (fun l hl => hsmall _ hl.1.1) fun f hf => ?_
  rw [hfails]
  simp only [appendColumns, Action.fails_get_bind, Action.fails_lift_bind]
  constructor
  · rintro ⟨t, ⟨-, h⟩ | ⟨s, hs, ⟨-, h⟩ | ⟨r, hr, ⟨-, h⟩ | ⟨xs, hxs, ⟨-, h⟩ | ⟨columns, -, h⟩⟩⟩⟩⟩
    · exact absurd (columnDefect?_of_readPositions h) hf
    · exact absurd (columnDefect?_of_readPositions h) hf
    · exact absurd (columnDefect?_of_readValues h) hf
    · exact ⟨⟨s, r, xs, .whole m.numRows⟩, ⟨⟨readPositions_eq_ok.mp hs,
        readPositions_eq_ok.mp hr, readValues_eq_ok.mp hxs⟩, rfl⟩, h⟩
    · cases h.2
  · rintro ⟨l, ⟨⟨hs, hr, hxs⟩, hrows⟩, h⟩
    rw [hrows] at h
    exact ⟨m, Or.inr ⟨_, readPositions_eq_ok.mpr hs, Or.inr ⟨_, readPositions_eq_ok.mpr hr,
      Or.inr ⟨_, readValues_eq_ok.mpr hxs, Or.inl ⟨rfl, h⟩⟩⟩⟩⟩

end

/-- What can be wrong with the entries of a row that is appended. -/
inductive RowDefect (numColumns : ℕ) : Offer (RowEntries α) → Prop
  | notIntegers {array : IndexArray} {values : Offer (List (Extended α))} :
      (∀ js, array ≠ .integers js) → RowDefect numColumns (.ok ⟨.ok array, values⟩)
  | outside {js : List Int64} {j : Int64} {values : Offer (List (Extended α))} :
      j ∈ js → (j.toInt < 0 ∨ (numColumns : ℤ) ≤ j.toInt) →
      RowDefect numColumns (.ok ⟨.ok (.integers js), values⟩)
  | repeated {js : List Int64} {values : Offer (List (Extended α))} :
      ¬ js.Nodup → RowDefect numColumns (.ok ⟨.ok (.integers js), values⟩)
  | notFinite {columns : Offer IndexArray} {vs : List (Extended α)} {v : Extended α} :
      v ∈ vs → (∀ x, v ≠ .finite x) → RowDefect numColumns (.ok ⟨columns, .ok vs⟩)

section

variable {numColumns ordinal first : ℕ} {offer : Offer (RowEntries α)} {f : Fault α}

private theorem Fits.not_rowDefect {run : List (ℕ × α)} (h : Fits numColumns offer run) :
    ¬ RowDefect numColumns offer := by
  obtain ⟨js, xs, rfl, hinside, hnodup, -⟩ := h
  intro hdefect
  cases hdefect with
  | notIntegers hne => exact hne js rfl
  | outside hj hout =>
      obtain ⟨hnonneg, hlt⟩ := hinside _ hj
      exact hout.elim (not_lt.mpr hnonneg) (not_le.mpr hlt)
  | repeated hrepeats => exact hrepeats (List.Nodup.of_map _ hnodup)
  | notFinite hv hne =>
      obtain ⟨x, -, rfl⟩ := List.mem_map.mp hv
      exact hne x rfl

private theorem not_ofMatrix_of_accept {γ : Type} {offered : Offer γ}
    (h : accept offered = .error f) :
    ¬ f.OfMatrix := by
  obtain ⟨cause, -, rfl⟩ := accept_eq_error.mp h
  exact Fault.not_ofMatrix_misread cause

private theorem notIntegers_of_readPositions {columns : Offer IndexArray}
    (h : readPositions (.columnsOfRow ordinal) columns = .error f) (hf : f.OfMatrix) :
    (∃ array, columns = .ok array ∧ ∀ js, array ≠ .integers js) ∧
      f.ordinal? = some (.whole ordinal) := by
  obtain haccept | ⟨array, haccept, hread⟩ := bind_eq_error.mp h
  · exact absurd hf (not_ofMatrix_of_accept haccept)
  obtain rfl := accept_eq_ok.mp haccept
  cases array with
  | integers js => cases hread
  | notIntegers | shaped =>
      cases hread
      exact ⟨⟨_, rfl, nofun⟩, rfl⟩

private theorem checkedRow_integers (js : List Int64) (vs : List (Extended α)) :
    checkedRow numColumns ordinal (.ok ⟨.ok (.integers js), .ok vs⟩) =
      match js.find? fun j => decide (j < 0) || decide ((numColumns : ℤ) ≤ j.toInt),
        Runs.leastRepeated? (js.map (·.toInt)), vs.mapM (·.finite?) with
      | some j, _, _ => .error (.columnOutside ordinal j.toInt numColumns)
      | none, some j, _ => .error (.columnRepeated ordinal j)
      | none, none, none => .error (.entryNotFinite ordinal)
      | none, none, some xs => .ok ((js.map (·.toInt.toNat)).zip xs) := by
  simp only [checkedRow, accept, readPositions, IndexArray.read, bind, Except.bind]
  cases js.find? fun j => decide (j < 0) || decide ((numColumns : ℤ) ≤ j.toInt) with
  | some j => rfl
  | none =>
      cases Runs.leastRepeated? (js.map (·.toInt)) with
      | some j => rfl
      | none => cases vs.mapM (·.finite?) <;> rfl

private theorem rowDefect_of_checkedRow (h : checkedRow numColumns ordinal offer = .error f)
    (hf : f.OfMatrix) : RowDefect numColumns offer ∧ f.ordinal? = some (.whole ordinal) := by
  obtain haccept | ⟨⟨columns, values⟩, haccept, hrest⟩ := bind_eq_error.mp h
  · exact absurd hf (not_ofMatrix_of_accept haccept)
  obtain rfl := accept_eq_ok.mp haccept
  obtain hread | ⟨js, hread, hrest⟩ := bind_eq_error.mp hrest
  · obtain ⟨⟨array, rfl, hne⟩, hordinal⟩ := notIntegers_of_readPositions hread hf
    exact ⟨.notIntegers hne, hordinal⟩
  obtain rfl : columns = .ok (.integers js) := readPositions_eq_ok.mp hread
  obtain haccept | ⟨vs, haccept, -⟩ := bind_eq_error.mp hrest
  · exact absurd hf (not_ofMatrix_of_accept haccept)
  obtain rfl : values = .ok vs := accept_eq_ok.mp haccept
  rw [checkedRow_integers] at h
  split at h
  · next j hj =>
    cases h
    have hout := List.find?_some hj
    rw [Bool.or_eq_true, decide_eq_true_eq, decide_eq_true_eq, Int64.lt_iff_toInt_lt,
      Int64.toInt_zero] at hout
    exact ⟨.outside (List.mem_of_find?_eq_some hj) hout, rfl⟩
  · next j _ hj =>
    cases h
    refine ⟨.repeated fun hnodup => ?_, rfl⟩
    rw [Runs.leastRepeated?_eq_none.mpr (hnodup.map fun _ _ => Int64.toInt_inj.mp)] at hj
    cases hj
  · next _ _ hnone =>
    cases h
    obtain ⟨v, hv, hne⟩ := exists_of_mapM_finite?_eq_none hnone
    exact ⟨.notFinite hv hne, rfl⟩
  · cases h

private theorem checkedRows_eq_error {lists : List (Offer (RowEntries α))}
    (h : checkedRows numColumns first lists = .error f) :
    ∃ k offer, lists[k]? = some offer ∧ checkedRow numColumns (first + k) offer = .error f ∧
      ∀ j < k, ∀ earlier, lists[j]? = some earlier → ∃ run, Fits numColumns earlier run := by
  induction lists generalizing first with
  | nil => cases h
  | cons offer lists ih =>
      obtain h | ⟨run, hrun, h⟩ := bind_eq_error.mp h
      · exact ⟨0, offer, rfl, h, fun j hj => absurd hj (Nat.not_lt_zero j)⟩
      obtain h | ⟨runs, -, h⟩ := bind_eq_error.mp h
      · obtain ⟨k, later, hk, hlater, hearlier⟩ := ih h
        refine ⟨k + 1, later, hk, ?_, ?_⟩
        · rwa [Nat.add_assoc, Nat.add_comm 1 k] at hlater
        · intro j hj earlier hget
          cases j with
          | zero =>
              cases hget
              exact ⟨run, checkedRow_eq_ok.mp hrun⟩
          | succ j => exact hearlier j (Nat.lt_of_succ_lt_succ hj) earlier hget
      · cases h

private theorem appendRows_eq_error {m : SparseMatrix α}
    {rows : Offer (List (Offer (RowEntries α)))} (h : (appendRows rows m).answer = .error f) :
    accept rows = .error f ∨
      ∃ lists, rows = .ok lists ∧ checkedRows m.numColumns m.numRows lists = .error f := by
  have hfails : Action.Fails (appendRows rows) m _ f := ⟨rfl, h⟩
  simp only [appendRows, Action.fails_get_bind, Action.fails_lift_bind] at hfails
  obtain ⟨-, haccept⟩ | ⟨lists, haccept, ⟨-, hchecked⟩ | ⟨prepared, -, hstore⟩⟩ := hfails
  · exact Or.inl haccept
  · exact Or.inr ⟨lists, accept_eq_ok.mp haccept, hchecked⟩
  · refine absurd hstore (Action.Sure.not_fails ?_ _ _ f)
    exact (Action.sure_forEach fun _ => Action.sure_modify _).bind fun _ => Action.sure_pure _

/-- The ordinal of a refusal is that of the first entry list with a defect. -/
theorem appendRows_blames {m : SparseMatrix α} {rows : Offer (List (Offer (RowEntries α)))}
    (h : (appendRows rows m).answer = .error f) (hf : f.OfMatrix) :
    ∃ lists k, rows = .ok lists ∧ f.ordinal? = some (.whole (m.numRows + k : ℕ)) ∧
      IsLeast {k | ∃ offer, lists[k]? = some offer ∧ RowDefect m.numColumns offer} k := by
  obtain haccept | ⟨lists, hlists, hchecked⟩ := appendRows_eq_error h
  · exact absurd hf (not_ofMatrix_of_accept haccept)
  obtain ⟨k, offer, hk, hrow, hearlier⟩ := checkedRows_eq_error hchecked
  obtain ⟨hdefect, hordinal⟩ := rowDefect_of_checkedRow hrow hf
  refine ⟨lists, k, hlists, hordinal, ⟨offer, hk, hdefect⟩, ?_⟩
  rintro j ⟨earlier, hj, hdefect⟩
  by_contra hlt
  obtain ⟨run, hfits⟩ := hearlier j (not_le.mp hlt) earlier hj
  exact hfits.not_rowDefect hdefect

end

/-- What is blamed where a matrix is built or grows. Columns are refused for a defect that no
earlier check has ruled out, and the ordinal is that of the first column with the defect. Rows are
refused by the ordinal of the first one with any defect. -/
theorem refusals_blame_first [Scalar α] (m : SparseMatrix α) {starts rows : Offer IndexArray}
    (hsmall : SmallStarts starts) (values : Offer (ValueArray α)) :
    (∀ numRows : Offer (Option (Ordinal α)), RefusesFirst 0
      (fun l => OffersLayout l starts rows values ∧
        ∃ given, numRows = .ok given ∧ rowCount l.rows given = .ok l.numRows)
      (build starts rows values numRows)) ∧
    RefusesFirst m.numColumns
      (fun l => OffersLayout l starts rows values ∧ l.numRows = .whole m.numRows)
      (appendColumns starts rows values m).answer ∧
    ∀ (offered : Offer (List (Offer (RowEntries α)))) (f : Fault α),
      (appendRows offered m).answer = .error f → f.OfMatrix →
      ∃ lists k, offered = .ok lists ∧ f.ordinal? = some (.whole (m.numRows + k : ℕ)) ∧
        IsLeast {k | ∃ offer, lists[k]? = some offer ∧ RowDefect m.numColumns offer} k :=
  ⟨build_refusesFirst hsmall values, appendColumns_refusesFirst m hsmall values,
    fun _ _ => appendRows_blames⟩

/-- Of two new columns the second lists a row twice, and of two new rows the second has a column
that is not there. -/
theorem refusals_blame_first_sample :
    let m : SparseMatrix ℚ := blank 3 2
    let starts : Offer IndexArray := .ok (.integers [0, 0, 2])
    let rows : Offer IndexArray := .ok (.integers [1, 1])
    let values : Offer (ValueArray ℚ) := .ok (.numbers [.finite 1, .finite 1])
    let lists : List (Offer (RowEntries ℚ)) :=
      [.ok ⟨.ok (.integers [0]), .ok [.finite 1]⟩, .ok ⟨.ok (.integers [5]), .ok [.finite 1]⟩]
    (∃ f l, (appendColumns starts rows values m).answer = .error f ∧
        f.ordinal? = some (.whole 3) ∧ OffersLayout l starts rows values ∧
        IsLeast (l.Defective .repeated) 1) ∧
      ∃ f, (appendRows (.ok lists) m).answer = .error f ∧ f.ordinal? = some (.whole 4) ∧
        IsLeast {k | ∃ offer, lists[k]? = some offer ∧ RowDefect 2 offer} 1 := by
  intro m starts rows values lists
  obtain ⟨-, hcolumns, hrows⟩ := @refusals_blame_first ℚ _ m starts rows
    (smallStarts_integers.mpr (by simp)) values
  constructor
  · obtain ⟨l, ⟨hoffers, -⟩, -, hblames⟩ := hcolumns.blames (.rowRepeated 3 1) .repeated rfl rfl
    obtain ⟨c, hordinal, hleast⟩ := hblames.ordinal
    have hc : ((3 : ℕ) : ℤ) = (2 + c : ℕ) := Ordinal.whole.inj (Option.some.inj hordinal)
    obtain rfl : c = 1 := by omega
    exact ⟨_, l, rfl, rfl, hoffers, hleast⟩
  · obtain ⟨_, k, hlists, hordinal, hleast⟩ :=
      hrows (.ok lists) (.columnOutside 4 5 2) rfl (Or.inr rfl)
    cases hlists
    have hk : ((4 : ℕ) : ℤ) = (3 + k : ℕ) := Ordinal.whole.inj (Option.some.inj hordinal)
    obtain rfl : k = 1 := by omega
    exact ⟨_, rfl, rfl, hleast⟩

end SparseMatrix

end IncrementalLP
