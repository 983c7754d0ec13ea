import IncrementalLP.Proofs.Matrix.Conversions
import IncrementalLP.Proofs.Number.Exact
/-!
# Building matrices

Which compressed columns a matrix is made of. Starts are compared through differences of words, so
that a decrease is seen unless the difference wraps around; apart from that just the layouts of
matrices are accepted, and every other one is called malformed.
-/
namespace IncrementalLP

namespace Runs

private theorem sum_differences {a : ℕ} {starts : List ℕ} (h : (a :: starts).IsChain (· ≤ ·)) :
    a + (differences (a :: starts)).sum = (a :: starts).getLastD 0 := by
  induction starts generalizing a with
  | nil => rfl
  | cons b starts ih =>
      obtain ⟨hle, hchain⟩ := List.isChain_cons_cons.mp h
      rw [differences, List.sum_cons, ← Nat.add_assoc, Nat.add_sub_cancel' hle, ih hchain]
      rfl

end Runs

namespace SparseMatrix

variable {α : Type}

/-- What rows stay below: the row count if one is stated, else one more than the greatest row. -/
def rowLimit (rows : List Int64) : Option ℕ → ℤ
  | some n => n
  | none => ((rows.map (·.toInt)).max?.map (· + 1)).getD 0

/-- The compressed columns of a matrix. The starts begin at zero and ascend as numbers, the last of
them counts the rows and the values, the values are finite, and the rows of each column, which are
those between its start and the next, are there and are listed once. -/
structure IsLayout (starts rows : List Int64) (values : List (Extended α)) (stated : Option ℕ) :
    Prop where
  begins : starts.head? = some 0
  ascends : (starts.map (·.toInt)).IsChain (· ≤ ·)
  rows_length : (rows.length : ℤ) = (starts.getLastD 0).toInt
  values_length : (values.length : ℤ) = (starts.getLastD 0).toInt
  finite : ∀ v ∈ values, ∃ x, v = .finite x
  inside : ∀ r ∈ rows, 0 ≤ r.toInt ∧ r.toInt < rowLimit rows stated
  once : ∀ column ∈ Runs.slices (starts.map (·.toInt.toNat)) rows, column.Nodup

/-- Neighbours decrease, but by so much that their difference wraps around and is not negative. -/
def HidesDecrease (starts : List Int64) : Prop :=
  ∃ (k : ℕ) (a b : Int64), starts[k]? = some a ∧ starts[k + 1]? = some b ∧
    b.toInt < a.toInt ∧ 0 ≤ (b - a).toInt

/-- A matrix from arrays of numbers, with a row count or without one. -/
def buildPlain [Scalar α] (starts rows : List Int64) (values : List (Extended α))
    (stated : Option ℕ) : Except (Fault α) (SparseMatrix α) :=
  build (.ok (.integers starts)) (.ok (.integers rows)) (.ok (.numbers values))
    (.ok (stated.map fun n : ℕ => .whole n))

variable {starts rows : List Int64} {values : List (Extended α)} {xs : List α} {stated : Option ℕ}

private theorem ascends_or_hidesDecrease (h : starts.IsChain fun a b => 0 ≤ (b - a).toInt) :
    (starts.map (·.toInt)).IsChain (· ≤ ·) ∨ HidesDecrease starts := by
  rw [or_iff_not_imp_right]
  intro hshown
  rw [List.isChain_map, isChain_iff_getElem?]
  intro k a b ha hb
  by_contra hlt
  exact hshown ⟨k, a, b, ha, hb, not_le.mp hlt, isChain_iff_getElem?.mp h k a b ha hb⟩

private theorem steps_of_ascends (hbegins : starts.head? = some 0)
    (hascends : (starts.map (·.toInt)).IsChain (· ≤ ·)) :
    starts.IsChain fun a b => 0 ≤ (b - a).toInt :=
  let ⟨hwords, hchain⟩ := words_of_ascends hbegins hascends
  hwords.isChain hchain

private theorem sum_lengths (hbegins : starts.head? = some 0)
    (hascends : (starts.map (·.toInt)).IsChain (· ≤ ·)) :
    ((Runs.lengths starts).sum : ℤ) = (starts.getLastD 0).toInt := by
  obtain ⟨hwords, hchain⟩ := words_of_ascends hbegins hascends
  rw [hwords.lengths hchain, hwords.getLastD_eq]
  obtain ⟨rest, rfl⟩ := List.head?_eq_some_iff.mp hbegins
  exact congrArg _ ((Nat.zero_add _).symm.trans (Runs.sum_differences hchain))

theorem cut_eq_slices {ε : Type} (hbegins : starts.head? = some 0)
    (hascends : (starts.map (·.toInt)).IsChain (· ≤ ·)) (l : List ε) :
    Runs.cut (Runs.lengths starts) l = Runs.slices (starts.map (·.toInt.toNat)) l := by
  obtain ⟨hwords, hchain⟩ := words_of_ascends hbegins hascends
  obtain ⟨rest, rfl⟩ := List.head?_eq_some_iff.mp hbegins
  rw [hwords.lengths hchain]
  exact Runs.cut_differences hchain l

section

variable (hbegins : starts.head? = some 0) (hascends : (starts.map (·.toInt)).IsChain (· ≤ ·))
  (hrows : (rows.length : ℤ) = (starts.getLastD 0).toInt)

include hbegins hascends hrows

theorem sum_lengths_eq : (Runs.lengths starts).sum = rows.length := by
  have hsum := sum_lengths hbegins hascends
  omega

theorem length_zip_eq_sum (hvalues : (xs.length : ℤ) = (starts.getLastD 0).toInt) :
    (rows.zip xs).length = (Runs.lengths starts).sum := by
  rw [sum_lengths_eq hbegins hascends hrows, List.length_zip]
  omega

theorem flatten_cutRuns (hvalues : (xs.length : ℤ) = (starts.getLastD 0).toInt) :
    (cutRuns starts rows xs).flatten = rows.zip xs := by
  rw [cutRuns, Runs.flatten_cut, ← length_zip_eq_sum hbegins hascends hrows hvalues,
    List.take_length]

end

variable [Scalar α]

private theorem rowCount_eq (rows : List Int64) (stated : Option ℕ) :
    rowCount rows (stated.map fun n : ℕ => (.whole n : Ordinal α)) =
      .ok (.whole (rowLimit rows stated)) := by
  cases stated with
  | none => rfl
  | some n =>
      rw [Option.map_some, rowCount, Ordinal.isNegative, decide_eq_false (by omega)]
      rfl

private theorem buildPlain_eq_ok {m : SparseMatrix α} :
    buildPlain starts rows values stated = .ok m ↔
      ∃ xs columns, values = xs.map .finite ∧
        checkedRuns 0 (.whole (rowLimit rows stated) : Ordinal α) starts rows xs = .ok columns ∧
        m = ⟨(rowLimit rows stated).toNat, columns, []⟩ := by
  rw [buildPlain, build_eq_ok]
  constructor
  · rintro ⟨_, _, xs, _, _, columns, _, ⟨⟩, ⟨⟩, hvalues, ⟨⟩, hcount, hchecked, hn, rfl⟩
    rw [rowCount_eq] at hcount
    cases hcount
    cases hn
    exact ⟨xs, columns, ValueArray.numbers.inj (Except.ok.inj hvalues), hchecked, rfl⟩
  · rintro ⟨xs, columns, rfl, hchecked, rfl⟩
    exact ⟨starts, rows, xs, _, _, columns, _, rfl, rfl, rfl, rfl, rowCount_eq rows stated,
      hchecked, rfl, rfl⟩

/-- The columns that are stored of a layout whose starts ascend. -/
theorem checkedRuns_of_ascends {limit : ℤ} {columns : Runs α} (hbegins : starts.head? = some 0)
    (hascends : (starts.map (·.toInt)).IsChain (· ≤ ·)) :
    checkedRuns 0 (.whole limit : Ordinal α) starts rows xs = .ok columns ↔
      (rows.length : ℤ) = (starts.getLastD 0).toInt ∧
        (xs.length : ℤ) = (starts.getLastD 0).toInt ∧
        (∀ r ∈ rows, 0 ≤ r.toInt ∧ r.toInt < limit) ∧
        (∀ column ∈ Runs.slices (starts.map (·.toInt.toNat)) rows, column.Nodup) ∧
        (cutRuns starts rows xs).map storedRun = columns := by
  rw [checkedRuns_eq_ok, and_iff_right ⟨hbegins, steps_of_ascends hbegins hascends⟩, and_assoc,
    cut_eq_slices hbegins hascends]
  refine and_congr_right fun hrows => and_congr_right fun hvalues => ?_
  rw [and_iff_right (Or.inr (sum_lengths_eq hbegins hascends hrows)), and_assoc]
  simp only [Ordinal.atMost, decide_eq_false_iff_not, not_le]

/-- The columns of a layout are stored as they are. -/
theorem IsLayout.buildPlain_eq (h : IsLayout starts rows values stated) :
    ∃ xs, values = xs.map .finite ∧ buildPlain starts rows values stated =
      .ok ⟨(rowLimit rows stated).toNat, Runs.slices (starts.map (·.toInt.toNat))
        ((rows.map (·.toInt.toNat)).zip xs), []⟩ := by
  obtain ⟨xs, rfl⟩ := exists_eq_map_finite h.finite
  refine ⟨xs, rfl, buildPlain_eq_ok.mpr ⟨xs, _, rfl, ?_, rfl⟩⟩
  rw [checkedRuns_of_ascends h.begins h.ascends, cutRuns_eq_slices h.begins h.ascends,
    List.zip_map_left, Runs.slices_map]
  refine ⟨h.rows_length, ?_, h.inside, h.once, rfl⟩
  rw [← h.values_length, List.length_map]

private theorem isLayout_or_hidesDecrease {m : SparseMatrix α}
    (h : buildPlain starts rows values stated = .ok m) :
    IsLayout starts rows values stated ∨ HidesDecrease starts ∧ rows = [] := by
  obtain ⟨xs, columns, rfl, hchecked, -⟩ := buildPlain_eq_ok.mp h
  obtain ⟨⟨hbegins, hsteps⟩, -⟩ := checkedRuns_eq_ok.mp hchecked
  have hascends : (starts.map (·.toInt)).IsChain (· ≤ ·) ∨ HidesDecrease starts ∧ rows = [] := by
    by_cases hrows : rows = []
    · exact (ascends_or_hidesDecrease hsteps).imp_right fun hhides => ⟨hhides, hrows⟩
    · exact Or.inl (ascends_of_entries hrows hchecked)
  refine hascends.imp_left fun hascends => ?_
  obtain ⟨hrows, hvalues, hinside, honce, -⟩ :=
    (checkedRuns_of_ascends hbegins hascends).mp hchecked
  exact {
    begins := hbegins
    ascends := hascends
    rows_length := hrows
    values_length := by rw [List.length_map, hvalues]
    finite := List.forall_mem_map.mpr fun x _ => ⟨x, rfl⟩
    inside := hinside
    once := honce }

section

variable {first : ℕ} {limit : Ordinal α} {owners : List ℕ} {f : Fault α}

omit [Scalar α] in
theorem finiteValues_eq_error {k : ℕ} (h : finiteValues k values = .error f) :
    ∃ j v, f = .valueNotFinite j v := by
  induction values generalizing k with
  | nil => cases h
  | cons v values ih =>
      rw [finiteValues] at h
      split at h
      · next x hx =>
        cases hrest : (finiteValues (k + 1) values : Except (Fault α) (List α)) with
        | ok rest =>
            rw [hrest] at h
            cases h
        | error g =>
            rw [hrest] at h
            cases h
            exact ih hrest
      · cases h
        exact ⟨k, v, rfl⟩

omit [Scalar α] in
private theorem family_of_finiteValues {k : ℕ} (h : finiteValues k values = .error f) :
    f.family = .malformedMatrix := by
  obtain ⟨j, v, rfl⟩ := finiteValues_eq_error h
  rfl

omit [Scalar α] in
private theorem family_of_checkStarts (h : checkStarts first starts = .error f) :
    f.family = .malformedMatrix := by
  cases starts with
  | nil =>
      cases h
      rfl
  | cons s starts =>
      rw [checkStarts] at h
      split at h
      · cases h
        rfl
      · split at h <;> cases h
        rfl

omit [Scalar α] in
private theorem family_of_checkCounts (h : checkCounts starts rows xs = .error f) :
    f.family = .malformedMatrix := by
  unfold checkCounts at h
  simp only at h
  split at h <;> cases h
  rfl

private theorem family_of_checkRange (h : checkRange first limit owners rows = .error f) :
    f.family = .malformedMatrix := by
  rw [checkRange] at h
  split at h <;> cases h
  rfl

omit [Scalar α] in
private theorem family_of_checkRepeats (h : checkRepeats first owners rows = .error f) :
    f.family = .malformedMatrix := by
  rw [checkRepeats] at h
  split at h <;> cases h
  rfl

theorem checkRows_eq_error :
    checkRows first limit starts rows = .error f ↔
      rows ≠ [] ∧ ((Runs.lengths starts).sum ≠ rows.length ∧ f = .lengthsOverflow ∨
        (Runs.lengths starts).sum = rows.length ∧
          (checkRange first limit (Runs.owners 0 (Runs.lengths starts)) rows = .error f ∨
            checkRange first limit (Runs.owners 0 (Runs.lengths starts)) rows = .ok () ∧
              checkRepeats first (Runs.owners 0 (Runs.lengths starts)) rows = .error f)) := by
  unfold checkRows
  split
  · next hempty => exact iff_of_false nofun fun h => h.1 (List.isEmpty_iff.mp hempty)
  · next hne =>
    rw [and_iff_right (show rows ≠ [] by simpa using hne)]
    rw [ownersOf_eq]
    split
    · next hsum =>
      rw [or_iff_right fun h => h.1 hsum, and_iff_right hsum]
      show (do checkRange _ _ _ _; checkRepeats _ _ _) = _ ↔ _
      refine bind_eq_error.trans (or_congr_right ?_)
      exact ⟨fun ⟨_, hrange, hrepeats⟩ => ⟨hrange, hrepeats⟩, fun h => ⟨(), h⟩⟩
    · next hsum =>
      rw [or_iff_left fun h => hsum h.1, and_iff_right hsum]
      exact ⟨fun h => (Except.error.inj h).symm, fun h => h ▸ rfl⟩

private theorem family_of_checkedRuns (h : checkedRuns first limit starts rows xs = .error f) :
    f.family = .malformedMatrix ∨ f = .lengthsOverflow ∧ HidesDecrease starts ∧ rows ≠ [] := by
  obtain h | ⟨_, hstarts, h⟩ := bind_eq_error.mp h
  · exact Or.inl (family_of_checkStarts h)
  obtain h | ⟨_, hcounts, h⟩ := bind_eq_error.mp h
  · exact Or.inl (family_of_checkCounts h)
  obtain h | ⟨_, -, h⟩ := bind_eq_error.mp h
  · obtain ⟨hrows, ⟨hsum, rfl⟩ | ⟨-, h | ⟨-, h⟩⟩⟩ := checkRows_eq_error.mp h
    · obtain ⟨hbegins, hsteps⟩ := checkStarts_eq_ok.mp hstarts
      refine Or.inr ⟨rfl, (ascends_or_hidesDecrease hsteps).resolve_left fun hascends => ?_, hrows⟩
      exact hsum (sum_lengths_eq hbegins hascends (checkCounts_eq_ok.mp hcounts).1)
    · exact Or.inl (family_of_checkRange h)
    · exact Or.inl (family_of_checkRepeats h)
  · cases h

end

private theorem family_of_buildPlain {f : Fault α}
    (h : buildPlain starts rows values stated = .error f) :
    f.family = .malformedMatrix ∨ f = .lengthsOverflow ∧ HidesDecrease starts ∧ rows ≠ [] := by
  have hvalues : (readValues (.ok (.numbers values)) : Except (Fault α) (List α)) =
      finiteValues 0 values := rfl
  obtain h | ⟨_, hs, h⟩ := bind_eq_error.mp h
  · cases h
  cases hs
  obtain h | ⟨_, hr, h⟩ := bind_eq_error.mp h
  · cases h
  cases hr
  obtain h | ⟨xs, -, h⟩ := bind_eq_error.mp h
  · exact Or.inl (family_of_finiteValues (hvalues.symm.trans h))
  obtain h | ⟨_, hgiven, h⟩ := bind_eq_error.mp h
  · cases h
  cases hgiven
  obtain h | ⟨count, hcount, h⟩ := bind_eq_error.mp h
  · rw [rowCount_eq] at h
    cases h
  rw [rowCount_eq] at hcount
  cases hcount
  obtain h | ⟨columns, -, h⟩ := bind_eq_error.mp h
  · exact family_of_checkedRuns h
  · cases h

/-- Building succeeds for every layout, and then stores its columns; it succeeds for nothing else,
unless a decrease of the starts is hidden and there are no entries. Where it fails, it calls the
matrix malformed, unless a decrease is hidden and there are entries, which it then lays out beyond
the memory. -/
theorem buildPlain_verdict (starts rows : List Int64) (values : List (Extended α))
    (stated : Option ℕ) :
    (IsLayout starts rows values stated →
      ∃ xs, values = xs.map .finite ∧ buildPlain starts rows values stated =
        .ok ⟨(rowLimit rows stated).toNat, Runs.slices (starts.map (·.toInt.toNat))
          ((rows.map (·.toInt.toNat)).zip xs), []⟩) ∧
      (∀ m, buildPlain starts rows values stated = .ok m →
        IsLayout starts rows values stated ∨ HidesDecrease starts ∧ rows = []) ∧
      ∀ f, buildPlain starts rows values stated = .error f →
        f.family = .malformedMatrix ∨ f = .lengthsOverflow ∧ HidesDecrease starts ∧ rows ≠ [] :=
  ⟨IsLayout.buildPlain_eq, fun _ => isLayout_or_hidesDecrease, fun _ => family_of_buildPlain⟩

/-- Four steps of a quarter of all words lead from zero back to zero, through negative starts. -/
theorem buildPlain_accepts_decrease :
    let starts : List Int64 :=
      [0, 4611686018427387904, -9223372036854775808, -4611686018427387904, 0]
    (∃ m : SparseMatrix ℚ, buildPlain starts [] [] (some 0) = .ok m) ∧
      ¬ IsLayout starts [] ([] : List (Extended ℚ)) (some 0) := by
  intro starts
  have hchecked : checkedRuns 0 (.whole 0 : Ordinal ℚ) starts [] [] = .ok _ :=
    checkedRuns_eq_ok.mpr ⟨by decide +kernel, by decide +kernel,
      ⟨Or.inl rfl, nofun, by decide +kernel⟩, rfl⟩
  have hdecreases : ¬ (starts.map (·.toInt)).IsChain (· ≤ ·) := by decide +kernel
  exact ⟨⟨_, buildPlain_eq_ok.mpr ⟨[], _, rfl, hchecked, rfl⟩⟩, fun h => hdecreases h.ascends⟩

end SparseMatrix

end IncrementalLP
