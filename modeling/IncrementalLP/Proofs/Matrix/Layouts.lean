import IncrementalLP.Proofs.Matrix.Calls
import IncrementalLP.Proofs.Matrix.Recovery
/-!
# Layouts

Which rows and column layouts pass the checks, and what is stored of them. A column layout that
passes is the flat form of the runs that are stored, as long as its starts are far from the limits
of their words.
-/
namespace IncrementalLP

@[simp] theorem Extended.finite?_eq_some {α : Type} {v : Extended α} {x : α} :
    v.finite? = some x ↔ v = .finite x := by
  cases v <;> simp [Extended.finite?]

private theorem mapM_finite?_eq_some {α : Type} {l : List (Extended α)} {xs : List α} :
    l.mapM (·.finite?) = some xs ↔ l = xs.map .finite := by
  induction l generalizing xs with
  | nil => cases xs <;> simp
  | cons v l ih =>
      simp only [List.mapM_cons, Option.bind_eq_bind, Option.bind_eq_some_iff,
        Extended.finite?_eq_some, Option.pure_def, Option.some.injEq]
      constructor
      · rintro ⟨x, rfl, xs', hxs, rfl⟩
        rw [ih.mp hxs, List.map_cons]
      · intro h
        cases xs with
        | nil => cases h
        | cons x xs =>
            obtain ⟨rfl, hl⟩ := List.cons.inj h
            exact ⟨x, rfl, xs, ih.mpr hl, rfl⟩

theorem exists_eq_map_finite {α : Type} {l : List (Extended α)}
    (h : ∀ v ∈ l, ∃ x, v = .finite x) : ∃ xs : List α, l = xs.map .finite := by
  have hrange : l ∈ Set.range (List.map Extended.finite) := by
    rw [Set.range_list_map]
    exact fun v hv => (h v hv).imp fun _ => Eq.symm
  exact hrange.imp fun _ => Eq.symm

theorem exists_of_mapM_finite?_eq_none {α : Type} {l : List (Extended α)}
    (h : l.mapM (·.finite?) = none) : ∃ v ∈ l, ∀ x, v ≠ .finite x := by
  by_contra hall
  push Not at hall
  obtain ⟨xs, hxs⟩ := exists_eq_map_finite hall
  rw [mapM_finite?_eq_some.mpr hxs] at h
  cases h

private theorem finiteValues_eq_ok {α : Type} {k : ℕ} {l : List (Extended α)} {xs : List α} :
    (finiteValues k l : Except (Fault α) (List α)) = .ok xs ↔ l = xs.map .finite := by
  induction l generalizing k xs with
  | nil => cases xs <;> simp [finiteValues]
  | cons v l ih =>
      cases v with
      | finite x =>
          have hmap : (finiteValues k (.finite x :: l) : Except (Fault α) (List α)) =
              (finiteValues (k + 1) l).map (x :: ·) := rfl
          rw [hmap]
          constructor
          · intro h
            cases hrest : (finiteValues (k + 1) l : Except (Fault α) (List α)) with
            | error f => simp [hrest, Except.map] at h
            | ok rest =>
                simp only [hrest, Except.map, Except.ok.injEq] at h
                rw [← h, List.map_cons, ih.mp hrest]
          · intro h
            cases xs with
            | nil => cases h
            | cons y xs =>
                obtain ⟨hxy, h⟩ := List.cons.inj h
                rw [ih.mpr h, Extended.finite.inj hxy]
                rfl
      | _ => refine iff_of_false nofun ?_
             cases xs <;> simp

@[simp] theorem readValues_eq_ok {α : Type} {offer : Offer (ValueArray α)} {xs : List α} :
    readValues offer = .ok xs ↔ offer = .ok (.numbers (xs.map .finite)) := by
  simp only [readValues, bind_eq_ok, accept_eq_ok]
  constructor
  · rintro ⟨given, rfl, h⟩
    cases given with
    | numbers values => rw [finiteValues_eq_ok.mp h]
    | shaped lengths => cases h
  · rintro rfl
    exact ⟨_, rfl, finiteValues_eq_ok.mpr rfl⟩

namespace Runs

@[simp] theorem length_positions {β : Type} (runs : Runs β) : runs.positions.length = runs.size :=
  List.length_map _

@[simp] theorem length_values {β : Type} (runs : Runs β) : runs.values.length = runs.size :=
  List.length_map _

theorem mem_positions {β : Type} {runs : Runs β} {run : List (ℕ × β)} {e : ℕ × β}
    (hrun : run ∈ runs) (he : e ∈ run) : e.1 ∈ runs.positions :=
  List.mem_map_of_mem (List.mem_flatten.mpr ⟨run, hrun, he⟩)

/-- The differences of neighbours. -/
def differences : List ℕ → List ℕ
  | a :: b :: rest => (b - a) :: differences (b :: rest)
  | _ => []

/-- The slices of a list between consecutive starts. -/
def slices : List ℕ → List ε → List (List ε)
  | a :: b :: rest, xs => (xs.drop a).take (b - a) :: slices (b :: rest) xs
  | _, _ => []

theorem slices_map {γ : Type} (f : ε → γ) (starts : List ℕ) (xs : List ε) :
    slices starts (xs.map f) = (slices starts xs).map (·.map f) := by
  induction starts with
  | nil => rfl
  | cons a starts ih =>
      cases starts with
      | nil => rfl
      | cons b starts => simp only [slices, List.map_cons, ih, List.map_take, List.map_drop]

theorem cut_map {γ : Type} (f : ε → γ) (lengths : List ℕ) (xs : List ε) :
    cut lengths (xs.map f) = (cut lengths xs).map (·.map f) := by
  induction lengths generalizing xs with
  | nil => rfl
  | cons n lengths ih =>
      simp only [cut, List.map_cons, List.map_take, ← List.map_drop, ih]

private theorem forall_mem_cut {lengths : List ℕ} {xs : List ε}
    (hsum : xs = [] ∨ lengths.sum = xs.length) {p : ε → Prop} :
    (∀ run ∈ cut lengths xs, ∀ x ∈ run, p x) ↔ ∀ x ∈ xs, p x := by
  rw [← List.forall_mem_flatten, flatten_cut]
  obtain rfl | hsum := hsum
  · rw [List.take_nil]
  · rw [hsum, List.take_length]

/-- Starts that do not decrease cut a list into the slices between them. -/
theorem cut_differences {a : ℕ} {starts : List ℕ} (h : (a :: starts).IsChain (· ≤ ·))
    (xs : List ε) : cut (differences (a :: starts)) (xs.drop a) = slices (a :: starts) xs := by
  induction starts generalizing a with
  | nil => rfl
  | cons b starts ih =>
      obtain ⟨hle, hchain⟩ := List.isChain_cons_cons.mp h
      rw [differences, cut, slices, List.drop_drop, Nat.add_sub_cancel' hle, ih hchain]

theorem mem_of_mem_cut {lengths : List ℕ} {xs run : List ε} {e : ε} (hrun : run ∈ cut lengths xs)
    (he : e ∈ run) : e ∈ xs := by
  induction lengths generalizing xs with
  | nil => cases hrun
  | cons n lengths ih =>
      rcases List.mem_cons.mp hrun with rfl | hrun
      · exact List.mem_of_mem_take he
      · exact List.mem_of_mem_drop (ih hrun)

variable {β : Type}

private theorem differences_startsFrom (n : ℕ) (runs : Runs β) :
    differences (startsFrom n runs) = runs.map List.length := by
  induction runs generalizing n with
  | nil => rfl
  | cons run runs ih =>
      have hrest := ih (n + run.length)
      cases runs with
      | nil => simp [startsFrom, differences]
      | cons next runs =>
          rw [startsFrom, startsFrom] at *
          rw [differences, hrest, Nat.add_sub_cancel_left]
          rfl

private theorem cut_flatten (runs : List (List ε)) :
    cut (runs.map List.length) runs.flatten = runs := by
  induction runs with
  | nil => rfl
  | cons run runs ih =>
      rw [List.map_cons, List.flatten_cons, cut, List.take_left, List.drop_left, ih]

theorem isChain_startsFrom (n : ℕ) (runs : Runs β) : (startsFrom n runs).IsChain (· ≤ ·) := by
  induction runs generalizing n with
  | nil => exact List.isChain_singleton n
  | cons run runs ih =>
      have hrest := ih (n + run.length)
      cases runs with
      | nil => simp [startsFrom]
      | cons next runs =>
          rw [startsFrom, startsFrom] at *
          exact List.isChain_cons_cons.mpr ⟨Nat.le_add_right _ _, hrest⟩

theorem getLastD_startsFrom (n k : ℕ) (runs : Runs β) :
    (startsFrom n runs).getLastD k = n + runs.size := by
  induction runs generalizing n with
  | nil => rfl
  | cons run runs ih =>
      have hrest := ih (n + run.length)
      cases runs with
      | nil => simp [startsFrom, size]
      | cons next runs =>
          rw [startsFrom] at hrest ⊢
          rw [startsFrom]
          simp only [List.getLastD_cons, size, List.flatten_cons, List.length_append] at hrest ⊢
          omega

theorem le_of_mem_startsFrom {n m : ℕ} {runs : Runs β} (h : m ∈ startsFrom n runs) :
    m ≤ n + runs.size := by
  induction runs generalizing n with
  | nil => exact (List.mem_singleton.mp h).le
  | cons run runs ih =>
      rcases List.mem_cons.mp h with rfl | h
      · exact Nat.le_add_right _ _
      · have := ih h
        simp only [size, List.flatten_cons, List.length_append] at this ⊢
        omega

@[simp] theorem length_startsFrom (n : ℕ) (runs : Runs β) :
    (startsFrom n runs).length = runs.length + 1 := by
  induction runs generalizing n with
  | nil => rfl
  | cons run runs ih => rw [startsFrom, List.length_cons, ih, List.length_cons]

/-- The difference of words that are far from their limits is that of the numbers they stand for. -/
theorem toInt_sub_eq {a b : Int64} (hle : -2 ^ 63 ≤ b.toInt - a.toInt)
    (hlt : b.toInt - a.toInt < 2 ^ 63) : (b - a).toInt = b.toInt - a.toInt := by
  rw [Int64.toInt_sub, Int.bmod_eq_of_le] <;> omega

theorem toInt_sub_neg_iff {a b : Int64} (ha : |a.toInt| < 2 ^ 62) (hb : |b.toInt| < 2 ^ 62) :
    (b - a).toInt < 0 ↔ b.toInt < a.toInt := by
  have hasmall := abs_lt.mp ha
  have hbsmall := abs_lt.mp hb
  rw [toInt_sub_eq (by omega) (by omega)]
  omega

private theorem sub_le_toInt_sub {a b : Int64} (h : 0 ≤ (b - a).toInt) :
    b.toInt - a.toInt ≤ (b - a).toInt ∧
      ((b - a).toInt = b.toInt - a.toInt → a.toInt ≤ b.toInt) := by
  have := Int64.toInt_lt a
  have := Int64.toInt_lt b
  have := Int64.le_toInt a
  have := Int64.le_toInt b
  rw [Int64.toInt_sub, Int.bmod_def] at h ⊢
  split at h <;> omega

private theorem sub_le_sum_lengths {a : Int64} {starts : List Int64}
    (h : (a :: starts).IsChain fun a b => 0 ≤ (b - a).toInt) :
    ((a :: starts).getLastD 0).toInt - a.toInt ≤ (lengths (a :: starts)).sum ∧
      (((lengths (a :: starts)).sum : ℤ) = ((a :: starts).getLastD 0).toInt - a.toInt →
        ((a :: starts).map (·.toInt)).IsChain (· ≤ ·)) := by
  induction starts generalizing a with
  | nil => exact ⟨by simp [lengths, steps], fun _ => List.isChain_singleton _⟩
  | cons b starts ih =>
      obtain ⟨hstep, hchain⟩ := List.isChain_cons_cons.mp h
      obtain ⟨hle, hascends⟩ := ih hchain
      obtain ⟨hstepLe, hstepAscends⟩ := sub_le_toInt_sub hstep
      have hsum : ((lengths (a :: b :: starts)).sum : ℤ) =
          (b - a).toInt + (lengths (b :: starts)).sum := by
        rw [← Int.toNat_of_nonneg hstep]
        exact Int.natCast_add _ _
      have hlast : (a :: b :: starts).getLastD 0 = (b :: starts).getLastD 0 := rfl
      rw [hlast, hsum]
      refine ⟨by omega, fun heq => ?_⟩
      exact List.isChain_cons_cons.mpr ⟨hstepAscends (by omega), hascends (by omega)⟩

/-- Words that stand for natural numbers. -/
def Words (words : List Int64) (numbers : List ℕ) : Prop :=
  words.map (·.toInt) = numbers.map fun n : ℕ => (n : ℤ)

private theorem Words.nonneg {words : List Int64} {numbers : List ℕ} (h : Words words numbers) :
    ∀ w ∈ words, 0 ≤ w.toInt := by
  intro w hw
  have hmem : w.toInt ∈ words.map (·.toInt) := List.mem_map_of_mem hw
  rw [h] at hmem
  obtain ⟨n, -, hn⟩ := List.mem_map.mp hmem
  rw [← hn]
  exact Int.natCast_nonneg n

private theorem Words.map_toNat {words : List Int64} {numbers : List ℕ} (h : Words words numbers) :
    words.map (·.toInt.toNat) = numbers := by
  have hmap := congrArg (List.map Int.toNat) h
  simpa [Function.comp_def] using hmap

theorem words_of_nonneg {words : List Int64} (h : ∀ w ∈ words, 0 ≤ w.toInt) :
    Words words (words.map (·.toInt.toNat)) := by
  rw [Words, List.map_map]
  exact List.map_congr_left fun w hw => (Int.toNat_of_nonneg (h w hw)).symm

theorem Words.length_eq {words : List Int64} {numbers : List ℕ} (h : Words words numbers) :
    words.length = numbers.length := by
  simpa using congrArg List.length h

private theorem Words.head?_eq {words : List Int64} {numbers : List ℕ}
    (h : Words words (0 :: numbers)) :
    words.head? = some 0 := by
  cases words with
  | nil => cases h
  | cons a words =>
      have ha : a.toInt = (0 : Int64).toInt := (List.cons.inj h).1
      rw [List.head?_cons, Int64.toInt_inj.mp ha]

theorem Words.getLastD_eq {words : List Int64} {numbers : List ℕ} (h : Words words numbers) :
    (words.getLastD 0).toInt = numbers.getLastD 0 := by
  have hlast := congrArg List.getLast? h
  rw [List.getLast?_map, List.getLast?_map] at hlast
  rw [List.getLastD_eq_getLast?, List.getLastD_eq_getLast?]
  cases hwords : words.getLast? <;> cases hnumbers : numbers.getLast? <;>
    simp_all

theorem Words.isChain {words : List Int64} {numbers : List ℕ} (h : Words words numbers)
    (hchain : numbers.IsChain (· ≤ ·)) : words.IsChain fun a b => 0 ≤ (b - a).toInt := by
  have hwords : words.IsChain fun a b => a.toInt ≤ b.toInt := by
    rw [← List.isChain_map (R := fun a b : ℤ => a ≤ b), h, List.isChain_map]
    exact hchain.imp fun a b hab => Int.ofNat_le.mpr hab
  refine (List.IsChain.iff_mem.mp hwords).imp fun a b hab => ?_
  obtain ⟨ha, hb, hle⟩ := hab
  have := h.nonneg a ha
  have := Int64.toInt_lt b
  rw [toInt_sub_eq (by omega) (by omega)]
  omega

theorem nodup_map_toNat {words : List Int64} (h : ∀ w ∈ words, 0 ≤ w.toInt) :
    (words.map (·.toInt.toNat)).Nodup ↔ (words.map (·.toInt)).Nodup := by
  rw [words_of_nonneg h, List.nodup_map_iff Nat.cast_injective]

theorem Words.lengths {words : List Int64} {numbers : List ℕ} (h : Words words numbers)
    (hchain : numbers.IsChain (· ≤ ·)) : lengths words = differences numbers := by
  induction words generalizing numbers with
  | nil =>
      cases numbers with
      | nil => rfl
      | cons n numbers => cases h
  | cons a words ih =>
      cases numbers with
      | nil => cases h
      | cons n numbers =>
          obtain ⟨ha, hrest⟩ := List.cons.inj h
          cases words with
          | nil =>
              cases numbers with
              | nil => rfl
              | cons m numbers => cases hrest
          | cons b words =>
              cases numbers with
              | nil => cases hrest
              | cons m numbers =>
                  obtain ⟨hle, hchain⟩ := List.isChain_cons_cons.mp hchain
                  have hb := (List.cons.inj hrest).1
                  have hbound := Int64.toInt_lt b
                  simp only at ha hb
                  have hstep : (b - a).toInt.toNat = m - n := by
                    rw [toInt_sub_eq (by omega) (by omega)]
                    omega
                  exact List.cons_eq_cons.mpr ⟨hstep, ih hrest hchain⟩

end Runs

namespace SparseMatrix

variable {α : Type}

/-- The entries of a row are usable, and are stored as the run: their columns are there, none of
them is named twice, and their values are finite. -/
def Fits (numColumns : ℕ) (offer : Offer (RowEntries α)) (run : List (ℕ × α)) : Prop :=
  ∃ (columns : List Int64) (values : List α),
    offer = .ok ⟨.ok (.integers columns), .ok (values.map .finite)⟩ ∧
      (∀ j ∈ columns, 0 ≤ j.toInt ∧ j.toInt < numColumns) ∧ (columns.map (·.toInt)).Nodup ∧
      run = (columns.map (·.toInt.toNat)).zip values

theorem checkedRow_eq_ok {numColumns ordinal : ℕ} {offer : Offer (RowEntries α)}
    {run : List (ℕ × α)} :
    checkedRow numColumns ordinal offer = .ok run ↔ Fits numColumns offer run := by
  have hrange (columns : List Int64) :
      columns.find? (fun j => decide (j < 0) || decide ((numColumns : ℤ) ≤ j.toInt)) = none ↔
        ∀ j ∈ columns, 0 ≤ j.toInt ∧ j.toInt < numColumns := by
    rw [List.find?_eq_none]
    refine forall₂_congr fun j _ => ?_
    rw [Bool.or_eq_true, not_or, decide_eq_true_eq, decide_eq_true_eq, Int64.lt_iff_toInt_lt,
      Int64.toInt_zero, not_lt, not_le]
  simp only [checkedRow, bind_eq_ok, accept_eq_ok, readPositions_eq_ok]
  constructor
  · rintro ⟨⟨_, _⟩, rfl, columns, rfl, values, rfl, h⟩
    split at h
    · obtain ⟨_, hthrow, -⟩ := bind_eq_ok.mp h
      exact absurd hthrow throw_ne_ok
    · next hfind =>
      split at h
      · obtain ⟨_, hthrow, -⟩ := bind_eq_ok.mp h
        exact absurd hthrow throw_ne_ok
      · next hrepeated =>
        split at h
        · next finite hfinite =>
          rw [pure_eq_ok] at h
          rw [mapM_finite?_eq_some] at hfinite
          rw [hfinite]
          exact ⟨columns, finite, rfl,
            (hrange columns).mp (Option.eq_none_iff_forall_ne_some.mpr hfind),
            Runs.leastRepeated?_eq_none.mp (Option.eq_none_iff_forall_ne_some.mpr hrepeated),
            h.symm⟩
        · exact absurd h throw_ne_ok
  · rintro ⟨columns, values, rfl, hcolumns, hnodup, rfl⟩
    refine ⟨_, rfl, columns, rfl, _, rfl, ?_⟩
    simp only [(hrange columns).mpr hcolumns, Runs.leastRepeated?_eq_none.mpr hnodup,
      mapM_finite?_eq_some.mpr rfl, pure_eq_ok]

theorem checkedRows_eq_ok {numColumns first : ℕ} {lists : List (Offer (RowEntries α))}
    {runs : Runs α} :
    checkedRows numColumns first lists = .ok runs ↔ List.Forall₂ (Fits numColumns) lists runs := by
  induction lists generalizing first runs with
  | nil =>
      rw [List.forall₂_nil_left_iff, checkedRows, Except.ok.injEq]
      exact eq_comm
  | cons offer lists ih =>
      simp only [checkedRows, bind_eq_ok, checkedRow_eq_ok, pure_eq_ok, ih,
        List.forall₂_cons_left_iff]
      constructor
      · rintro ⟨run, hrun, rest, hrest, rfl⟩
        exact ⟨run, rest, hrun, hrest, rfl⟩
      · rintro ⟨run, rest, hrun, hrest, rfl⟩
        exact ⟨run, hrun, rest, hrest, rfl⟩

/-- The offer lists the columns and the values of a run in order. -/
def Lists (offer : Offer (RowEntries α)) (run : List (ℕ × α)) : Prop :=
  ∃ columns, Runs.Words columns (run.map (·.1)) ∧
    offer = .ok ⟨.ok (.integers columns), .ok ((run.map (·.2)).map .finite)⟩

private theorem Lists.fits {numColumns : ℕ} {offer : Offer (RowEntries α)} {run : List (ℕ × α)}
    (h : Lists offer run) (hnodup : (run.map (·.1)).Nodup) (hlt : ∀ e ∈ run, e.1 < numColumns) :
    Fits numColumns offer run := by
  obtain ⟨columns, hcolumns, rfl⟩ := h
  refine ⟨columns, run.map (·.2), rfl, fun j hj => ⟨hcolumns.nonneg j hj, ?_⟩, ?_, ?_⟩
  · have hmem : j.toInt ∈ columns.map (·.toInt) := List.mem_map_of_mem hj
    rw [hcolumns, List.map_map] at hmem
    obtain ⟨e, he, heq⟩ := List.mem_map.mp hmem
    rw [← heq]
    exact Int.ofNat_lt.mpr (hlt e he)
  · rw [hcolumns]
    exact hnodup.map Nat.cast_injective
  · rw [hcolumns.map_toNat, ← List.unzip_fst, ← List.unzip_snd, List.zip_unzip]

theorem forall₂_fits {numColumns : ℕ} {lists : List (Offer (RowEntries α))} {runs : Runs α}
    (h : List.Forall₂ Lists lists runs)
    (hruns : ∀ run ∈ runs, (run.map (·.1)).Nodup ∧ ∀ e ∈ run, e.1 < numColumns) :
    List.Forall₂ (Fits numColumns) lists runs := by
  induction h with
  | nil => exact .nil
  | cons hrun _ ih =>
      obtain ⟨hfirst, hrest⟩ := List.forall_mem_cons.mp hruns
      exact .cons (hrun.fits hfirst.1 hfirst.2) (ih hrest)

/-- The arrays are the flat form of runs. -/
structure Flat (starts rows : List Int64) (values : List α) (runs : Runs α) : Prop where
  starts : Runs.Words starts runs.starts
  rows : Runs.Words rows runs.positions
  values : values = runs.values

/-- The offers are the flat form of runs. -/
def ListsColumns (starts rows : Offer IndexArray) (values : Offer (ValueArray α))
    (runs : Runs α) : Prop :=
  ∃ (s r : List Int64) (v : List α), starts = .ok (.integers s) ∧ rows = .ok (.integers r) ∧
    values = .ok (.numbers (v.map .finite)) ∧ Flat s r v runs

/-- Each run lists its rows once, and they are there. -/
def RunsFit [Scalar α] (numRows : Ordinal α) (runs : Runs α) : Prop :=
  ∀ run ∈ runs, (run.map (·.1)).Nodup ∧ ∀ e ∈ run, numRows.atMost e.1 = false

theorem runsFit_whole [Scalar α] {n : ℕ} {runs : Runs α} :
    RunsFit (.whole n : Ordinal α) runs ↔
      ∀ run ∈ runs, (run.map (·.1)).Nodup ∧ ∀ e ∈ run, e.1 < n := by
  simp [RunsFit, Ordinal.atMost]

section

variable {first : ℕ} {starts rows : List Int64} {values : List α} {u : Unit}

/-- The entries between starts, cut by the differences of their words. -/
def cutRuns (starts rows : List Int64) (values : List α) : List (List (Int64 × α)) :=
  Runs.cut (Runs.lengths starts) (rows.zip values)

def storedRun (run : List (Int64 × α)) : List (ℕ × α) := run.map fun e => (e.1.toInt.toNat, e.2)

theorem checkStarts_eq_ok :
    (checkStarts first starts : Except (Fault α) Unit) = .ok u ↔
      starts.head? = some 0 ∧ starts.IsChain fun a b => 0 ≤ (b - a).toInt := by
  have hsteps : (Runs.steps starts).findIdx? (fun d => decide (d < 0)) = none ↔
      starts.IsChain fun a b => 0 ≤ (b - a).toInt := by
    rw [List.findIdx?_eq_none_iff, ← Runs.forall_mem_steps (p := fun d => 0 ≤ d.toInt)]
    refine forall₂_congr fun d _ => ?_
    rw [decide_eq_false_iff_not, Int64.lt_iff_toInt_lt, Int64.toInt_zero, not_lt]
  cases starts with
  | nil => simp [checkStarts]
  | cons s starts =>
      rw [checkStarts, List.head?_cons, Option.some.injEq, ← hsteps]
      split
      · next hne => exact iff_of_false nofun fun h => hne h.1
      · next heq =>
        split
        · next hsome => exact iff_of_false nofun (by simp [hsome])
        · next hnone => exact iff_of_true rfl ⟨not_not.mp heq, hnone⟩

theorem checkCounts_eq_ok :
    checkCounts starts rows values = .ok u ↔
      rows.length = (starts.getLastD 0).toInt ∧ values.length = (starts.getLastD 0).toInt := by
  unfold checkCounts
  simp only
  split
  · next h => exact iff_of_true rfl h
  · next h => exact iff_of_false nofun h

theorem ownersOf_eq {size : ℕ} : (ownersOf starts size : Except (Fault α) (List ℕ)) =
    if (Runs.lengths starts).sum = size then .ok (Runs.owners 0 (Runs.lengths starts))
    else .error .lengthsOverflow := by
  rw [ownersOf, List.sum_eq_foldl]

private theorem ownersOf_eq_ok {size : ℕ} {owners : List ℕ} :
    (ownersOf starts size : Except (Fault α) (List ℕ)) = .ok owners ↔
      (Runs.lengths starts).sum = size ∧ Runs.owners 0 (Runs.lengths starts) = owners := by
  rw [ownersOf_eq]
  split
  · next h => rw [Except.ok.injEq, and_iff_right h]
  · next h => exact iff_of_false nofun fun hsum => h hsum.1

private theorem checkRepeats_eq_ok (hsum : (Runs.lengths starts).sum = rows.length) :
    (checkRepeats first (Runs.owners 0 (Runs.lengths starts)) rows : Except (Fault α) Unit) =
        .ok u ↔
      ∀ column ∈ Runs.cut (Runs.lengths starts) rows, column.Nodup := by
  have hnone := Runs.twin?_eq_none (hsum.trans (List.length_map (·.toInt)).symm)
  rw [Runs.cut_map, List.forall_mem_map] at hnone
  simp only [List.nodup_map_iff (f := Int64.toInt) fun _ _ => Int64.toInt_inj.mp] at hnone
  rw [← hnone, checkRepeats]
  split
  · next hsome => exact iff_of_false nofun (by simp [hsome])
  · next htwin => exact iff_of_true rfl htwin

end

variable [Scalar α] {first : ℕ} {numRows : Ordinal α} {starts rows : List Int64} {values : List α}
  {runs : Runs α}

private theorem checkRange_eq_ok {u : Unit} {owners : List ℕ} :
    checkRange first numRows owners rows = .ok u ↔
      ∀ r ∈ rows, 0 ≤ r.toInt ∧ numRows.atMost r.toInt = false := by
  have hnone : rows.findIdx? (fun r => decide (r < 0) || numRows.atMost r.toInt) = none ↔
      ∀ r ∈ rows, 0 ≤ r.toInt ∧ numRows.atMost r.toInt = false := by
    rw [List.findIdx?_eq_none_iff]
    refine forall₂_congr fun r _ => ?_
    rw [Bool.or_eq_false_iff, decide_eq_false_iff_not, Int64.lt_iff_toInt_lt, Int64.toInt_zero,
      not_lt]
  rw [← hnone, checkRange]
  split
  · next hsome => exact iff_of_false nofun (by simp [hsome])
  · next hpass => exact iff_of_true rfl hpass

private theorem checkRows_eq_ok {u : Unit} :
    checkRows first numRows starts rows = .ok u ↔
      (rows = [] ∨ (Runs.lengths starts).sum = rows.length) ∧
        (∀ r ∈ rows, 0 ≤ r.toInt ∧ numRows.atMost r.toInt = false) ∧
        ∀ column ∈ Runs.cut (Runs.lengths starts) rows, column.Nodup := by
  unfold checkRows
  split
  · next hempty =>
    obtain rfl := List.isEmpty_iff.mp hempty
    refine iff_of_true rfl ⟨Or.inl rfl, nofun, fun column hcolumn => ?_⟩
    rw [List.eq_nil_iff_forall_not_mem.mpr fun r hr => nomatch Runs.mem_of_mem_cut hcolumn hr]
    exact List.nodup_nil
  · next hne =>
    have hrows : rows ≠ [] := by simpa using hne
    simp only [bind_eq_ok, ownersOf_eq_ok, checkRange_eq_ok, or_iff_right hrows, exists_const]
    constructor
    · rintro ⟨_, ⟨hsum, rfl⟩, hrange, hrepeats⟩
      exact ⟨hsum, hrange, (checkRepeats_eq_ok hsum).mp hrepeats⟩
    · rintro ⟨hsum, hrange, honce⟩
      exact ⟨_, ⟨hsum, rfl⟩, hrange, (checkRepeats_eq_ok hsum).mpr honce⟩

/-- What is stored of a column layout, and when. -/
theorem checkedRuns_eq_ok :
    checkedRuns first numRows starts rows values = .ok runs ↔
      (starts.head? = some 0 ∧ starts.IsChain fun a b => 0 ≤ (b - a).toInt) ∧
        (rows.length = (starts.getLastD 0).toInt ∧
          values.length = (starts.getLastD 0).toInt) ∧
        ((rows = [] ∨ (Runs.lengths starts).sum = rows.length) ∧
          (∀ r ∈ rows, 0 ≤ r.toInt ∧ numRows.atMost r.toInt = false) ∧
          ∀ column ∈ Runs.cut (Runs.lengths starts) rows, column.Nodup) ∧
        (cutRuns starts rows values).map storedRun = runs := by
  simp only [checkedRuns, bind_eq_ok, pure_eq_ok, checkStarts_eq_ok, checkCounts_eq_ok,
    checkRows_eq_ok, exists_const]
  rfl

omit [Scalar α] in
private theorem map_storedRun_cutRuns :
    (cutRuns starts rows values).map storedRun =
      Runs.cut (Runs.lengths starts) ((rows.map (·.toInt.toNat)).zip values) := by
  rw [List.zip_map_left, Runs.cut_map]
  rfl

private theorem runsFit_stored (hvalues : values.length = rows.length)
    (hsum : rows = [] ∨ (Runs.lengths starts).sum = rows.length)
    (hnonneg : ∀ r ∈ rows, 0 ≤ r.toInt) :
    RunsFit numRows ((cutRuns starts rows values).map storedRun) ↔
      (∀ r ∈ rows, 0 ≤ r.toInt ∧ numRows.atMost r.toInt = false) ∧
        ∀ column ∈ Runs.cut (Runs.lengths starts) rows, column.Nodup := by
  have hpositions : ((cutRuns starts rows values).map storedRun).map (·.map Prod.fst) =
      (Runs.cut (Runs.lengths starts) rows).map (·.map (·.toInt.toNat)) := by
    rw [map_storedRun_cutRuns, ← Runs.cut_map, ← Runs.cut_map, List.map_fst_zip]
    rw [List.length_map, hvalues]
  have hfits : RunsFit numRows ((cutRuns starts rows values).map storedRun) ↔
      ∀ column ∈ ((cutRuns starts rows values).map storedRun).map (·.map Prod.fst),
        column.Nodup ∧ ∀ n ∈ column, numRows.atMost (n : ℕ) = false := by
    simp only [RunsFit, List.forall_mem_map]
  rw [hfits, hpositions, List.forall_mem_map, forall₂_and, and_comm]
  refine and_congr ?_ (forall₂_congr fun column hcolumn => ?_)
  · rw [← Runs.forall_mem_cut hsum]
    refine forall₂_congr fun column hcolumn => ?_
    rw [List.forall_mem_map]
    refine forall₂_congr fun r hr => ?_
    have hr := hnonneg r (Runs.mem_of_mem_cut hcolumn hr)
    rw [Int.toNat_of_nonneg hr, and_iff_right hr]
  · rw [Runs.nodup_map_toNat fun r hr => hnonneg r (Runs.mem_of_mem_cut hcolumn hr)]
    exact List.nodup_map_iff fun _ _ => Int64.toInt_inj.mp

theorem runsFit_of_checkedRuns (h : checkedRuns first numRows starts rows values = .ok runs) :
    RunsFit numRows runs := by
  obtain ⟨-, ⟨hrows, hvalues⟩, ⟨hsum, hrange, honce⟩, rfl⟩ := checkedRuns_eq_ok.mp h
  exact (runsFit_stored (by omega) hsum fun r hr => (hrange r hr).1).mpr ⟨hrange, honce⟩

omit [Scalar α] in
theorem words_of_ascends (hbegins : starts.head? = some 0)
    (hascends : (starts.map (·.toInt)).IsChain (· ≤ ·)) :
    Runs.Words starts (starts.map (·.toInt.toNat)) ∧
      (starts.map (·.toInt.toNat)).IsChain (· ≤ ·) := by
  obtain ⟨rest, rfl⟩ := List.head?_eq_some_iff.mp hbegins
  have hpairwise := List.isChain_iff_pairwise.mp hascends
  rw [List.map_cons, List.pairwise_cons, List.forall_mem_map] at hpairwise
  have hnonneg : ∀ s ∈ (0 : Int64) :: rest, 0 ≤ s.toInt :=
    List.forall_mem_cons.mpr ⟨le_rfl, hpairwise.1⟩
  rw [List.isChain_map] at hascends ⊢
  exact ⟨Runs.words_of_nonneg hnonneg, hascends.imp fun a b hab => Int.toNat_le_toNat hab⟩

omit [Scalar α] in
theorem cutRuns_eq_slices (hbegins : starts.head? = some 0)
    (hascends : (starts.map (·.toInt)).IsChain (· ≤ ·)) :
    cutRuns starts rows values =
      Runs.slices (starts.map (·.toInt.toNat)) (rows.zip values) := by
  obtain ⟨hwords, hchain⟩ := words_of_ascends hbegins hascends
  obtain ⟨rest, rfl⟩ := List.head?_eq_some_iff.mp hbegins
  rw [cutRuns, hwords.lengths hchain]
  exact Runs.cut_differences hchain _

theorem slices_of_ascends (hascends : (starts.map (·.toInt)).IsChain (· ≤ ·))
    (h : checkedRuns first numRows starts rows values = .ok runs) :
    runs = Runs.slices (starts.map (·.toInt.toNat))
      ((rows.map (·.toInt.toNat)).zip values) := by
  obtain ⟨⟨hbegins, -⟩, -, -, rfl⟩ := checkedRuns_eq_ok.mp h
  rw [cutRuns_eq_slices hbegins hascends, List.zip_map_left, Runs.slices_map]
  rfl

theorem ascends_of_checkedRuns (hsmall : ∀ s ∈ starts, |s.toInt| < 2 ^ 62)
    (h : checkedRuns first numRows starts rows values = .ok runs) :
    (starts.map (·.toInt)).IsChain (· ≤ ·) := by
  obtain ⟨⟨-, hsteps⟩, -⟩ := checkedRuns_eq_ok.mp h
  rw [List.isChain_map]
  refine (List.IsChain.iff_mem.mp hsteps).imp fun a b hab => ?_
  obtain ⟨ha, hb, hstep⟩ := hab
  have hdecrease := Runs.toInt_sub_neg_iff (hsmall a ha) (hsmall b hb)
  exact not_lt.mp (mt hdecrease.mpr (not_lt.mpr hstep))

theorem ascends_of_entries (hrows : rows ≠ [])
    (h : checkedRuns first numRows starts rows values = .ok runs) :
    (starts.map (·.toInt)).IsChain (· ≤ ·) := by
  obtain ⟨⟨hbegins, hsteps⟩, ⟨hcount, -⟩, ⟨hsum, -⟩, -⟩ := checkedRuns_eq_ok.mp h
  obtain ⟨rest, rfl⟩ := List.head?_eq_some_iff.mp hbegins
  refine (Runs.sub_le_sum_lengths hsteps).2 ?_
  rw [hsum.resolve_left hrows, hcount, Int64.toInt_zero, sub_zero]

/-- The flat form of runs is stored as the runs that it came from. -/
theorem checkedRuns_of_flat (h : Flat starts rows values runs) {runs' : Runs α} :
    checkedRuns first numRows starts rows values = .ok runs' ↔
      RunsFit numRows runs ∧ runs' = runs := by
  have hstored : (cutRuns starts rows values).map storedRun = runs := by
    rw [map_storedRun_cutRuns, h.starts.lengths (Runs.isChain_startsFrom 0 runs), h.rows.map_toNat,
      h.values, Runs.starts, Runs.differences_startsFrom, Runs.positions, Runs.values,
      ← List.unzip_fst, ← List.unzip_snd, List.zip_unzip]
    exact Runs.cut_flatten runs
  have hhead : starts.head? = some 0 := by
    have hstarts := h.starts
    cases runs <;> exact hstarts.head?_eq
  have hlast : (starts.getLastD 0).toInt = runs.size := by
    rw [h.starts.getLastD_eq, Runs.starts, Runs.getLastD_startsFrom, Nat.zero_add]
  have hrows : rows.length = runs.size := by
    rw [h.rows.length_eq, Runs.length_positions]
  have hvalues : values.length = runs.size := by
    rw [h.values, Runs.length_values]
  have hsum : (Runs.lengths starts).sum = rows.length := by
    rw [h.starts.lengths (Runs.isChain_startsFrom 0 runs), Runs.starts,
      Runs.differences_startsFrom, hrows, Runs.size, List.length_flatten]
  have hfit := @runsFit_stored α _ numRows _ _ _ (hvalues.trans hrows.symm) (Or.inr hsum)
    h.rows.nonneg
  rw [hstored] at hfit
  rw [checkedRuns_eq_ok, hstored, hfit, eq_comm (a := runs)]
  constructor
  · rintro ⟨-, -, ⟨-, hfits⟩, heq⟩
    exact ⟨hfits, heq⟩
  · rintro ⟨hfits, heq⟩
    exact ⟨⟨hhead, h.starts.isChain (Runs.isChain_startsFrom 0 runs)⟩,
      ⟨by rw [hrows, hlast], by rw [hvalues, hlast]⟩, ⟨Or.inr hsum, hfits⟩, heq⟩

end SparseMatrix

end IncrementalLP
