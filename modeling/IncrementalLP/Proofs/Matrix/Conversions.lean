import IncrementalLP.Proofs.Matrix.Entries
import IncrementalLP.Proofs.Matrix.Layouts
import IncrementalLP.Matrix.Conversion
/-!
# Conversions

Compressed columns hold for each place the sum of the values that were given for it, added in the
order in which they were given, and a matrix is made of them as they are.
-/
namespace IncrementalLP

namespace Compressed

variable {β : Type} [Add β]

/-- A value added to what there is, if anything. -/
def addTo (s : Option β) (v : β) : Option β :=
  some (match s with
    | some a => a + v
    | none => v)

/-- The sum of the values with a position, in order, on top of what there is. -/
def totalFrom (s : Option β) (l : List (ℕ × β)) (i : ℕ) : Option β :=
  (l.filter (·.1 == i)).foldl (fun s e => addTo s e.2) s

variable {i j : ℕ} {a b v : β} {s : Option β} {l rest : List (ℕ × β)}

theorem totalFrom_cons_self : totalFrom s ((i, b) :: l) i = totalFrom (addTo s b) l i := by
  simp [totalFrom]

theorem totalFrom_cons_of_ne (h : j ≠ i) : totalFrom s ((j, b) :: l) i = totalFrom s l i := by
  simp [totalFrom, h]

theorem totalFrom_of_not_mem (h : ∀ e ∈ l, e.1 ≠ i) : totalFrom s l i = s := by
  rw [totalFrom, List.filter_eq_nil_iff.mpr (by simpa using h)]
  rfl

private theorem mem_sumRepeatsFrom (hsorted : ((i, a) :: l).Pairwise fun x y => x.1 ≤ y.1) :
    (((sumRepeatsFrom i a l).map (·.1)).Nodup ∧ ∀ e ∈ sumRepeatsFrom i a l, i ≤ e.1) ∧
      ∀ j v, (j, v) ∈ sumRepeatsFrom i a l ↔ totalFrom none ((i, a) :: l) j = some v := by
  induction l generalizing i a with
  | nil =>
      refine ⟨by simp [sumRepeatsFrom], fun j v => ?_⟩
      by_cases hij : i = j
      · subst hij
        rw [totalFrom_cons_self]
        simp [sumRepeatsFrom, totalFrom, addTo, eq_comm]
      · rw [totalFrom_cons_of_ne hij]
        simp [sumRepeatsFrom, totalFrom, Ne.symm hij]
  | cons first rest ih =>
      obtain ⟨k, b⟩ := first
      obtain ⟨hhead, hrest⟩ := List.pairwise_cons.mp hsorted
      obtain ⟨hk, hlater⟩ := List.forall_mem_cons.mp hhead
      rw [sumRepeatsFrom]
      by_cases hki : k = i
      · -- the two values come together
        subst hki
        rw [if_pos rfl]
        have hmerged : ((k, a + b) :: rest).Pairwise fun x y => x.1 ≤ y.1 :=
          List.pairwise_cons.mpr ⟨hlater, (List.pairwise_cons.mp hrest).2⟩
        obtain ⟨hnodup, hmem⟩ := ih hmerged
        refine ⟨hnodup, fun j v => (hmem j v).trans ?_⟩
        by_cases hkj : k = j
        · subst hkj
          rw [totalFrom_cons_self, totalFrom_cons_self, totalFrom_cons_self]
          rfl
        · rw [totalFrom_cons_of_ne hkj, totalFrom_cons_of_ne hkj, totalFrom_cons_of_ne hkj]
      · -- nothing more is added to the first value
        rw [if_neg hki]
        obtain ⟨⟨hnodup, hge⟩, hmem⟩ := ih hrest
        have hlt : i < k := lt_of_le_of_ne hk (Ne.symm hki)
        refine ⟨⟨?_, ?_⟩, fun j v => ?_⟩
        · rw [List.map_cons, List.nodup_cons]
          refine ⟨fun hi => ?_, hnodup⟩
          obtain ⟨e, he, heq⟩ := List.mem_map.mp hi
          have := hge e he
          omega
        · rw [List.forall_mem_cons]
          exact ⟨le_rfl, fun e he => hk.trans (hge e he)⟩
        · rw [List.mem_cons, hmem]
          by_cases hij : i = j
          · subst hij
            have hnone : totalFrom (none : Option β) ((k, b) :: rest) i = none := by
              apply totalFrom_of_not_mem
              rw [List.forall_mem_cons]
              refine ⟨hlt.ne', fun e he => ?_⟩
              have := (List.pairwise_cons.mp hrest).1 e he
              omega
            have hsome : totalFrom (some a) ((k, b) :: rest) i = some a := by
              apply totalFrom_of_not_mem
              rw [List.forall_mem_cons]
              refine ⟨hlt.ne', fun e he => ?_⟩
              have := (List.pairwise_cons.mp hrest).1 e he
              omega
            rw [hnone, totalFrom_cons_self, addTo, hsome]
            simp [eq_comm]
          · rw [totalFrom_cons_of_ne hij]
            simp [Ne.symm hij]

omit [Add β] in
private theorem le_of_fst_trans (a b c : ℕ × β) (hab : decide (a.1 ≤ b.1) = true)
    (hbc : decide (b.1 ≤ c.1) = true) : decide (a.1 ≤ c.1) = true := by
  rw [decide_eq_true_eq] at *
  exact hab.trans hbc

omit [Add β] in
private theorem le_of_fst_total (a b : ℕ × β) :
    (decide (a.1 ≤ b.1) || decide (b.1 ≤ a.1)) = true := by
  rw [Bool.or_eq_true, decide_eq_true_eq, decide_eq_true_eq]
  exact le_total a.1 b.1

private theorem totalFrom_mergeSort (l : List (ℕ × β)) :
    totalFrom s (l.mergeSort fun a b => decide (a.1 ≤ b.1)) i = totalFrom s l i := by
  have hequal : (l.filter (·.1 == i)).Pairwise fun a b => decide (a.1 ≤ b.1) = true := by
    apply List.pairwise_of_forall_mem_list
    intro a ha b hb
    have hai := beq_iff_eq.mp (List.mem_filter.mp ha).2
    have hbi := beq_iff_eq.mp (List.mem_filter.mp hb).2
    rw [hai, hbi]
    exact decide_eq_true le_rfl
  have hsub := (List.sublist_mergeSort le_of_fst_trans le_of_fst_total hequal
    List.filter_sublist).filter (·.1 == i)
  simp only [List.filter_filter, Bool.and_self] at hsub
  rw [totalFrom, totalFrom,
    hsub.eq_of_length_le ((List.mergeSort_perm l _).filter _).length_eq.le]

theorem mem_columnOf (l : List (ℕ × β)) :
    ((columnOf l).map (·.1)).Nodup ∧
      ∀ i v, (i, v) ∈ columnOf l ↔ totalFrom none l i = some v := by
  have hsorted : (l.mergeSort fun a b => decide (a.1 ≤ b.1)).Pairwise fun x y => x.1 ≤ y.1 :=
    (List.pairwise_mergeSort le_of_fst_trans le_of_fst_total l).imp of_decide_eq_true
  rw [columnOf]
  simp only [← totalFrom_mergeSort l]
  cases hsort : l.mergeSort fun a b => decide (a.1 ≤ b.1) with
  | nil => simp [sumRepeats, totalFrom]
  | cons first rest =>
      rw [hsort] at hsorted
      obtain ⟨⟨hnodup, -⟩, hmem⟩ := mem_sumRepeatsFrom hsorted
      exact ⟨hnodup, hmem⟩

section

variable {l : List (ℕ × β)}

/-- Each position is greater than the one before it. -/
def Ascends {γ : Type} (l : List (ℕ × γ)) : Prop := l.Pairwise fun a b => a.1 < b.1

/-- Where no position is repeated, no values are added. -/
theorem sumRepeats_of_ascends (h : Ascends l) : sumRepeats l = l := by
  cases l with
  | nil => rfl
  | cons first rest =>
      obtain ⟨i, a⟩ := first
      rw [sumRepeats]
      induction rest generalizing i a with
      | nil => rfl
      | cons next rest ih =>
          obtain ⟨j, b⟩ := next
          obtain ⟨hfirst, hrest⟩ := List.pairwise_cons.mp h
          rw [sumRepeatsFrom, if_neg (hfirst _ List.mem_cons_self).ne', ih j b hrest]

omit [Add β] in
private theorem ascends_mergeSort (h : (l.map (·.1)).Nodup) :
    Ascends (l.mergeSort fun a b => decide (a.1 ≤ b.1)) := by
  have hsorted := List.pairwise_mergeSort le_of_fst_trans le_of_fst_total l
  have hperm := (l.mergeSort_perm fun a b => decide (a.1 ≤ b.1)).map (·.1)
  refine (hsorted.and (List.pairwise_map.mp (hperm.nodup_iff.mpr h))).imp fun hab => ?_
  exact lt_of_le_of_ne (of_decide_eq_true hab.1) hab.2

private theorem columnOf_eq_mergeSort (h : (l.map (·.1)).Nodup) :
    columnOf l = l.mergeSort fun a b => decide (a.1 ≤ b.1) :=
  sumRepeats_of_ascends (ascends_mergeSort h)

theorem columnOf_perm (h : (l.map (·.1)).Nodup) : (columnOf l).Perm l := by
  rw [columnOf_eq_mergeSort h]
  exact List.mergeSort_perm _ _

theorem ascends_columnOf (h : (l.map (·.1)).Nodup) : Ascends (columnOf l) := by
  rw [columnOf_eq_mergeSort h]
  exact ascends_mergeSort h

theorem columnOf_of_ascends (h : Ascends l) : columnOf l = l := by
  rw [columnOf, List.mergeSort_of_pairwise (h.imp fun hab => decide_eq_true hab.le),
    sumRepeats_of_ascends h]

theorem columnOf_eq_of_perm {l' : List (ℕ × β)} (h : (l.map (·.1)).Nodup) (hperm : l.Perm l') :
    columnOf l = columnOf l' := by
  have h' : (l'.map (·.1)).Nodup := (hperm.map _).nodup_iff.mp h
  have hcolumns : (columnOf l).Perm (columnOf l') :=
    (columnOf_perm h).trans (hperm.trans (columnOf_perm h').symm)
  refine hcolumns.eq_of_pairwise (fun a b _ _ hab hba => ?_) (ascends_columnOf h)
    (ascends_columnOf h')
  exact absurd hab hba.not_gt

theorem columnOf_map {γ : Type} [Add γ] (f : β → γ) (h : (l.map (·.1)).Nodup) :
    columnOf (l.map fun e => (e.1, f e.2)) = (columnOf l).map fun e => (e.1, f e.2) := by
  have hmap : ((l.map fun e => (e.1, f e.2)).map (·.1)).Nodup := by
    rwa [List.map_map]
  rw [columnOf_eq_mergeSort h, columnOf_eq_mergeSort hmap]
  refine (List.map_mergeSort ?_).symm
  exact fun _ _ _ _ => rfl

end

end Compressed

namespace SparseMatrix

variable {α : Type}

/-- The runs with their values as they were handed in. -/
def offered (runs : Runs α) : Runs (Extended α) := runs.map (·.map fun e => (e.1, .finite e.2))

@[simp] theorem starts_offered (runs : Runs α) : (offered runs).starts = runs.starts := by
  have hstarts (n : ℕ) : Runs.startsFrom n (offered runs) = Runs.startsFrom n runs := by
    induction runs generalizing n with
    | nil => rfl
    | cons run runs ih =>
        rw [offered, List.map_cons, Runs.startsFrom, Runs.startsFrom, List.length_map]
        exact congrArg _ (ih _)
  exact hstarts 0

@[simp] theorem positions_offered (runs : Runs α) : (offered runs).positions = runs.positions := by
  rw [Runs.positions, Runs.positions, offered, ← List.map_flatten, List.map_map]
  rfl

@[simp] theorem size_offered (runs : Runs α) : (offered runs).size = runs.size := by
  rw [Runs.size, Runs.size, offered, ← List.map_flatten, List.length_map]

@[simp] theorem values_offered (runs : Runs α) :
    (offered runs).values = runs.values.map .finite := by
  rw [Runs.values, Runs.values, offered, ← List.map_flatten, List.map_map, List.map_map]
  rfl

variable [Scalar α]

private theorem exists_offered {columns : Runs (Extended α)} {values : List α}
    (h : columns.values = values.map .finite) : ∃ runs, columns = offered runs := by
  refine ⟨columns.map (·.map fun e => (e.1, e.2.finite?.getD 0)), ?_⟩
  rw [offered, List.map_map]
  refine (List.map_id columns).symm.trans (List.map_congr_left fun run hrun => ?_)
  rw [Function.comp_apply, List.map_map]
  refine (List.map_id run).symm.trans (List.map_congr_left fun e he => ?_)
  have hmem : e.2 ∈ columns.values :=
    List.mem_map_of_mem (List.mem_flatten.mpr ⟨run, hrun, he⟩)
  rw [h] at hmem
  obtain ⟨x, -, hx⟩ := List.mem_map.mp hmem
  obtain ⟨i, v⟩ := e
  obtain rfl : v = .finite x := hx.symm
  rfl

theorem build_eq_ok {starts rows : Offer IndexArray} {values : Offer (ValueArray α)}
    {numRows : Offer (Option (Ordinal α))} {m : SparseMatrix α} :
    build starts rows values numRows = .ok m ↔
      ∃ s r v given count columns n, starts = .ok (.integers s) ∧ rows = .ok (.integers r) ∧
        values = .ok (.numbers (v.map .finite)) ∧ numRows = .ok given ∧
        rowCount r given = .ok count ∧ checkedRuns 0 count s r v = .ok columns ∧
        count.count = .ok n ∧ m = ⟨n, columns, []⟩ := by
  simp only [build, bind_eq_ok, pure_eq_ok, accept_eq_ok, readPositions_eq_ok, readValues_eq_ok]
  constructor
  · rintro ⟨s, hs, r, hr, v, hv, given, hgiven, count, hcount, columns, hcolumns, n, hn, rfl⟩
    exact ⟨s, r, v, given, count, columns, n, hs, hr, hv, hgiven, hcount, hcolumns, hn, rfl⟩
  · rintro ⟨s, r, v, given, count, columns, n, hs, hr, hv, hgiven, hcount, hcolumns, hn, rfl⟩
    exact ⟨s, hs, r, hr, v, hv, given, hgiven, count, hcount, columns, hcolumns, n, hn, rfl⟩

private theorem exists_rowCount {rows : List Int64} {positions : List ℕ}
    (hrows : Runs.Words rows positions)
    (stated : Option ℕ) (hlt : ∀ n ∈ stated, ∀ i ∈ positions, i < n) :
    ∃ n : ℕ, rowCount rows (stated.map fun n : ℕ => (.whole n : Ordinal α)) = .ok (.whole n) ∧
      (∀ i ∈ positions, i < n) ∧
      ∀ b, (∀ n ∈ stated, n ≤ b) → (∀ i ∈ positions, i < b) → n ≤ b := by
  cases stated with
  | some n =>
      refine ⟨n, ?_, hlt n rfl, fun b hb _ => hb n rfl⟩
      rw [Option.map_some, rowCount, Ordinal.isNegative, decide_eq_false (by omega)]
      rfl
  | none =>
      rw [Option.map_none, rowCount, hrows]
      cases hmax : (positions.map fun n : ℕ => (n : ℤ)).max? with
      | none =>
          rw [List.max?_eq_none_iff, List.map_eq_nil_iff] at hmax
          subst hmax
          exact ⟨0, rfl, by simp, fun b _ _ => Nat.zero_le b⟩
      | some z =>
          -- one more than the greatest position
          obtain ⟨hmem, hle⟩ := List.max?_eq_some_iff.mp hmax
          obtain ⟨k, hk, rfl⟩ := List.mem_map.mp hmem
          refine ⟨k + 1, rfl, fun i hi => ?_, fun b _ hb => hb k hk⟩
          have := hle i (List.mem_map_of_mem hi)
          omega

theorem exists_build {starts rows : Offer IndexArray} {values : Offer (ValueArray α)}
    {runs : Runs α} (h : ListsColumns starts rows values runs)
    (hnodup : ∀ run ∈ runs, (run.map (·.1)).Nodup)
    (stated : Option ℕ) (hlt : ∀ n ∈ stated, ∀ i ∈ runs.positions, i < n) :
    ∃ n, build starts rows values (.ok (stated.map fun n : ℕ => .whole n)) = .ok ⟨n, runs, []⟩ ∧
      ∀ b, (∀ n ∈ stated, n ≤ b) → (∀ i ∈ runs.positions, i < b) → n ≤ b := by
  obtain ⟨s, r, v, rfl, rfl, rfl, hflat⟩ := h
  obtain ⟨n, hcount, hbelow, hleast⟩ := exists_rowCount (α := α) hflat.rows stated hlt
  have hfit : RunsFit (.whole n : Ordinal α) runs :=
    runsFit_whole.mpr fun run hrun =>
      ⟨hnodup run hrun, fun e he => hbelow e.1 (Runs.mem_positions hrun he)⟩
  exact ⟨n, build_eq_ok.mpr ⟨s, r, v, _, _, runs, n, rfl, rfl, rfl, rfl, hcount,
    (checkedRuns_of_flat hflat).mpr ⟨hfit, rfl⟩, rfl, rfl⟩, hleast⟩

theorem words_ofNat {numbers : List ℕ} (h : ∀ n ∈ numbers, n < 2 ^ 63) :
    Runs.Words (numbers.map Int64.ofNat) numbers := by
  rw [Runs.Words, List.map_map]
  exact List.map_congr_left fun n hn => Int64.toInt_ofNat_of_lt (h n hn)

/-- A matrix is made of compressed columns as they are. -/
theorem ofCompressed_eq_ok {c : Compressed (Extended α)} {m : SparseMatrix α}
    (hsize : c.columns.size < 2 ^ 63) (hrows : ∀ i ∈ c.columns.positions, i < 2 ^ 63) :
    ofCompressed c = .ok m ↔
      ∃ runs : Runs α, c.columns = offered runs ∧ RunsFit (.whole c.numRows : Ordinal α) runs ∧
        m = ⟨c.numRows, runs, []⟩ := by
  have hstarts : ∀ n ∈ c.columns.starts, n < 2 ^ 63 := by
    intro n hn
    have := Runs.le_of_mem_startsFrom hn
    omega
  have hflat {runs : Runs α} (hruns : c.columns = offered runs) :
      Flat (c.columns.starts.map Int64.ofNat) (c.columns.positions.map Int64.ofNat) runs.values
        runs := by
    refine ⟨?_, ?_, rfl⟩
    · rw [← starts_offered runs, ← hruns]
      exact words_ofNat hstarts
    · rw [← positions_offered runs, ← hruns]
      exact words_ofNat hrows
  have hcount (l : List Int64) : rowCount l (some (.whole c.numRows : Ordinal α)) =
      .ok (.whole c.numRows) := by
    rw [rowCount, Ordinal.isNegative, decide_eq_false (by omega)]
    rfl
  rw [ofCompressed, build_eq_ok]
  constructor
  · rintro ⟨s, r, v, given, count, columns, n, hs, hr, hv, hgiven, hcounted, hchecked, hn, rfl⟩
    obtain rfl := IndexArray.integers.inj (Except.ok.inj hs)
    obtain rfl := IndexArray.integers.inj (Except.ok.inj hr)
    have hvalues := ValueArray.numbers.inj (Except.ok.inj hv)
    obtain rfl := Except.ok.inj hgiven
    rw [hcount] at hcounted
    obtain rfl := Except.ok.inj hcounted
    obtain rfl := Except.ok.inj hn
    obtain ⟨runs, hruns⟩ := exists_offered hvalues
    have hv : v = runs.values := by
      rw [hruns, values_offered] at hvalues
      exact (List.map_injective_iff.mpr (fun _ _ => Extended.finite.inj) hvalues).symm
    rw [hv] at hchecked
    obtain ⟨hfit, rfl⟩ := (checkedRuns_of_flat (hflat hruns)).mp hchecked
    exact ⟨columns, hruns, hfit, rfl⟩
  · rintro ⟨runs, hruns, hfit, rfl⟩
    refine ⟨_, _, runs.values, _, _, runs, c.numRows, rfl, rfl, ?_, rfl, hcount _,
      (checkedRuns_of_flat (hflat hruns)).mpr ⟨hfit, rfl⟩, rfl, rfl⟩
    rw [hruns, values_offered]

end SparseMatrix

end IncrementalLP
