import IncrementalLP.Proofs.Instance.Loading
import IncrementalLP.Proofs.Instance.Packing
import IncrementalLP.Proofs.Random.Draws
import IncrementalLP.Random.Problem
/-!
# Random problems

Whatever is drawn, as long as there is a row, a random problem is a packing problem in which every
column has an entry, and cuts are rows of such a problem.
-/
namespace IncrementalLP

/-- The parts of a packing problem of given sizes in which every column has an entry. -/
structure ProblemParts.Packs (m n : ℕ) (p : ProblemParts ℚ) : Prop where
  rows : p.rows.length = m
  columns : p.columns.length = n
  numRows : p.matrix.numRows = m
  numColumns : p.matrix.numColumns = n
  covers : ∀ j < n, p.matrix.columnEntries j ≠ []
  packing : (⟨.max, p.rows, p.columns, p.matrix.entries⟩ : Contents ℚ).Packing

/-- A row that may be added to a packing problem of a number of columns. -/
structure Cut.Packs (n : ℕ) (c : Cut ℚ) : Prop where
  caps : c.row.Caps
  nameless : c.row.name = none
  entries : Positive n c.entries

namespace RandomProblem

variable {σ : Type} {d : DrawSource σ ℚ} {m n : ℕ}

section

variable (hd : d.Lawful)

include hd

private theorem always_coefficient : Always (0 < ·) (coefficient d) := by
  intro s
  obtain ⟨hlow, -⟩ := hd.uniform (1 / 2) 5 s
  exact lt_of_lt_of_le (by norm_num) hlow

private theorem always_limit {low high : ℚ} (hlow : 0 ≤ low) (hhigh : 0 ≤ high)
    (name : Option String) :
    Always (fun r => r.Caps ∧ r.name = name) (limit d low high name) := by
  have hdrawn : Always (0 ≤ ·) (d.between low high) := fun s =>
    (le_min hlow hhigh).trans (hd.uniform low high s).1
  exact hdrawn.bind fun b hb => always_pure ⟨⟨rfl, b, hb, rfl⟩, rfl⟩

private theorem always_pick (hn : 0 < n) :
    AlwaysReturns (· < n) (pick d n : StateM σ (Offer ℕ)) := by
  have hdrawn : Always (· < n) (d.drawBelow n) := hd.below hn
  unfold pick
  rw [if_neg (by omega)]
  exact hdrawn.bind fun k hk => always_pure ⟨k, rfl, hk⟩

private theorem always_values {places : List ℕ} (hnodup : places.Nodup)
    (hlt : ∀ k ∈ places, k < n) :
    Always (fun run => Positive n run ∧ run.length = places.length)
      (places.mapM fun k => do return (k, ← coefficient d)) := by
  have hpair (k : ℕ) : Always (fun e : ℕ × ℚ => 0 < e.2 ∧ e.1 = k)
      (do return (k, ← coefficient d)) :=
    (always_coefficient hd).bind fun v hv => always_pure ⟨hv, rfl⟩
  refine (always_mapM fun k _ => hpair k).imp fun run hrun => ?_
  obtain ⟨hpositive, hplaces⟩ := (List.forall₂_and_left run places).mp hrun.flip
  rw [← List.forall₂_map_left_iff (f := Prod.fst), List.forall₂_eq_eq_eq] at hplaces
  refine ⟨⟨hplaces ▸ hnodup, fun e he => ?_, hpositive⟩, hrun.length_eq.symm⟩
  exact hlt e.1 (hplaces ▸ List.mem_map_of_mem he)

private theorem always_chooseRows (hm : 0 < m) (density : Extended ℚ) :
    AlwaysReturns (fun rows => rows ≠ [] ∧ rows.Nodup ∧ ∀ i ∈ rows, i < m)
      (chooseRows d m density) := by
  refine (always_filterM _ _).bind fun chosen hchosen => ?_
  rw [Int.toNat_natCast] at hchosen
  split
  · exact (always_pick hd hm).bind fun _ ⟨i, hi, hlt⟩ =>
      hi ▸ always_pure ⟨[i], rfl, by simp, by simp, by simpa using hlt⟩
  · next hnonempty =>
    refine always_pure ⟨chosen, rfl, ?_, hchosen.nodup List.nodup_range, fun i hi => ?_⟩
    · rintro rfl
      exact hnonempty (by simpa using hm.ne')
    · exact List.mem_range.mp (hchosen.subset hi)

private theorem always_columnRuns (hm : 0 < m) (density : Extended ℚ) (k : ℕ) :
    AlwaysReturns (fun runs => runs.length = k ∧ ∀ run ∈ runs, Positive m run ∧ run ≠ [])
      (columnRuns d m density k) := by
  induction k with
  | zero => exact always_pure ⟨[], rfl, rfl, by simp⟩
  | succ k ih =>
      refine (always_chooseRows hd hm density).bind ?_
      rintro _ ⟨rows, rfl, hne, hnodup, hlt⟩
      refine (always_values hd hnodup hlt).bind fun run ⟨hrun, hlength⟩ => ih.bind ?_
      rintro _ ⟨runs, rfl, hruns, hall⟩
      refine always_pure ⟨run :: runs, rfl, congrArg Nat.succ hruns,
        List.forall_mem_cons.mpr ⟨⟨hrun, ?_⟩, hall⟩⟩
      rw [← List.length_pos_iff, hlength]
      exact List.length_pos_iff.mpr hne

end

private theorem size_le {runs : Runs ℚ} (hruns : ∀ run ∈ runs, Positive m run) :
    runs.size ≤ m * runs.length := by
  have hlength : ∀ run ∈ runs, run.length ≤ m := fun run hrun => by
    have hsub : run.map (·.1) ⊆ List.range m := fun k hk => by
      obtain ⟨e, he, rfl⟩ := List.mem_map.mp hk
      exact List.mem_range.mpr ((hruns run hrun).below e he)
    have hle := ((hruns run hrun).nodup.subperm hsub).length_le
    rwa [List.length_map, List.length_range] at hle
  rw [Runs.size, List.length_flatten, ← List.length_map (f := List.length), mul_comm]
  refine List.sum_le_card_nsmul _ _ fun k hk => ?_
  obtain ⟨run, hrun, rfl⟩ := List.mem_map.mp hk
  exact hlength run hrun

private theorem matrixOf_eq_ok {runs : Runs ℚ} (hruns : ∀ run ∈ runs, Positive m run)
    (hsize : m * runs.length < 2 ^ 63) : matrixOf runs m = .ok ⟨m, runs, []⟩ := by
  have hcompressed :
      matrixOf runs m = SparseMatrix.ofCompressed ⟨m, SparseMatrix.offered runs⟩ := by
    rw [matrixOf, SparseMatrix.ofCompressed, SparseMatrix.starts_offered,
      SparseMatrix.positions_offered, SparseMatrix.values_offered]
  rw [hcompressed, SparseMatrix.ofCompressed_eq_ok]
  · exact ⟨runs, rfl, SparseMatrix.runsFit_whole.mpr fun run hrun =>
      ⟨(hruns run hrun).nodup, (hruns run hrun).below⟩, rfl⟩
  · rw [SparseMatrix.size_offered]
    exact (size_le hruns).trans_lt hsize
  · rw [SparseMatrix.positions_offered]
    intro i hi
    obtain ⟨e, he, rfl⟩ := List.mem_map.mp hi
    obtain ⟨run, hrun, he⟩ := List.mem_flatten.mp he
    have hcolumn : 0 < runs.length := List.length_pos_of_mem hrun
    calc e.1 < m := (hruns run hrun).below e he
      _ ≤ m * runs.length := Nat.le_mul_of_pos_right m hcolumn
      _ < 2 ^ 63 := hsize

private theorem exists_index_numbered {β : Type} {nameOf : β → Option String} {l : List β}
    {text : String}
    {k : ℕ} (h : l.map nameOf = (List.range k).map fun i => some (text ++ toString i))
    (kind : EntityKind) : ∃ table, Names.index (α := ℚ) kind [] 0 (l.map nameOf) = .ok table := by
  have hnames : l.filterMap nameOf = (List.range k).map fun i => text ++ toString i := by
    rw [← Function.id_comp nameOf, ← List.filterMap_map, h, List.filterMap_map]
    exact congrFun List.filterMap_eq_map _
  refine ⟨_, Names.index_eq_ok_iff.mpr ⟨?_, rfl⟩⟩
  rw [hnames]
  exact List.nodup_range.map fun i j hij =>
    Nat.repr_inj.mp ((String.append_right_inj text).mp hij)

/-- One item for each number, with a property and with the name that the number makes. -/
theorem always_numbered {β : Type} {P : β → Prop} {nameOf : β → Option String} {text : String}
    {draw : ℕ → StateM σ β}
    (hdraw : ∀ k, Always (fun b => P b ∧ nameOf b = some (text ++ toString k)) (draw k)) :
    Always (fun l => (∀ b ∈ l, P b) ∧
      l.map nameOf = (List.range n).map fun k => some (text ++ toString k))
      ((List.range n).mapM draw) := by
  refine (always_mapM fun k _ => hdraw k).imp fun l hl => ?_
  obtain ⟨hall, hnames⟩ := (List.forall₂_and_left l (List.range n)).mp hl.flip
  refine ⟨hall, ?_⟩
  rw [← List.forall₂_eq_eq_eq, List.forall₂_map_left_iff, List.forall₂_map_right_iff]
  exact hnames

private theorem whole_nonneg (k : ℕ) : (0 : ℚ) ≤ whole k := by
  show (0 : ℚ) ≤ ((k : ℤ) : ℚ)
  positivity

section

variable (hd : d.Lawful)

include hd

/-- As long as places fit into words, a random problem is drawn. -/
theorem always_generate (hm : 0 < m) (hsize : m * n < 2 ^ 63) (density : Extended ℚ) :
    AlwaysReturns (ProblemParts.Packs m n) (generate d m n density) := by
  have hlimit (i : ℕ) : Always (fun r => r.Caps ∧ r.name = some ("c" ++ toString i))
      (limit d (whole n * whole 2) (whole n * whole 6) (some ("c" ++ toString i))) :=
    always_limit hd (mul_nonneg (whole_nonneg n) (whole_nonneg 2))
      (mul_nonneg (whole_nonneg n) (whole_nonneg 6)) _
  have hcolumn (j : ℕ) : Always (fun x => x.Ray ∧ x.name = some ("x" ++ toString j)) (do
      let cost ← d.between (whole 1) (whole 4)
      return { Column.free with objective := .finite cost, name := some ("x" ++ toString j) }) :=
    fun _ => ⟨⟨rfl, rfl, rfl⟩, rfl⟩
  unfold generate
  simp only [Int.toNat_natCast]
  refine (always_numbered hlimit).bind fun rows ⟨hcaps, hrowNames⟩ => ?_
  refine (always_numbered hcolumn).bind fun columns ⟨hrays, hcolumnNames⟩ => ?_
  refine (always_columnRuns hd hm density n).bind ?_
  rintro _ ⟨runs, rfl, hlength, hruns⟩
  have hmatrix : matrixOf runs m = .ok ⟨m, runs, []⟩ :=
    matrixOf_eq_ok (fun run hrun => (hruns run hrun).1) (hlength ▸ hsize)
  have hrows : rows.length = m := by simpa using congrArg List.length hrowNames
  have hcolumns : columns.length = n := by simpa using congrArg List.length hcolumnNames
  refine always_pure ⟨⟨rows, columns, ⟨m, runs, []⟩⟩, by rw [hmatrix]; rfl, hrows, hcolumns, rfl,
    hlength, fun j hj => ?_, ?_⟩
  · have hrun : runs[j]? = some (runs.getD j []) := by
      rw [List.getD_eq_getElem?_getD, List.getElem?_eq_getElem (hlength.symm ▸ hj)]
      rfl
    exact List.append_ne_nil_of_left_ne_nil (hruns _ (List.mem_of_getElem? hrun)).2 _
  · rw [SparseMatrix.entries_columns]
    exact Contents.packing_ofColumns hcaps hrays (exists_index_numbered hrowNames .row)
      (exists_index_numbered hcolumnNames .column) (hlength.trans hcolumns.symm)
      (fun run hrun => hrows ▸ (hruns run hrun).1) fun run hrun => (hruns run hrun).2

private theorem always_cutEntries (density : Extended ℚ) (places : List ℕ) :
    Always (fun es => (es.map (·.1)).Sublist places ∧ ∀ e ∈ es, 0 < e.2)
      (cutEntries d density places) := by
  have hany : Always (fun _ => True) d.drawFraction := fun _ => trivial
  induction places with
  | nil => exact always_pure ⟨.slnil, by simp⟩
  | cons j places ih =>
      refine hany.bind fun u _ => ?_
      split
      · refine (always_coefficient hd).bind fun v hv => ih.bind fun es ⟨hes, hpositive⟩ => ?_
        exact always_pure ⟨hes.cons_cons j, List.forall_mem_cons.mpr ⟨hv, hpositive⟩⟩
      · exact ih.imp fun es ⟨hes, hpositive⟩ => ⟨hes.cons j, hpositive⟩

private theorem always_cut (n : ℕ) (density : Extended ℚ) :
    AlwaysReturns (Cut.Packs n) (cut d n density) := by
  have hlimit : Always (fun r => r.Caps ∧ r.name = none)
      (limit d (whole 1) (whole n * whole 3) none) :=
    always_limit hd (whole_nonneg 1) (mul_nonneg (whole_nonneg n) (whole_nonneg 3)) _
  have hrow {es : List (ℕ × ℚ)} (hes : Positive n es) :
      AlwaysReturns (Cut.Packs n) (do
        let row ← limit d (whole 1) (whole n * whole 3) none
        return .ok ⟨row, es⟩ : StateM σ (Except (Fault ℚ) (Cut ℚ))) :=
    hlimit.bind fun row ⟨hcaps, hname⟩ => always_pure ⟨_, rfl, hcaps, hname, hes⟩
  unfold cut
  rw [Int.toNat_natCast]
  refine (always_cutEntries hd density (List.range n)).bind fun es ⟨hes, hpositive⟩ => ?_
  simp only
  split
  · next hempty =>
    have hn : 0 < n := by
      rw [Bool.and_eq_true, decide_eq_true_eq] at hempty
      omega
    refine (always_pick hd hn).bind ?_
    rintro _ ⟨j, rfl, hj⟩
    refine (always_coefficient hd).bind fun v hv => hrow ⟨?_, ?_, ?_⟩
    · exact List.nodup_singleton j
    · exact List.forall_mem_singleton.mpr hj
    · exact List.forall_mem_singleton.mpr hv
  · refine hrow ⟨hes.nodup List.nodup_range, fun e he => ?_, hpositive⟩
    exact List.mem_range.mp (hes.subset (List.mem_map_of_mem he))

theorem always_cuts (n : ℕ) (density : Extended ℚ) (k : ℕ) :
    AlwaysReturns (fun batch => batch.length = k ∧ ∀ c ∈ batch, c.Packs n)
      (cuts d n density k) := by
  induction k with
  | zero => exact always_pure ⟨[], rfl, rfl, by simp⟩
  | succ k ih =>
      refine (always_cut hd n density).bind ?_
      rintro _ ⟨c, rfl, hc⟩
      refine ih.bind ?_
      rintro _ ⟨batch, rfl, hlength, hbatch⟩
      exact always_pure ⟨c :: batch, rfl, congrArg Nat.succ hlength,
        List.forall_mem_cons.mpr ⟨hc, hbatch⟩⟩

end

end RandomProblem

end IncrementalLP
