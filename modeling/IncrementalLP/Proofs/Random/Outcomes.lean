import IncrementalLP.Proofs.Random.Problem
import IncrementalLP.Proofs.Session.Roots
/-!
# Outcomes of random problems

A random problem can be loaded, and it stays a packing problem however many cuts are added to it,
before and after solves. No exact solve finds that it is infeasible or unbounded.
-/
namespace IncrementalLP

namespace Instance

variable {i : Instance ℚ} {c : Contents ℚ}

private theorem Contains.sound (hi : i.Contains c) (hc : c.Accepted) : i.Sound where
  matrixRows := hi.numRows.trans (congrArg List.length hi.rows).symm
  matrixColumns := hi.numColumns.trans (congrArg List.length hi.columns).symm
  rows := hi.rows ▸ Row.checkEach_eq_ok.mp hc.rows
  columns := hi.columns ▸ Column.checkEach_eq_ok.mp hc.columns

private theorem Contains.recordSolve (hi : i.Contains c) (r : SolveResult ℚ) :
    (i.recordSolve r).Contains c :=
  ⟨hi.loaded, hi.sense, hi.rows, hi.columns, hi.rowTable, hi.columnTable, hi.numRows,
    hi.numColumns, hi.entries⟩

private theorem after_of_options (i : Instance ℚ) {op : Operation ℚ} {o : SolveOptions ℚ}
    (h : op.options? = some o) : op.after i = i ∨ ∃ r, op.after i = i.recordSolve r := by
  cases op with
  | solveCold s o => exact (Session.solveCold_course s i o).state
  | solveWarm s handle o => exact (Session.solveWarm_course s i o handle).state
  | solve s o => exact (Session.solve_course s i o).state
  | load | assignNames | addRow | addRows | addColumns | changeBounds | changeObjective
    | changeSense => cases h

/-- The instance holds a packing problem of a number of columns, and warm solves start well. -/
structure Packs (n : ℕ) (i : Instance ℚ) : Prop where
  rooted : i.Rooted
  contents : ∃ c : Contents ℚ, i.Contains c ∧ c.Packing ∧ c.columns.length = n

variable {n : ℕ}

private theorem Packs.sound (hi : i.Packs n) : i.Sound :=
  let ⟨_, hcontains, hpacking, _⟩ := hi.contents
  hcontains.sound hpacking.toAccepted

private theorem Packs.results (hi : i.Packs n) {o : SolveOptions ℚ} (htol : o.tolerance = 0)
    {r : SolveResult ℚ} (hr : i.Results o r) : r.status ≠ .infeasible ∧ r.status ≠ .unbounded := by
  obtain ⟨c, hcontains, hpacking, -⟩ := hi.contents
  refine Confirms.of_packing ?_ hcontains hpacking
  cases hr with
  | cold => exact solvePrimal_confirms hi.sound htol
  | warm hbasis =>
      exact solveDual_confirms hi.sound htol _ (hi.rooted.startsRegular hi.sound hbasis)

end Instance

namespace RandomProblem

open Instance

variable {i : Instance ℚ} {m n : ℕ}

/-- A number of cuts is appended. -/
def appending (batch : List (Cut ℚ)) : Operation ℚ :=
  .addRows (batch.map (·.row)) (.ok (batch.map fun c => .ok c.offered))

/-- Drawn cuts of a number of columns are appended, or the instance is solved. -/
inductive Extends (n : ℤ) : Operation ℚ → Prop
  | cuts {σ : Type} {d : DrawSource σ ℚ} {density : Extended ℚ} {count : ℕ} {s : σ}
      {batch : List (Cut ℚ)} : d.Lawful → (cuts d n density count s).1 = .ok batch →
      Extends n (appending batch)
  | solve {op : Operation ℚ} {o : SolveOptions ℚ} : op.options? = some o → 0 ≤ o.tolerance →
      Extends n op

private theorem lists_offered (hn : n ≤ 2 ^ 63) {c : Cut ℚ} (hc : c.Packs n) :
    SparseMatrix.Lists (.ok c.offered) c.entries := by
  refine ⟨(c.entries.map (·.1)).map Int64.ofNat, SparseMatrix.words_ofNat fun k hk => ?_, ?_⟩
  · obtain ⟨e, he, rfl⟩ := List.mem_map.mp hk
    exact (hc.entries.below e he).trans_le hn
  · rw [Cut.offered, List.map_map, List.map_map]
    rfl

/-- Cuts can be appended to a packing problem, and it stays one. -/
theorem exists_addCuts (hi : i.Packs n) (hn : n ≤ 2 ^ 63) {batch : List (Cut ℚ)}
    (hbatch : ∀ c ∈ batch, c.Packs n) :
    ∃ j, (addRows (batch.map (·.row)) (.ok (batch.map fun c => .ok c.offered))).Returns i j
        (List.range' i.numRows batch.length) ∧ j.Packs n := by
  obtain ⟨c, hcontains, hpacking, hcolumns⟩ := hi.contents
  have hcaps : ∀ r ∈ batch.map (·.row), r.Caps ∧ r.name = none :=
    List.forall_mem_map.mpr fun c hc => ⟨(hbatch c hc).caps, (hbatch c hc).nameless⟩
  have hruns : ∀ run ∈ batch.map (·.entries), Positive c.columns.length run :=
    List.forall_mem_map.mpr fun c hc => hcolumns ▸ (hbatch c hc).entries
  have hlength : (batch.map (·.entries)).length = (batch.map (·.row)).length := by simp
  have hlists : List.Forall₂ SparseMatrix.Lists (batch.map fun c => .ok c.offered)
      (batch.map (·.entries)) := by
    rw [List.forall₂_map_left_iff, List.forall₂_map_right_iff, List.forall₂_same]
    exact fun c hc => lists_offered hn (hbatch c hc)
  have hgrown := hpacking.withRows hcaps hruns hlength
  obtain ⟨j, hreturns, hj⟩ := hcontains.addRows hgrown.toAccepted hlists hlength
  rw [List.length_map] at hreturns
  exact ⟨j, hreturns, hi.rooted.undisturbed (undisturbed_of_addRows hreturns),
    _, hj, hgrown, hcolumns⟩

private theorem Extends.after (hn : n ≤ 2 ^ 63) {op : Operation ℚ} (h : Extends n op)
    (hi : i.Packs n) :
    (op.after i).Packs n := by
  cases h with
  | @cuts σ d density count s batch hd hbatch =>
      obtain ⟨_, heq, -, hall⟩ := always_cuts hd n density count s
      obtain rfl := Except.ok.inj (heq.symm.trans hbatch)
      obtain ⟨j, hreturns, hj⟩ := exists_addCuts hi hn hall
      rwa [appending, Operation.after, hreturns.1]
  | @solve op o ho htol =>
      have htolerant : op.Tolerant := fun o' ho' => Option.some.inj (ho.symm.trans ho') ▸ htol
      refine ⟨hi.rooted.after hi.sound htolerant, ?_⟩
      obtain ⟨c, hcontains, hpacking, hcolumns⟩ := hi.contents
      refine ⟨c, ?_, hpacking, hcolumns⟩
      obtain heq | ⟨r, heq⟩ := after_of_options i ho
      · rwa [heq]
      · rw [heq]
        exact hcontains.recordSolve r

/-- What a run of calls preserves. -/
theorem packs_run (hn : n ≤ 2 ^ 63) (hi : i.Packs n) {ops : List (Operation ℚ)}
    (hops : ∀ op ∈ ops, Extends n op) : (Operation.run i ops).Packs n := by
  induction ops generalizing i with
  | nil => exact hi
  | cons op ops ih =>
      obtain ⟨hop, hrest⟩ := List.forall_mem_cons.mp hops
      exact ih (hop.after hn hi) hrest

private theorem exists_load_packs {p : ProblemParts ℚ} (hp : p.Packs m n) (i : Instance ℚ)
    (name : String) :
    ∃ j, (load ⟨name, .ok .max, p.rows, p.columns, .held p.matrix⟩).Returns i j () ∧
      j.Packs n := by
  have hlists : (⟨name, .ok .max, p.rows, p.columns, .held p.matrix⟩ : Description ℚ).Lists
      ⟨.max, p.rows, p.columns, p.matrix.entries⟩ :=
    ⟨rfl, rfl, rfl, (hp.numRows.trans hp.rows.symm).le, hp.numColumns.trans hp.columns.symm,
      .refl _⟩
  obtain ⟨j, hreturns, hj⟩ := exists_load hlists hp.packing.toAccepted i
  refine ⟨j, hreturns, rooted_of_none ?_, _, hj, hp.packing, hp.columns⟩
  obtain ⟨_, _, _, _, -, -, -, -, -, -, -, -, rfl⟩ := load_returns.mp hreturns
  rfl

/-- With one row at least, and as long as the places of the table can be counted in words, a random
problem is drawn whatever the draws are; each of its columns has an entry, and it can be loaded.
After any number of solves and of batches of cuts more cuts are drawn and accepted, zero is
feasible, the objective is bounded, and no exact solve, cold or warm, finds otherwise. -/
theorem solvable_of_draws {σ : Type} {d : DrawSource σ ℚ} (hd : d.Lawful) {numRows numColumns : ℤ}
    (hrows : 1 ≤ numRows) (hcolumns : 0 ≤ numColumns) (hsize : numRows * numColumns < 2 ^ 63)
    (density : Extended ℚ) (s : σ) :
    ∃ p, (generate d numRows numColumns density s).1 = .ok p ∧
      ((p.rows.length : ℤ) = numRows ∧ (p.columns.length : ℤ) = numColumns ∧
        (p.matrix.numRows : ℤ) = numRows ∧ (p.matrix.numColumns : ℤ) = numColumns ∧
        ∀ j : ℕ, j < numColumns → p.matrix.columnEntries j ≠ []) ∧
      ∀ (i : Instance ℚ) (name : String), ∃ loaded,
        (load ⟨name, .ok .max, p.rows, p.columns, .held p.matrix⟩).Returns i loaded () ∧
        ∀ ops : List (Operation ℚ), (∀ op ∈ ops, Extends numColumns op) →
          let j := Operation.run loaded ops
          (∀ {τ : Type} {e : DrawSource τ ℚ}, e.Lawful → ∀ density count t, ∃ batch k,
            (cuts e numColumns density count t).1 = .ok batch ∧ batch.length = count ∧
            (addRows (batch.map (·.row)) (.ok (batch.map fun c => .ok c.offered))).Returns j k
              (List.range' j.numRows count)) ∧
          j.Feasible 0 ∧ (∃ K, ∀ v, j.Feasible v → j.value v ≤ K) ∧
          ∀ o r, o.tolerance = 0 → j.Results o r →
            r.status ≠ .infeasible ∧ r.status ≠ .unbounded := by
  lift numRows to ℕ using by omega
  lift numColumns to ℕ using hcolumns
  have hm : 0 < numRows := by omega
  have hproduct : numRows * numColumns < 2 ^ 63 := by exact_mod_cast hsize
  have hn : numColumns ≤ 2 ^ 63 := (Nat.le_mul_of_pos_left numColumns hm).trans hproduct.le
  obtain ⟨p, hdrawn, hp⟩ := always_generate hd hm hproduct density s
  refine ⟨p, hdrawn, ⟨by rw [hp.rows], by rw [hp.columns], by rw [hp.numRows],
    by rw [hp.numColumns], fun j hj => hp.covers j (by exact_mod_cast hj)⟩, fun i name => ?_⟩
  obtain ⟨loaded, hload, hloaded⟩ := exists_load_packs hp i name
  refine ⟨loaded, hload, fun ops hops => ?_⟩
  have hj := packs_run hn hloaded hops
  obtain ⟨c, hcontains, hpacking, -⟩ := hj.contents
  refine ⟨fun he density count t => ?_, hcontains.feasible_zero hpacking,
    hcontains.value_bounded hpacking, fun o r htol hr => hj.results htol hr⟩
  obtain ⟨batch, hbatch, hlength, hall⟩ := always_cuts he numColumns density count t
  obtain ⟨k, hreturns, -⟩ := exists_addCuts hj hn hall
  exact ⟨batch, k, hbatch, hlength, hlength ▸ hreturns⟩

/-- A problem that the twister draws, solved after cuts have been appended. -/
theorem solvable_of_draws_sample :
    ∃ p loaded batch grown,
      (generate Twister.source 2 3 (.finite (1 / 2)) (Twister.ofSeed 7)).1 = .ok p ∧
      (load ⟨"random", .ok .max, p.rows, p.columns, .held p.matrix⟩).Returns
        (.declare 0 "random") loaded () ∧
      (cuts Twister.source 3 .posInf 4 (Twister.ofSeed 8)).1 = .ok batch ∧
      (addRows (batch.map (·.row)) (.ok (batch.map fun c => .ok c.offered))).Returns loaded grown
        [2, 3, 4, 5] ∧
      (grown.solvePrimal Sample.exact).result.status ≠ .infeasible ∧
      (grown.solvePrimal Sample.exact).result.status ≠ .unbounded := by
  obtain ⟨p, hp, ⟨hrows, -⟩, hload⟩ := solvable_of_draws Twister.source_lawful
    (by decide : (1 : ℤ) ≤ 2) (by decide : (0 : ℤ) ≤ 3) (by decide) (.finite (1 / 2))
    (Twister.ofSeed 7)
  obtain ⟨loaded, hreturns, hrun⟩ := hload (.declare 0 "random") "random"
  obtain ⟨haccepted, -⟩ := hrun [] (by simp)
  obtain ⟨batch, grown, hbatch, -, hgrown⟩ :=
    haccepted Twister.source_lawful .posInf 4 (Twister.ofSeed 8)
  have hop : Extends 3 (appending batch) := .cuts Twister.source_lawful hbatch
  obtain ⟨-, -, -, hstatus⟩ := hrun [appending batch] (by simpa using hop)
  have hafter : Operation.run loaded [appending batch] = grown := hgrown.1
  rw [hafter] at hstatus
  have hnumRows : loaded.numRows = 2 := by
    obtain ⟨_, _, _, _, -, -, -, -, -, -, -, -, rfl⟩ := load_returns.mp hreturns
    exact_mod_cast hrows
  refine ⟨p, loaded, batch, grown, hp, hreturns, hbatch, ?_, hstatus Sample.exact _ rfl .cold⟩
  rw [show Operation.run loaded [] = loaded from rfl, hnumRows] at hgrown
  exact hgrown

end RandomProblem

end IncrementalLP
