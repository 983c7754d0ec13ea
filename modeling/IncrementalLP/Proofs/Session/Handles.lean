import IncrementalLP.Proofs.Instance.History
import IncrementalLP.Proofs.Matrix.Entries
import IncrementalLP.Proofs.Session.Solves
/-!
# Kept handles

An instance keeps the handle of its last solve as long as that solve was optimal and the problem
that was solved is still the first part of the instance. A warm solve goes ahead from that handle
and from no other.
-/
namespace IncrementalLP.Instance

variable {α : Type}

/-- The second instance holds the first one: up to names it has the same columns, the same first
rows, and the same entries in them. -/
structure Retains (i j : Instance α) : Prop where
  token : j.token = i.token
  sense : j.sense = i.sense
  columns : j.columns.map Column.bare = i.columns.map Column.bare
  rows : (j.rows.take i.numRows).map Row.bare = i.rows.map Row.bare
  entries : j.matrix.entries.filter (·.row < i.numRows) =
    i.matrix.entries.filter (·.row < i.numRows)

namespace Retains

variable {i j k : Instance α}

theorem refl (i : Instance α) : Retains i i where
  token := rfl
  sense := rfl
  columns := rfl
  rows := by rw [numRows, List.take_length]
  entries := rfl

theorem numRows_le (h : Retains i j) : i.numRows ≤ j.numRows := by
  have hlength := congrArg List.length h.rows
  rw [List.length_map, List.length_map, List.length_take] at hlength
  unfold numRows at *
  omega

theorem numColumns_eq (h : Retains i j) : j.numColumns = i.numColumns :=
  length_eq_of_map_eq h.columns

theorem trans (h₁ : Retains i j) (h₂ : Retains j k) : Retains i k where
  token := h₂.token.trans h₁.token
  sense := h₂.sense.trans h₁.sense
  columns := h₂.columns.trans h₁.columns
  rows := by
    have hrows := congrArg (List.take i.numRows) h₂.rows
    rw [← List.map_take, ← List.map_take, List.take_take, min_eq_left h₁.numRows_le] at hrows
    exact hrows.trans h₁.rows
  entries := by
    have hsub : ∀ l : List (Entry α), l.filter (·.row < i.numRows) =
        (l.filter (·.row < j.numRows)).filter (·.row < i.numRows) := by
      intro l
      rw [List.filter_filter]
      refine List.filter_congr fun e _ => ?_
      have := h₁.numRows_le
      by_cases he : e.row < i.numRows
      · simp [he, lt_of_lt_of_le he this]
      · simp [he]
    rw [hsub, h₂.entries, ← hsub, h₁.entries]

theorem recordSolve (i : Instance α) (r : SolveResult α) : Retains i (i.recordSolve r) where
  token := rfl
  sense := rfl
  columns := rfl
  rows := (refl i).rows
  entries := rfl

end Retains

/-- The second instance holds the first one, and what is known of the last solve is the same. -/
structure Undisturbed (i j : Instance α) : Prop extends Retains i j where
  basis : j.basis = i.basis
  progress : i.progress ≠ .unsolved → j.progress ≠ .unsolved
  solves : j.solves = i.solves

theorem Undisturbed.refl (i : Instance α) : Undisturbed i i where
  toRetains := .refl i
  basis := rfl
  progress := id
  solves := rfl

private theorem markExtended_progress {i : Instance α} (h : i.progress ≠ .unsolved) :
    i.markExtended.progress ≠ .unsolved := by
  unfold markExtended
  simp only
  split
  · nofun
  · exact h

section

variable {i j : Instance α} {u : Unit}

theorem undisturbed_of_addRows {rows : List (Row α)} {entries : Offer (List (Offer (RowEntries α)))}
    {ks : List ℕ} (h : (addRows rows entries).Returns i j ks) : Undisturbed i j := by
  obtain ⟨-, lists, added, table, -, -, -, -, hsize, -, -, rfl⟩ := addRows_returns.mp h
  refine ⟨⟨rfl, rfl, rfl, ?_, ?_⟩, rfl, fun hprogress => ?_, rfl⟩
  · simp only [numRows, List.take_left]
  · simp only
    rw [SparseMatrix.entries_appendRows, List.filter_append, List.append_right_eq_self,
      List.filter_eq_nil_iff]
    intro e he
    have hrow := (SparseMatrix.row_of_mem_ofRows he).1
    rw [hsize] at hrow
    simpa using hrow
  · simp only
    split
    · exact hprogress
    · exact markExtended_progress hprogress

theorem undisturbed_of_addRow {row : Except Complaint (Row α)} {entries : Offer (RowEntries α)}
    {k : ℕ} (h : (addRow row entries).Returns i j k) : Undisturbed i j := by
  obtain ⟨-, r, -, hrows⟩ := addRow_returns.mp h
  exact undisturbed_of_addRows hrows

theorem undisturbed_of_assignNames {kind : Except String EntityKind}
    {names : Offer (List Names.Given)} {first last : ℤ}
    (h : (assignNames kind names first last).Returns i j u) : Undisturbed i j := by
  obtain ⟨-, given, texts, table, -, ⟨-, -, rfl⟩ | ⟨-, -, rfl⟩⟩ := assignNames_returns.mp h
  · have hrows := Row.map_bare_overwrite first.toNat texts i.rows
    have hlength := length_eq_of_map_eq hrows
    refine ⟨⟨rfl, rfl, rfl, ?_, rfl⟩, rfl, id, rfl⟩
    simp only [numRows, ← hlength, List.take_length, hrows]
  · have hcolumns := Column.map_bare_overwrite first.toNat texts i.columns
    exact ⟨⟨rfl, rfl, hcolumns, (Retains.refl i).rows, rfl⟩, rfl, id, rfl⟩

private theorem checkSense_eq_ok {sense : Except String Sense} {s : Sense} :
    (checkSense sense : Except (Fault α) Sense) = .ok s ↔ sense = .ok s := by
  cases sense <;> simp [checkSense]

/-- The second instance is the first one after a change that makes its basis useless. -/
structure Cleared (i j : Instance α) : Prop where
  token : j.token = i.token
  basis : j.basis = none
  solves : j.solves = i.solves

private theorem changeSense_cases {sense : Except String Sense}
    (h : (changeSense sense).Returns i j u) :
    sense = .ok i.sense ∧ Undisturbed i j ∨ sense ≠ .ok i.sense ∧ Cleared i j := by
  obtain ⟨-, s, hs, rfl⟩ := changeSense_returns.mp h
  rw [checkSense_eq_ok.mp hs]
  by_cases hsense : s = i.sense
  · rw [if_pos hsense, hsense]
    exact Or.inl ⟨rfl, .refl i⟩
  · rw [if_neg hsense]
    exact Or.inr ⟨fun heq => hsense (Except.ok.inj heq), rfl, rfl, rfl⟩

variable [Scalar α]

private theorem cleared_of_load {d : Description α} (h : (load d).Returns i j u) : Cleared i j := by
  obtain ⟨sense, matrix, rowTable, columnTable, -, -, -, -, -, -, -, -, rfl⟩ := load_returns.mp h
  exact ⟨rfl, rfl, rfl⟩

private theorem addColumns_cases {columns : List (Column α)} {count : Offer ℕ}
    {starts rows : Offer IndexArray} {values : Offer (ValueArray α)} {ks : List ℕ}
    (hstarts : ∀ v, starts = .ok (.integers v) → count = .ok v.length)
    (h : (addColumns columns count starts rows values).Returns i j ks) :
    columns = [] ∧ Undisturbed i j ∨ columns ≠ [] ∧ Cleared i j := by
  obtain ⟨-, hcount, s, r, v, added, table, -, -, hs, -, -, hadded, -, rfl⟩ :=
    addColumns_returns.mp h
  cases columns with
  | cons c columns => exact Or.inr ⟨by simp, rfl, rfl, rfl⟩
  | nil =>
      have hlength := hstarts s (readPositions_eq_ok.mp hs)
      rw [hcount] at hlength
      have hone : s.length = 1 := (Except.ok.inj hlength).symm
      have hadded : added = [] := by
        rw [← List.length_eq_zero_iff, SparseMatrix.length_checkedRuns hadded, hone]
      subst hadded
      refine Or.inl ⟨rfl, ⟨rfl, rfl, ?_, (Retains.refl i).rows, ?_⟩, rfl, id, rfl⟩
      · simp only [List.append_nil]
      · simp only [List.append_nil]

private theorem mapM_eq_nil {β γ ε : Type} {f : β → Except ε γ} {l : List β} {l' : List γ}
    (h : l.mapM f = .ok l') : l = [] ↔ l' = [] := by
  cases l with
  | nil =>
      rw [List.mapM_nil, pure_eq_ok] at h
      exact iff_of_true rfl h.symm
  | cons b l =>
      simp only [List.mapM_cons, bind_eq_ok, pure_eq_ok] at h
      obtain ⟨c, -, l'', -, rfl⟩ := h
      simp

private theorem changeBounds_cases {changes : Offer (List (Offer (BoundChange α)))}
    (h : (changeBounds changes).Returns i j u) :
    changes = .ok [] ∧ Undisturbed i j ∨ changes ≠ .ok [] ∧ Cleared i j := by
  obtain ⟨-, offers, staged, rfl, hstaged, rfl⟩ := changeBounds_returns.mp h
  cases staged with
  | nil =>
      rw [(mapM_eq_nil hstaged).mpr rfl]
      exact Or.inl ⟨rfl, .refl i⟩
  | cons s staged =>
      refine Or.inr ⟨?_, rfl, rfl, rfl⟩
      rintro heq
      cases (mapM_eq_nil hstaged).mp (Except.ok.inj heq)

theorem changeObjective_cases {changes : Offer (List (Offer (CostChange α)))}
    (h : (changeObjective changes).Returns i j u) :
    changes = .ok [] ∧ Undisturbed i j ∨ changes ≠ .ok [] ∧ Cleared i j := by
  obtain ⟨-, offers, staged, ks, rfl, hstaged, hks, rfl⟩ := changeObjective_returns.mp h
  cases staged with
  | nil =>
      rw [(mapM_eq_nil hstaged).mpr rfl]
      rw [(mapM_eq_nil hks).mp rfl]
      exact Or.inl ⟨rfl, .refl i⟩
  | cons s staged =>
      refine Or.inr ⟨?_, rfl, rfl, rfl⟩
      rintro heq
      cases (mapM_eq_nil hstaged).mp (Except.ok.inj heq)

end

namespace Operation

variable [Scalar α] {i : Instance α} {op : Operation α}

/-- The result of a solve that returns. -/
def result? (i : Instance α) : Operation α → Option (SolveResult α)
  | .solveCold s o => (Session.solveCold o (s, i)).answer.toOption
  | .solveWarm s h o => (Session.solveWarm h o (s, i)).answer.toOption
  | .solve s o => (Session.solve o (s, i)).answer.toOption
  | _ => none

/-- The call returns, or it is a solve by a session on the simplex engine. -/
def Completes (i : Instance α) : Operation α → Prop
  | .load d => ∃ u, (i.load d).answer = .ok u
  | .assignNames kind names first last => ∃ u, (i.assignNames kind names first last).answer = .ok u
  | .addRow row entries => ∃ k, (i.addRow row entries).answer = .ok k
  | .addRows rows entries => ∃ ks, (i.addRows rows entries).answer = .ok ks
  | .addColumns columns count starts rows values _ =>
    ∃ ks, (i.addColumns columns count starts rows values).answer = .ok ks
  | .changeBounds changes => ∃ u, (i.changeBounds changes).answer = .ok u
  | .changeObjective changes => ∃ u, (i.changeObjective changes).answer = .ok u
  | .changeSense sense => ∃ u, (i.changeSense sense).answer = .ok u
  | .solveCold s _ | .solveWarm s _ _ | .solve s _ => ∃ e, s.engine = .simplex e

/-- The call leaves the problem that was solved in place: it appends rows, gives names, makes no
change at all, or is a solve that fails. -/
def Keeps (i : Instance α) : Operation α → Prop
  | .load _ => False
  | .assignNames .. | .addRow .. | .addRows .. => True
  | .addColumns columns .. => columns = []
  | .changeBounds changes => changes = .ok []
  | .changeObjective changes => changes = .ok []
  | .changeSense sense => sense = .ok i.sense
  | .solveCold s o => ∃ f, (Session.solveCold o (s, i)).answer = .error f
  | .solveWarm s h o => ∃ f, (Session.solveWarm h o (s, i)).answer = .error f
  | .solve s o => ∃ f, (Session.solve o (s, i)).answer = .error f

/-- The session of a solve. -/
def session? {α : Type} : Operation α → Option (Session α)
  | .solveCold s _ | .solveWarm s _ _ | .solve s _ => some s
  | _ => none

/-- The options that a solve is asked for. -/
def options? {α : Type} : Operation α → Option (SolveOptions α)
  | .solveCold s o | .solveWarm s _ o | .solve s o => some (o.getD s.options)
  | _ => none

/-- Everything that a call, returned or failed, can do: nothing to the last solve, or it drops its
handle, or it is a solve. Only a change of costs can also fail halfway. -/
inductive Conduct (i : Instance α) : Operation α → Prop
  | kept {op : Operation α} : Undisturbed i (op.after i) → Conduct i op
  | dropped {op : Operation α} : (op.after i).basis = none → Conduct i op
  | costs (changes : Offer (List (Offer (CostChange α)))) : Conduct i (.changeObjective changes)
  | solved {op : Operation α} {s : Session α} {o : SolveOptions α}
      {a : Attempt (Solving α) α (SolveResult α)} : op.session? = some s → op.options? = some o →
      s.Course i o a → op.after i = a.state.2 → Conduct i op

theorem conduct (i : Instance α) (op : Operation α) : Conduct i op := by
  have of_atomic : ∀ {op : Operation α}, (Undisturbed i (op.after i) ∨ Cleared i (op.after i)) →
      Conduct i op := fun h => h.elim .kept fun hc => .dropped hc.basis
  have of_cases : ∀ {j : Instance α} {p q : Prop}, (p ∧ Undisturbed i j ∨ q ∧ Cleared i j) →
      Undisturbed i j ∨ Cleared i j := fun h => h.imp And.right And.right
  have hi : Undisturbed i i ∨ Cleared i i := Or.inl (.refl i)
  cases op with
  | load d =>
      exact of_atomic ((load_atomic d).state_induction hi fun h => Or.inr (cleared_of_load h))
  | assignNames kind names first last =>
      exact of_atomic ((assignNames_atomic kind names first last).state_induction hi fun h =>
        Or.inl (undisturbed_of_assignNames h))
  | addRow row entries =>
      exact of_atomic ((addRow_atomic row entries).state_induction hi fun h =>
        Or.inl (undisturbed_of_addRow h))
  | addRows rows entries =>
      exact of_atomic ((addRows_atomic rows entries).state_induction hi fun h =>
        Or.inl (undisturbed_of_addRows h))
  | addColumns columns count starts rows values counted =>
      exact of_atomic ((addColumns_atomic columns count starts rows values).state_induction hi
        fun h => of_cases (addColumns_cases counted h))
  | changeBounds changes =>
      exact of_atomic ((changeBounds_atomic changes).state_induction hi fun h =>
        of_cases (changeBounds_cases h))
  | changeObjective changes => exact .costs changes
  | changeSense sense =>
      exact of_atomic ((changeSense_atomic sense).state_induction hi fun h =>
        of_cases (changeSense_cases h))
  | solveCold s o => exact .solved rfl rfl (Session.solveCold_course s i o) rfl
  | solveWarm s h o => exact .solved rfl rfl (Session.solveWarm_course s i o h) rfl
  | solve s o => exact .solved rfl rfl (Session.solve_course s i o) rfl

/-- Everything that a call can do to what is known of the last solve. -/
inductive Effect (i : Instance α) (op : Operation α) : Prop
  | kept : op.Keeps i → op.result? i = none → Undisturbed i (op.after i) → Effect i op
  | cleared : ¬ op.Keeps i → op.result? i = none → Cleared i (op.after i) → Effect i op
  | solved {r : SolveResult α} : ¬ op.Keeps i → op.result? i = some (i.recorded r) → i.Bases r →
      op.after i = i.recordSolve r → Effect i op

private theorem Effect.of_change {p : Prop} (hkeeps : op.Keeps i ↔ p)
    (hresult : op.result? i = none)
    (h : p ∧ Undisturbed i (op.after i) ∨ ¬ p ∧ Cleared i (op.after i)) : Effect i op := by
  rw [← hkeeps] at h
  rcases h with ⟨hp, hi⟩ | ⟨hp, hi⟩
  · exact .kept hp hresult hi
  · exact .cleared hp hresult hi

private theorem Effect.of_settled {a : Attempt (Solving α) α (SolveResult α)}
    (hkeeps : op.Keeps i ↔ ∃ f, a.answer = .error f) (hresult : op.result? i = a.answer.toOption)
    (hafter : op.after i = a.state.2) (h : Session.Settled i a) : Effect i op := by
  rcases h with ⟨⟨f, hanswer⟩, hstate⟩ | ⟨r, hr, hanswer, hstate⟩
  · refine .kept (hkeeps.mpr ⟨f, hanswer⟩) (hresult.trans (by rw [hanswer]; rfl)) ?_
    rw [hafter, hstate]
    exact .refl i
  · refine .solved (fun h => ?_) (hresult.trans (by rw [hanswer]; rfl)) hr (hafter.trans hstate)
    obtain ⟨f, hf⟩ := hkeeps.mp h
    rw [hanswer] at hf
    cases hf

theorem Completes.effect (h : op.Completes i) : Effect i op := by
  cases op with
  | load d =>
      obtain ⟨_, hanswer⟩ := h
      exact .of_change Iff.rfl rfl (Or.inr ⟨id, cleared_of_load ⟨rfl, hanswer⟩⟩)
  | assignNames kind names first last =>
      obtain ⟨_, hanswer⟩ := h
      exact .of_change Iff.rfl rfl (Or.inl ⟨trivial, undisturbed_of_assignNames ⟨rfl, hanswer⟩⟩)
  | addRow row entries =>
      obtain ⟨_, hanswer⟩ := h
      exact .of_change Iff.rfl rfl (Or.inl ⟨trivial, undisturbed_of_addRow ⟨rfl, hanswer⟩⟩)
  | addRows rows entries =>
      obtain ⟨_, hanswer⟩ := h
      exact .of_change Iff.rfl rfl (Or.inl ⟨trivial, undisturbed_of_addRows ⟨rfl, hanswer⟩⟩)
  | addColumns columns count starts rows values counted =>
      obtain ⟨_, hanswer⟩ := h
      exact .of_change Iff.rfl rfl (addColumns_cases counted ⟨rfl, hanswer⟩)
  | changeBounds changes =>
      obtain ⟨_, hanswer⟩ := h
      exact .of_change Iff.rfl rfl (changeBounds_cases ⟨rfl, hanswer⟩)
  | changeObjective changes =>
      obtain ⟨_, hanswer⟩ := h
      exact .of_change Iff.rfl rfl (changeObjective_cases ⟨rfl, hanswer⟩)
  | changeSense sense =>
      obtain ⟨_, hanswer⟩ := h
      exact .of_change Iff.rfl rfl (changeSense_cases ⟨rfl, hanswer⟩)
  | solveCold s o => exact .of_settled Iff.rfl rfl rfl ((Session.solveCold_course s i o).settled h)
  | solveWarm s handle o =>
      exact .of_settled Iff.rfl rfl rfl ((Session.solveWarm_course s i o handle).settled h)
  | solve s o => exact .of_settled Iff.rfl rfl rfl ((Session.solve_course s i o).settled h)

/-- The instance after several calls. -/
def run (i : Instance α) (ops : List (Operation α)) : Instance α :=
  ops.foldl (fun i op => op.after i) i

/-- Something holds of each of several calls and the instance that it meets. -/
def Throughout (P : Instance α → Operation α → Prop) : Instance α → List (Operation α) → Prop
  | _, [] => True
  | i, op :: ops => P i op ∧ Throughout P (op.after i) ops

theorem run_concat (i : Instance α) (ops : List (Operation α)) (op : Operation α) :
    run i (ops ++ [op]) = op.after (run i ops) := by
  rw [run, List.foldl_append]
  rfl

theorem sound_run (hi : i.Sound) (ops : List (Operation α)) : (run i ops).Sound := by
  induction ops generalizing i with
  | nil => exact hi
  | cons op ops ih => exact ih (hi.after op)

theorem throughout_concat {P : Instance α → Operation α → Prop} {ops : List (Operation α)} :
    Throughout P i (ops ++ [op]) ↔ Throughout P i ops ∧ P (run i ops) op := by
  induction ops generalizing i with
  | nil => exact (and_comm (a := P i op) (b := True))
  | cons first ops ih =>
      rw [List.cons_append, Throughout, Throughout, ih, and_assoc]
      rfl

/-- The last solve that returned met the instance `j`, and its result `r` is optimal; the calls
since have kept the problem. -/
def LastOptimal (i : Instance α) (ops : List (Operation α)) (j : Instance α)
    (r : SolveResult α) : Prop :=
  ∃ earlier op later, ops = earlier ++ op :: later ∧ run i earlier = j ∧ op.result? j = some r ∧
    r.status = .optimal ∧ Throughout (fun i op => op.Keeps i) (op.after j) later

/-- One of the calls is a solve that returned the handle. -/
def Issued (i : Instance α) (ops : List (Operation α)) (h : BasisHandle α) : Prop :=
  ∃ earlier op later r, ops = earlier ++ op :: later ∧ op.result? (run i earlier) = some r ∧
    r.basis = some h

private theorem concat_eq_split {β : Type} {l earlier later : List β} {b c : β} :
    l ++ [b] = earlier ++ c :: later ↔
      later = [] ∧ earlier = l ∧ c = b ∨
        ∃ later', later = later' ++ [b] ∧ l = earlier ++ c :: later' := by
  constructor
  · intro h
    rcases List.eq_nil_or_concat later with rfl | ⟨later', d, rfl⟩
    · obtain ⟨rfl, heq⟩ := List.append_inj' h rfl
      exact Or.inl ⟨rfl, rfl, (List.cons.inj heq).1.symm⟩
    · have hlast : l ++ [b] = (earlier ++ c :: later') ++ [d] := by simpa using h
      obtain ⟨rfl, heq⟩ := List.append_inj' hlast rfl
      rw [(List.cons.inj heq).1, List.concat_eq_append]
      exact Or.inr ⟨later', rfl, rfl⟩
  · rintro (⟨rfl, rfl, rfl⟩ | ⟨later', rfl, rfl⟩)
    · rfl
    · rw [List.append_assoc, List.cons_append]

private theorem lastOptimal_concat {ops : List (Operation α)} {j : Instance α} {r : SolveResult α} :
    LastOptimal i (ops ++ [op]) j r ↔
      op.Keeps (run i ops) ∧ LastOptimal i ops j r ∨
        run i ops = j ∧ op.result? j = some r ∧ r.status = .optimal := by
  constructor
  · rintro ⟨earlier, first, later, hsplit, rfl, hresult, hstatus, hkeeps⟩
    rcases concat_eq_split.mp hsplit with ⟨rfl, rfl, rfl⟩ | ⟨later', rfl, rfl⟩
    · exact Or.inr ⟨rfl, hresult, hstatus⟩
    · obtain ⟨hlater, hop⟩ := throughout_concat.mp hkeeps
      refine Or.inl ⟨?_, earlier, first, later', rfl, rfl, hresult, hstatus, hlater⟩
      rw [run, List.foldl_append]
      exact hop
  · rintro (⟨hop, earlier, first, later, rfl, rfl, hresult, hstatus, hkeeps⟩ |
      ⟨rfl, hresult, hstatus⟩)
    · refine ⟨earlier, first, later ++ [op], by rw [List.append_assoc, List.cons_append], rfl,
        hresult, hstatus, throughout_concat.mpr ⟨hkeeps, ?_⟩⟩
      rw [run, List.foldl_append] at hop
      exact hop
    · exact ⟨ops, op, [], rfl, rfl, hresult, hstatus, trivial⟩

private theorem issued_concat {ops : List (Operation α)} {h : BasisHandle α} :
    Issued i (ops ++ [op]) h ↔
      Issued i ops h ∨ ∃ r, op.result? (run i ops) = some r ∧ r.basis = some h := by
  constructor
  · rintro ⟨earlier, first, later, r, hsplit, hresult, hbasis⟩
    rcases concat_eq_split.mp hsplit with ⟨rfl, rfl, rfl⟩ | ⟨later', rfl, rfl⟩
    · exact Or.inr ⟨r, hresult, hbasis⟩
    · exact Or.inl ⟨earlier, first, later', r, rfl, hresult, hbasis⟩
  · rintro (⟨earlier, first, later, r, rfl, hresult, hbasis⟩ | ⟨r, hresult, hbasis⟩)
    · exact ⟨earlier, first, later ++ [op], r, by rw [List.append_assoc, List.cons_append],
        hresult, hbasis⟩
    · exact ⟨ops, op, [], r, rfl, hresult, hbasis⟩

end Operation

/-- The instance `i` keeps the handle of a solve of `j`, and still holds the problem `j`. -/
structure Holds (i j : Instance α) (h : BasisHandle α) : Prop where
  basis : i.basis = some h
  owner : h.owner = i.token
  numRows : h.numRows = j.numRows
  numColumns : h.numColumns = j.numColumns
  engine : h.engine = simplexName
  progress : i.progress ≠ .unsolved
  retains : Retains j i

theorem Holds.undisturbed {i i' j : Instance α} {h : BasisHandle α} (hi : Holds i j h)
    (hu : Undisturbed i i') : Holds i' j h where
  basis := hu.basis.trans hi.basis
  owner := hi.owner.trans hu.token.symm
  numRows := hi.numRows
  numColumns := hi.numColumns
  engine := hi.engine
  progress := hu.progress hi.progress
  retains := hi.retains.trans hu.toRetains

theorem Bases.holds {i : Instance α} {r : SolveResult α} (hr : i.Bases r)
    (hstatus : r.status = .optimal) :
    ∃ h, (i.recorded r).basis = some h ∧ h.stamp = some (i.token, i.solves) ∧
      Holds (i.recordSolve r) i h := by
  rcases hr with ⟨-, payload, hbasis⟩ | ⟨hnot, -⟩
  · have hrecorded : (i.recordSolve r).basis = some
        { owner := i.token
          numRows := i.numRows
          numColumns := i.numColumns
          engine := simplexName
          stamp := some (i.token, i.solves)
          payload := payload } := by
      show r.basis.map _ = _
      rw [hbasis]
      rfl
    exact ⟨_, hrecorded, rfl, hrecorded, rfl, rfl, rfl, rfl, nofun, .recordSolve i r⟩
  · exact absurd hstatus hnot

private theorem Bases.basis_eq_none {i : Instance α} {r : SolveResult α} (hr : i.Bases r)
    (hstatus : r.status ≠ .optimal) : (i.recordSolve r).basis = none := by
  rcases hr with ⟨hoptimal, -⟩ | ⟨-, hbasis⟩
  · exact absurd hoptimal hstatus
  · show r.basis.map _ = none
    rw [hbasis]
    rfl

variable [Scalar α] {i : Instance α} {ops : List (Operation α)}

open Operation

/-- The handle that the last solve returned is kept, if that solve was optimal. -/
theorem Operation.LastOptimal.holds (hops : Throughout (fun i op => op.Completes i) i ops)
    {j : Instance α} {r : SolveResult α} (h : LastOptimal i ops j r) :
    ∃ kept, r.basis = some kept ∧ Holds (run i ops) j kept := by
  induction ops using List.reverseRecOn with
  | nil =>
      obtain ⟨earlier, op, later, hsplit, -⟩ := h
      simp at hsplit
  | append_singleton ops op ih =>
      obtain ⟨hops, hop⟩ := throughout_concat.mp hops
      rw [run_concat]
      rcases lastOptimal_concat.mp h with ⟨hkeeps, h⟩ | ⟨rfl, hresult, hstatus⟩
      · obtain ⟨kept, hbasis, hkept⟩ := ih hops h
        cases hop.effect with
        | kept _ _ hu => exact ⟨kept, hbasis, hkept.undisturbed hu⟩
        | cleared hnot _ _ => exact absurd hkeeps hnot
        | solved hnot _ _ _ => exact absurd hkeeps hnot
      · cases hop.effect with
        | kept _ hnone _ => simp [hnone] at hresult
        | cleared _ hnone _ => simp [hnone] at hresult
        | solved _ hsome hr hafter =>
            rw [hsome] at hresult
            obtain rfl := Option.some.inj hresult
            obtain ⟨kept, hbasis, -, hkept⟩ := hr.holds hstatus
            rw [hafter]
            exact ⟨kept, hbasis, hkept⟩

private theorem exists_lastOptimal (hops : Throughout (fun i op => op.Completes i) i ops)
    (hi : i.basis = none) {kept : BasisHandle α} (h : (run i ops).basis = some kept) :
    ∃ j r, LastOptimal i ops j r := by
  induction ops using List.reverseRecOn with
  | nil =>
      rw [show run i [] = i from rfl, hi] at h
      cases h
  | append_singleton ops op ih =>
      obtain ⟨hops, hop⟩ := throughout_concat.mp hops
      rw [run_concat] at h
      cases hop.effect with
      | kept hkeeps _ hu =>
          obtain ⟨j, r, hlast⟩ := ih hops (hu.basis.symm.trans h)
          exact ⟨j, r, lastOptimal_concat.mpr (Or.inl ⟨hkeeps, hlast⟩)⟩
      | cleared _ _ hc =>
          rw [hc.basis] at h
          cases h
      | @solved r _ hresult hr hafter =>
          refine ⟨_, _, lastOptimal_concat.mpr (Or.inr ⟨rfl, hresult, ?_⟩)⟩
          by_contra hstatus
          rw [hafter, hr.basis_eq_none hstatus] at h
          cases h

private theorem exists_holds (hops : Throughout (fun i op => op.Completes i) i ops)
    (hi : i.basis = none) {kept : BasisHandle α} (hkept : (run i ops).basis = some kept) :
    ∃ j r, LastOptimal i ops j r ∧ r.basis = some kept ∧ Holds (run i ops) j kept := by
  obtain ⟨j, r, hlast⟩ := exists_lastOptimal hops hi hkept
  obtain ⟨kept', hbasis, hholds⟩ := hlast.holds hops
  obtain rfl := Option.some.inj (hholds.basis.symm.trans hkept)
  exact ⟨j, r, hlast, hbasis, hholds⟩

private theorem Operation.Issued.stamp (hops : Throughout (fun i op => op.Completes i) i ops)
    {h : BasisHandle α} (hissued : Issued i ops h) :
    (∃ k < (run i ops).solves, h.stamp = some ((run i ops).token, k)) ∧
      ∀ kept, (run i ops).basis = some kept → h.stamp = kept.stamp → h = kept := by
  induction ops using List.reverseRecOn with
  | nil =>
      obtain ⟨earlier, op, later, r, hsplit, -⟩ := hissued
      simp at hsplit
  | append_singleton ops op ih =>
      obtain ⟨hops, hop⟩ := throughout_concat.mp hops
      rw [run_concat]
      rcases issued_concat.mp hissued with hissued | ⟨r, hresult, hbasis⟩
      · obtain ⟨⟨k, hk, hstamp⟩, hkept⟩ := ih hops hissued
        cases hop.effect with
        | kept _ _ hu =>
            rw [hu.token, hu.solves, hu.basis]
            exact ⟨⟨k, hk, hstamp⟩, hkept⟩
        | cleared _ _ hc =>
            rw [hc.token, hc.solves, hc.basis]
            exact ⟨⟨k, hk, hstamp⟩, nofun⟩
        | @solved r _ _ hr hafter =>
            rw [hafter]
            -- stamps count the solves: the new handle has a greater one than every earlier handle
            refine ⟨⟨k, Nat.lt_succ_of_lt hk, hstamp⟩, fun kept hkept heq => ?_⟩
            by_cases hstatus : r.status = .optimal
            · obtain ⟨new, -, hnew, hholds⟩ := hr.holds hstatus
              obtain rfl := Option.some.inj (hholds.basis.symm.trans hkept)
              rw [hstamp, hnew] at heq
              exact absurd (Prod.mk.inj (Option.some.inj heq)).2 hk.ne
            · rw [hr.basis_eq_none hstatus] at hkept
              cases hkept
      · cases hop.effect with
        | kept _ hnone _ => simp [hnone] at hresult
        | cleared _ hnone _ => simp [hnone] at hresult
        | @solved r _ hsome hr hafter =>
            rw [hsome] at hresult
            obtain rfl := Option.some.inj hresult
            have hstatus : r.status = .optimal := by
              by_contra hnot
              rw [show (recorded _ r).basis = none from hr.basis_eq_none hnot] at hbasis
              cases hbasis
            obtain ⟨new, hnew, hstamp, hholds⟩ := hr.holds hstatus
            obtain rfl := Option.some.inj (hnew.symm.trans hbasis)
            rw [hafter]
            refine ⟨⟨_, Nat.lt_succ_self _, hstamp⟩, fun kept hkept _ => ?_⟩
            exact Option.some.inj (hholds.basis.symm.trans hkept)

private theorem token_run (hops : Throughout (fun i op => op.Completes i) i ops) :
    (run i ops).token = i.token := by
  induction ops using List.reverseRecOn with
  | nil => rfl
  | append_singleton ops op ih =>
      obtain ⟨hops, hop⟩ := throughout_concat.mp hops
      rw [run_concat, ← ih hops]
      cases hop.effect with
      | kept _ _ hu => exact hu.token
      | cleared _ _ hc => exact hc.token
      | solved _ _ _ hafter => rw [hafter, recordSolve]

private theorem Operation.LastOptimal.issued {j : Instance α} {r : SolveResult α}
    (h : LastOptimal i ops j r) {kept : BasisHandle α} (hbasis : r.basis = some kept) :
    Issued i ops kept := by
  obtain ⟨earlier, op, later, hsplit, rfl, hresult, -, -⟩ := h
  exact ⟨earlier, op, later, r, hsplit, hresult, hbasis⟩

/-- The handles that there are: those of other instances, those that bear no stamp since no solve
returned them, and those that were returned by one of the calls. -/
def Operation.Extant (i : Instance α) (ops : List (Operation α)) (h : BasisHandle α) : Prop :=
  h.owner ≠ i.token ∨ h.stamp = none ∨ Issued i ops h

/-- Of all handles that there are, the one that is kept has its owner and its stamp to itself. -/
theorem Operation.Extant.eq_of_stamp (hops : Throughout (fun i op => op.Completes i) i ops)
    (hi : i.basis = none) {h kept : BasisHandle α} (hextant : Extant i ops h)
    (hkept : (run i ops).basis = some kept) (howner : h.owner = i.token)
    (hstamp : h.stamp = kept.stamp) : h = kept := by
  rcases hextant with hforeign | hnone | hissued
  · exact absurd howner hforeign
  · obtain ⟨j, r, hlast, hbasis, -⟩ := exists_holds hops hi hkept
    obtain ⟨⟨k, -, hk⟩, -⟩ := (hlast.issued hbasis).stamp hops
    rw [hnone, hk] at hstamp
    cases hstamp
  · exact (hissued.stamp hops).2 kept hkept hstamp

theorem Holds.solveWarm_eq {j : Instance α} {kept : BasisHandle α} (h : Holds i j kept)
    (hloaded : i.loaded = true) {s : Session α} (hs : s.OnSimplex) {handle : Option (BasisHandle α)}
    (hhandle : handle = none ∨ handle = some kept) (o : Option (SolveOptions α)) :
    Session.solveWarm handle o (s, i) =
      Session.perform (Engine.solveDual i kept (o.getD s.options)) (s, i) := by
  have hgiven : (handle <|> i.basis) = some kept := by
    rcases hhandle with rfl | rfl
    · exact h.basis
    · rfl
  obtain ⟨e, he⟩ := hs.engine
  apply Session.solveWarm_eq_perform hloaded
  exact Session.checkWarm_eq_ok.mpr ⟨h.progress, h.basis, kept, hgiven, h.owner, rfl,
    h.numColumns.trans h.retains.numColumns_eq.symm, h.numRows.trans_le h.retains.numRows_le,
    hs.notClosed, h.engine.trans (by rw [he]; rfl)⟩

theorem Operation.solveWarm_eq_refusal (hops : Throughout (fun i op => op.Completes i) i ops)
    (hi : i.basis = none) (hloaded : (run i ops).loaded = true) {s : Session α} (hs : s.OnSimplex)
    {handle : Option (BasisHandle α)} (hextant : ∀ h, handle = some h → Extant i ops h)
    (hother : ∀ kept, (run i ops).basis = some kept → handle ≠ none ∧ handle ≠ some kept)
    (o : Option (SolveOptions α)) :
    ∃ f, f.family = .warmStartIneligible ∧
      Session.solveWarm handle o (s, run i ops) = ⟨(s, run i ops), [], .error f⟩ := by
  cases hcheck : s.checkWarm (run i ops) (handle <|> (run i ops).basis) with
  | error f =>
      exact ⟨f, Session.family_of_checkWarm hs.notClosed hcheck,
        Session.solveWarm_eq_refusal hloaded hcheck⟩
  | ok kept =>
      -- the handle that passed has the owner and the stamp of the one that is kept
      exfalso
      obtain ⟨-, hkept, given, hgiven, howner, hstamp, -⟩ := Session.checkWarm_eq_ok.mp hcheck
      obtain ⟨hnone, hne⟩ := hother kept hkept
      cases handle with
      | none => exact hnone rfl
      | some h =>
          obtain rfl : h = given := Option.some.inj hgiven
          rw [token_run hops] at howner
          exact hne (congrArg some ((hextant h rfl).eq_of_stamp hops hi hkept howner hstamp))

/-- After every run of calls that return, with solves by the simplex engine among them that may
fail, a handle is kept exactly if the last solve was optimal and the calls since have kept its
problem. It is the handle that this solve returned, and the instance still holds the problem that
was solved. A warm solve goes ahead from it, whether it is asked for or not, and every other handle
is refused. -/
theorem basis_of_run (token : ℕ) (name : String) {ops : List (Operation α)}
    (hops : Throughout (fun i op => op.Completes i) (declare token name) ops) :
    let i := run (declare token name) ops
    (i.basis.isSome = true ↔ ∃ j r, LastOptimal (declare token name) ops j r) ∧
      (∀ j r, LastOptimal (declare token name) ops j r → ∃ kept, i.basis = some kept ∧
        r.basis = some kept ∧ kept.owner = i.token ∧ kept.numRows = j.numRows ∧ Retains j i) ∧
      ∀ (s : Session α) (o : Option (SolveOptions α)) (handle : Option (BasisHandle α)),
        i.loaded = true → s.OnSimplex → (∀ h, handle = some h → Extant (declare token name) ops h) →
          (∀ kept, i.basis = some kept → handle = none ∨ handle = some kept →
            Session.solveWarm handle o (s, i) =
              Session.perform (Engine.solveDual i kept (o.getD s.options)) (s, i)) ∧
          ((∀ kept, i.basis = some kept → handle ≠ none ∧ handle ≠ some kept) →
            ∃ f, f.family = .warmStartIneligible ∧
              Session.solveWarm handle o (s, i) = ⟨(s, i), [], .error f⟩) := by
  intro i
  refine ⟨⟨fun h => ?_, fun ⟨j, r, h⟩ => ?_⟩, fun j r h => ?_, ?_⟩
  · obtain ⟨kept, hkept⟩ := Option.isSome_iff_exists.mp h
    exact exists_lastOptimal hops rfl hkept
  · obtain ⟨kept, -, hholds⟩ := h.holds hops
    exact Option.isSome_iff_exists.mpr ⟨kept, hholds.basis⟩
  · obtain ⟨kept, hbasis, hholds⟩ := h.holds hops
    exact ⟨kept, hholds.basis, hbasis, hholds.owner, hholds.numRows, hholds.retains⟩
  · intro s o handle hloaded hs hextant
    refine ⟨fun kept hkept hhandle => ?_, fun hother => ?_⟩
    · obtain ⟨j, r, -, -, hholds⟩ := exists_holds hops rfl hkept
      exact hholds.solveWarm_eq hloaded hs hhandle o
    · exact solveWarm_eq_refusal hops rfl hloaded hs hextant hother o

/-- The sample problem, solved and then cut: a warm solve goes ahead from the handle of the solve,
and a handle of another instance is refused. -/
theorem basis_of_run_sample :
    let i := run (declare 0 "sample")
      [.load ⟨"sample", .ok .max, Sample.parts.rows, Sample.parts.columns,
        .held Sample.parts.matrix⟩, .solveCold Sample.session none, Sample.cutting]
    ∃ kept : BasisHandle ℚ, i.basis = some kept ∧
      Session.solveWarm none none (Sample.session, i) =
        Session.perform (Engine.solveDual i kept Sample.exact) (Sample.session, i) ∧
      ∃ f, f.family = .warmStartIneligible ∧
        Session.solveWarm (some { kept with owner := 1 }) none (Sample.session, i) =
          ⟨(Sample.session, i), [], .error f⟩ := by
  intro i
  have hops : Throughout (fun i op => op.Completes i) (declare 0 "sample")
      [.load ⟨"sample", .ok .max, Sample.parts.rows, Sample.parts.columns,
        .held Sample.parts.matrix⟩, .solveCold Sample.session none, Sample.cutting] :=
    ⟨⟨(), rfl⟩, ⟨{}, rfl⟩, ⟨4, rfl⟩, trivial⟩
  have hsession : Sample.session.OnSimplex := ⟨rfl, {}, rfl⟩
  have hstatus : (Operation.result? (Sample.ofParts .max Sample.parts)
      (.solveCold Sample.session none)).map (·.status) = some .optimal := by decide +kernel
  obtain ⟨r, hresult, hoptimal⟩ := Option.map_eq_some_iff.mp hstatus
  obtain ⟨-, hholds, hwarm⟩ := basis_of_run 0 "sample" hops
  obtain ⟨kept, hkept, -, howner, -, -⟩ := hholds (Sample.ofParts .max Sample.parts) r
    ⟨[_], _, [_], rfl, rfl, hresult, hoptimal, trivial, trivial⟩
  refine ⟨kept, hkept, ?_, ?_⟩
  · exact (hwarm Sample.session none none rfl hsession nofun).1 kept hkept (Or.inl rfl)
  · refine (hwarm Sample.session none (some { kept with owner := 1 }) rfl hsession ?_).2 ?_
    · rintro h heq
      obtain rfl := Option.some.inj heq
      exact Or.inl (show (1 : ℕ) ≠ 0 by decide)
    · rintro kept' hkept'
      obtain rfl := Option.some.inj (hkept.symm.trans hkept')
      refine ⟨nofun, fun heq => ?_⟩
      have hone : 1 = kept.owner := congrArg BasisHandle.owner (Option.some.inj heq)
      rw [howner] at hone
      exact absurd hone (show (1 : ℕ) ≠ 0 by decide)

end IncrementalLP.Instance
