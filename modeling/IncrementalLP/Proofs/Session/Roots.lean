import IncrementalLP.Proofs.Form.Costs
import IncrementalLP.Proofs.Form.Rebuilds
import IncrementalLP.Proofs.Instance.Failures
import IncrementalLP.Proofs.Instance.StoredBases
import IncrementalLP.Proofs.Session.Highs
import IncrementalLP.Proofs.Session.Yields
/-!
# Where warm solves start

Whatever calls an instance has gone through, returned or failed, by sessions on any engines, the
start that the handle it keeps comes to has independent columns. Only the simplex engine stores
labels of a basis; a handle without them stands for the natural columns.
-/
namespace IncrementalLP

open Program

namespace StandardForm

variable {f : StandardForm ℚ}

private theorem Isolates.regular (h : f.Isolates) {β : Basis f.rows.length f.columns.length}
    (hβ : ∀ k, β.get k = f.naturalPlace k) : f.program.Regular β := by
  have hdiagonal : f.program.basisMatrix β =
      Matrix.diagonal fun k => f.program.matrix k (f.naturalPlace k) := by
    ext k l
    rw [basisMatrix, Matrix.submatrix_apply, id_eq, hβ, Matrix.diagonal_apply]
    split
    · next heq => rw [heq]
    · next hne => exact (h l).2 k hne
  unfold Regular
  rw [hdiagonal, Matrix.det_diagonal]
  exact Finset.prod_ne_zero_iff.mpr fun k _ => beq_eq_false_iff_ne.mp (h k).1

private theorem get_of_warmStart_empty {β : Basis f.rows.length f.columns.length}
    (h : f.warmStart? ⟨[], [], []⟩ = some β) (k : Fin f.rows.length) :
    β.get k = f.naturalPlace k := by
  have hplaces : f.warmPlaces? ⟨[], [], []⟩ =
      some ((List.finRange f.rows.length).map f.naturalPlace) := by
    simp [warmPlaces?]
  unfold warmStart? at h
  rw [hplaces] at h
  simp only [List.length_map, List.length_finRange, dif_pos, Option.some.injEq] at h
  subst h
  simp [Vector.get_eq_getElem]

end StandardForm

namespace Instance

variable {i j : Instance ℚ} {o : SolveOptions ℚ} {r : SolveResult ℚ}

private theorem startsRegular_none (i : Instance ℚ) : i.StartsRegular none := fun _ hβ =>
  (standardForm_isolates i fun _ he => absurd he List.not_mem_nil).regular
    (StandardForm.get_of_warmStart_empty hβ)

/-- What is stored with the handle that the instance keeps, if anything is, stems from a regular
basis. -/
def Rooted (i : Instance ℚ) : Prop := ∀ h p, i.basis = some h → h.payload = some p → i.Stems p

theorem Rooted.startsRegular (hi : i.Rooted) (hsound : i.Sound) {h : BasisHandle ℚ}
    (hbasis : i.basis = some h) : i.StartsRegular h.payload := by
  cases hp : h.payload with
  | none => exact i.startsRegular_none
  | some p => exact fun β hβ => (hi h p hbasis hp).regular hsound hβ

theorem Rooted.undisturbed (hi : i.Rooted) (h : Undisturbed i j) : j.Rooted := by
  intro kept p hkept hp
  exact (hi kept p (h.basis ▸ hkept) hp).grown h.toRetains.grown

private theorem Rooted.recosts (hi : i.Rooted) (h : Recosts i j) (hj : j.Sound)
    (hbasis : j.basis = i.basis) : j.Rooted := by
  intro kept p hkept hp
  exact (hi kept p (hbasis ▸ hkept) hp).recosts h hj

theorem rooted_of_none (h : i.basis = none) : i.Rooted := by
  intro kept p hkept
  rw [h] at hkept
  cases hkept

/-- A result whose basis, if labels are stored with it, is regular. -/
def Bears (i : Instance ℚ) (r : SolveResult ℚ) : Prop :=
  ∀ h p, r.basis = some h → h.payload = some p → i.Stems p

private theorem Bears.rooted (h : i.Bears r) : (i.recordSolve r).Rooted := by
  intro kept p hkept hp
  obtain ⟨issued, hissued, rfl⟩ := Option.map_eq_some_iff.mp hkept
  exact (h issued p hissued hp).grown (Retains.recordSolve i r).grown

private theorem bears_of_solvePrimal (hsound : i.Sound) (htol : 0 ≤ o.tolerance) :
    i.Bears (i.solvePrimal o).result := by
  intro h p hbasis hp
  obtain ⟨p', hp', hstems⟩ := stems_of_solvePrimal hsound htol hbasis
  obtain rfl := Option.some.inj (hp.symm.trans hp')
  exact hstems

private theorem bears_of_solveDual (hsound : i.Sound) (htol : 0 ≤ o.tolerance)
    {stored : Option (BasisPayload ℚ)} (hregular : i.StartsRegular stored) :
    i.Bears (i.solveDual o stored).result := by
  intro h p hbasis hp
  have hstems : ∃ p, h.payload = some p ∧ i.Stems p := by
    cases stored with
    | none => exact stems_of_solveDual (p := ⟨[], [], []⟩) hsound htol hregular hbasis
    | some p => exact stems_of_solveDual hsound htol hregular hbasis
  obtain ⟨p', hp', hstems⟩ := hstems
  obtain rfl := Option.some.inj (hp.symm.trans hp')
  exact hstems

end Instance

namespace Engine

variable {i : Instance ℚ} {e : Engine ℚ} {o : SolveOptions ℚ} {r : SolveResult ℚ}

private theorem bears_of_nextReply {e : ReplayEngine ℚ} {method : SolveMethod} {call : EngineCall}
    (h : (nextReply e i method call).answer = .ok r) : i.Bears r := by
  intro kept p hkept hp
  unfold nextReply at h
  simp only at h
  split at h
  · cases h
  · next reply rest hscript =>
    split at h
    · cases h
    · cases h
    · next s given basis =>
      obtain rfl := Except.ok.inj h
      cases basis with
      | absent => cases hkept
      | ofInstance | sized rows columns | given owner rows columns engine stamp =>
          obtain rfl := Option.some.inj hkept
          cases hp

private theorem bears_of_solved {package : Highspy ℚ} {method : SolveMethod}
    {object : HighsObject ℚ} (h : package.solved i method o object = .ok r) : i.Bears r := by
  intro kept p hkept hp
  rw [Highspy.basis_of_solved h hkept] at hp
  cases hp

private theorem bears_solvePrimal (hsound : i.Sound) (htol : 0 ≤ o.tolerance)
    (h : (solvePrimal i o e).answer = .ok r) : i.Bears r := by
  cases e with
  | replay e => exact bears_of_nextReply h
  | simplex e =>
      obtain rfl := Except.ok.inj h
      exact Instance.bears_of_solvePrimal hsound htol
  | highs e =>
      obtain ⟨object, hsolved⟩ := HighsEngine.exists_solved_of_solvePrimal h
      exact bears_of_solved hsolved

private theorem bears_solveDual (hsound : i.Sound) (htol : 0 ≤ o.tolerance) {kept : BasisHandle ℚ}
    (hregular : i.StartsRegular kept.payload) (h : (solveDual i kept o e).answer = .ok r) :
    i.Bears r := by
  cases e with
  | replay e => exact bears_of_nextReply h
  | simplex e =>
      obtain rfl := Except.ok.inj h
      exact Instance.bears_of_solveDual hsound htol hregular
  | highs e =>
      obtain ⟨method, object, hsolved⟩ := HighsEngine.exists_solved_of_solveDual h
      exact bears_of_solved hsolved

end Engine

namespace Session

variable {s : Session ℚ} {i : Instance ℚ} {o : SolveOptions ℚ}

private theorem rooted_perform {solve : Action (Engine ℚ) ℚ (SolveResult ℚ)} (hi : i.Rooted)
    (hsolve : ∀ e r, (solve e).answer = .ok r → i.Bears r) :
    (perform solve (s, i)).state.2.Rooted := by
  unfold perform
  simp only
  split
  · exact hi
  · next r hr =>
    obtain ⟨e, _, -, hanswer⟩ :=
      Action.returns_bind.mp (⟨rfl, hr⟩ : Action.Returns _ s.engine _ r)
    exact (hsolve e r hanswer.2).rooted

private theorem Course.rooted {a : Attempt (Solving ℚ) ℚ (SolveResult ℚ)} (h : s.Course i o a)
    (hi : i.Rooted) (hsound : i.Sound) (htol : 0 ≤ o.tolerance) : a.state.2.Rooted := by
  cases h with
  | refused f => exact hi
  | cold _ => exact rooted_perform hi fun _ _ => Engine.bears_solvePrimal hsound htol
  | warm _ hbasis =>
      exact rooted_perform hi fun _ _ =>
        Engine.bears_solveDual hsound htol (hi.startsRegular hsound hbasis)

end Session

namespace Instance

variable {i : Instance ℚ}

private theorem map_frame_foldl (changes : List (ℕ × Ordinal ℚ × Extended ℚ))
    (columns : List (Column ℚ)) :
    (changes.foldl (fun cs s => cs.modify s.1 fun c => { c with objective := s.2.2 })
      columns).map Column.frame = columns.map Column.frame := by
  induction changes generalizing columns with
  | nil => rfl
  | cons change changes ih =>
      rw [List.foldl_cons, ih]
      apply List.ext_getElem?
      intro n
      simp only [List.getElem?_map, List.getElem?_modify]
      cases columns[n]? <;> simp [apply_ite, Column.frame]

theorem changeObjective_rooted (hi : i.Rooted) (hsound : i.Sound)
    (changes : Offer (List (Offer (CostChange ℚ)))) :
    (i.changeObjective changes).state.Rooted := by
  cases hanswer : (i.changeObjective changes).answer with
  | ok u =>
      obtain ⟨-, hu⟩ | ⟨-, hc⟩ := changeObjective_cases (u := u) ⟨rfl, hanswer⟩
      · exact hi.undisturbed hu
      · exact rooted_of_none hc.basis
  | error f =>
      obtain ⟨hstate, -, hcolumns⟩ := changeObjective_failure changes i f hanswer
      have hframes : (i.changeObjective changes).state.columns.map Column.frame =
          i.columns.map Column.frame := by
        obtain heq | ⟨_, done, _, _, ks, -, -, -, -, -, heq⟩ := hcolumns
        · rw [heq]
        · rw [heq]
          exact map_frame_foldl _ _
      refine hi.recosts ⟨?_, ?_, ?_, ?_, hframes⟩ (hsound.after (.changeObjective changes)) ?_ <;>
        rw [hstate]

theorem Rooted.after (hi : i.Rooted) (hsound : i.Sound) {op : Operation ℚ} (htol : op.Tolerant) :
    (op.after i).Rooted := by
  cases Operation.conduct i op with
  | kept h => exact hi.undisturbed h
  | dropped h => exact rooted_of_none h
  | costs changes => exact changeObjective_rooted hi hsound changes
  | solved _ hoptions hcourse hafter =>
      rw [hafter]
      exact hcourse.rooted hi hsound (htol _ hoptions)

theorem rooted_run (hi : i.Rooted) (hsound : i.Sound) {ops : List (Operation ℚ)}
    (hops : ∀ op ∈ ops, op.Tolerant) : (Operation.run i ops).Rooted := by
  induction ops generalizing i with
  | nil => exact hi
  | cons op ops ih =>
      obtain ⟨hop, hops⟩ := List.forall_mem_cons.mp hops
      exact ih (hi.after hsound hop) (hsound.after op) hops

end Instance

end IncrementalLP
