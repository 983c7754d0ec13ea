import IncrementalLP.Proofs.Simplex.Visits
/-!
# Iterations of the loops

With a tolerance of zero both loops go along paths on which barred columns never enter. From a
viable basis the primal loop goes along viable bases: a barred column that is basic stays at zero,
since it leaves at a step of zero where the entering column would make it grow. From a dominant
basis the dual loop goes along dominant ones, and the value of the right-hand side never grows.
-/
namespace IncrementalLP.Program

open Matrix

variable {m n : ℕ} {p : Program ℚ m n} {o : SolveOptions ℚ} {β γ δ : Basis m n}

/-- Every column that is new at a position may enter. -/
def EntersUnbarred (p : Program ℚ m n) (β γ : Basis m n) : Prop :=
  ∀ k, γ.get k ≠ β.get k → p.barred.get (γ.get k) = false

namespace EntersUnbarred

theorem refl (p : Program ℚ m n) (β : Basis m n) : p.EntersUnbarred β β :=
  fun _ hne => absurd rfl hne

theorem trans (h₁ : p.EntersUnbarred β γ) (h₂ : p.EntersUnbarred γ δ) :
    p.EntersUnbarred β δ := by
  intro k hne
  by_cases hk : δ.get k = γ.get k
  · rw [hk] at hne ⊢
    exact h₁ k hne
  · exact h₂ k hk

private theorem set {j : Fin n} (hj : p.barred.get j = false) (β : Basis m n) (k : Fin m) :
    p.EntersUnbarred β (β.set k j k.isLt) := by
  intro l hne
  rw [Basis.get_set] at hne ⊢
  split at hne
  · next hl => rwa [if_pos hl]
  · exact absurd rfl hne

end EntersUnbarred

/-- What holds of every basis that the primal loop comes to from another one. -/
structure PrimalKept (p : Program ℚ m n) (o : SolveOptions ℚ) (β γ : Basis m n) : Prop where
  regular : p.Regular γ
  nonneg : ∀ k, 0 ≤ (p.basicValues γ).get k
  clean : p.cleanValues o.tolerance γ = p.basicValues γ
  barred : ∀ j, p.barred.get j = true → p.point γ j = 0
  entered : p.EntersUnbarred β γ
  equations : p.matrix *ᵥ p.point γ = p.rhs.get

private theorem Viable.primalKept (hγ : p.Viable γ) (htol : o.tolerance = 0)
    (h : p.EntersUnbarred β γ) : p.PrimalKept o β γ where
  regular := hγ.regular
  nonneg := hγ.nonneg
  clean := by
    rw [htol]
    exact hγ.cleanValues_eq
  barred := hγ.feasible.barred
  entered := h
  equations := hγ.feasible.equations

private theorem PrimalStep.entersUnbarred (htol : o.tolerance = 0) (hβ : p.Regular β)
    (h : p.PrimalStep o β γ) : p.EntersUnbarred β γ := by
  obtain ⟨j, e, hj, -, rfl⟩ := h
  exact .set (primalEntering_spec htol hβ hj).2.1 β e.2

/-- A pivot never lowers the objective; it keeps it where the step is zero. -/
theorem PrimalStep.objective_le (htol : o.tolerance = 0) (hβ : p.Viable β)
    (h : p.PrimalStep o β γ) : p.objective (p.point β) ≤ p.objective (p.point γ) := by
  obtain ⟨j, k, θ, hpivot, rfl, -⟩ := h.exists_pivot htol hβ
  rw [hpivot.objective_set hβ]
  exact le_add_of_nonneg_right (mul_nonneg hpivot.nonneg hpivot.gain.le)

/-- A run from a viable basis, iteration by iteration. -/
theorem exists_primal_path (htol : o.tolerance = 0) (hβ : p.Viable β) (limit : ℤ) :
    ∃ path : ℕ → Basis m n,
      path 0 = β ∧ path (p.primal o limit β).iterations = (p.primal o limit β).basis ∧
      (∀ t < (p.primal o limit β).iterations,
        p.PrimalStep o (path t) (path (t + 1)) ∧ p.EntersUnbarred (path t) (path (t + 1)) ∧
        p.objective (p.point (path t)) ≤ p.objective (p.point (path (t + 1)))) ∧
      ∀ t ≤ (p.primal o limit β).iterations, p.PrimalKept o β (path t) := by
  obtain ⟨path, hstart, hend, hsteps⟩ := (primal_trail p o limit β).exists_path
  have hkept : ∀ t ≤ (p.primal o limit β).iterations,
      p.Viable (path t) ∧ p.EntersUnbarred β (path t) := by
    refine Trail.forall_path (P := fun γ => p.Viable γ ∧ p.EntersUnbarred β γ) ?_ hsteps ?_
    · rintro γ δ ⟨hγ, hentered⟩ hstep
      exact ⟨hstep.viable htol hγ, hentered.trans (hstep.entersUnbarred htol hγ.regular)⟩
    · rw [hstart]
      exact ⟨hβ, .refl p β⟩
  refine ⟨path, hstart, hend, ?_, ?_⟩
  · intro t ht
    have hstep := hsteps t ht
    have hviable := (hkept t ht.le).1
    exact ⟨hstep, hstep.entersUnbarred htol hviable.regular, hstep.objective_le htol hviable⟩
  · intro t ht
    exact (hkept t ht).1.primalKept htol (hkept t ht).2

/-- An artificial variable that is basic at zero in the first row and would grow with the first
column. -/
def corner : Program ℚ 2 4 where
  columns := #v[#v[-1, 1], #v[1, 1], #v[0, 1], #v[1, 0]]
  rhs := #v[0, 1]
  cost := #v[1, 1, 0, 0]
  barred := #v[false, false, false, true]
  signs := #v[1, 1, 1, 1]

/-- Exact solves by the rule of the largest reduced cost. -/
def cornerOptions : SolveOptions ℚ :=
  { SolveOptions.standard with tolerance := 0, rule := .dantzig }

private theorem viable_corner : corner.Viable #v[3, 2] where
  regular := by
    unfold Regular
    rw [det_fin_two]
    decide +kernel
  nonneg := by decide +kernel
  barred := by decide +kernel

/-- The artificial variable leaves at a step of zero, and the objective grows with the pivot after
it. -/
theorem exists_primal_path_corner :
    ∃ path : ℕ → Basis 2 4, path 0 = #v[3, 2] ∧ path 2 = #v[0, 1] ∧
      (∀ t < 2, corner.objective (corner.point (path t)) ≤
        corner.objective (corner.point (path (t + 1)))) ∧
      ∀ t ≤ 2, corner.PrimalKept cornerOptions #v[3, 2] (path t) := by
  obtain ⟨path, hstart, hend, hsteps, hkept⟩ :=
    exists_primal_path (o := cornerOptions) rfl viable_corner 10
  have hiterations : (corner.primal cornerOptions 10 #v[3, 2]).iterations = 2 := by
    decide +kernel
  have hbasis : (corner.primal cornerOptions 10 #v[3, 2]).basis = #v[0, 1] := by
    decide +kernel
  rw [hiterations] at hend hsteps hkept
  exact ⟨path, hstart, hend.trans hbasis, fun t ht => (hsteps t ht).2.2, hkept⟩

variable {s t : DualState m n}

/-- The program on which an iteration works: that of its state after columns have been negated. -/
def turnedAt (o : SolveOptions ℚ) (s : DualState m n) : Program ℚ m n := s.1.turned o s.2

/-- The value of the right-hand side at the prices of a basis. -/
def worth (p : Program ℚ m n) (β : Basis m n) : ℚ := (p.prices β).get ⬝ᵥ p.rhs.get

private theorem Dominant.worth_turned (h : p.Dominant β) (o : SolveOptions ℚ) :
    (p.turned o β).worth β = p.worth β := by
  obtain ⟨ε, hε⟩ := exists_signChange_turned (o := o) h.regular
  rw [worth, worth, hε.prices h.costless h.regular, hε.rhs]

theorem Dominant.reducedCosts_nonpos (h : p.Dominant β) (htol : o.tolerance = 0) {j : Fin n}
    (hj : p.barred.get j = false) :
    (p.reducedCosts o.tolerance β (p.prices β)).get j ≤ 0 := by
  rw [htol, get_reducedCosts h.regular]
  exact h.priced j hj

/-- What holds of the program and of the basis wherever the dual loop comes to from others. -/
structure DualKept (p : Program ℚ m n) (β : Basis m n) (s : DualState m n) : Prop where
  dominant : s.1.Dominant s.2
  entered : p.EntersUnbarred β s.2
  signs : ∃ ε, SignChange p s.1 ε

theorem DualKept.turned (h : DualKept p β s) (o : SolveOptions ℚ) :
    DualKept p β (turnedAt o s, s.2) := by
  obtain ⟨δ, hδ⟩ := h.signs
  obtain ⟨ε, hε⟩ := exists_signChange_turned (o := o) h.dominant.regular
  exact ⟨h.dominant.turned o, h.entered, _, hδ.trans hε⟩

theorem DualStep.spec (htol : o.tolerance = 0) (h : DualStep o s t) (hs : s.1.Dominant s.2) :
    s.1.EntersUnbarred s.2 t.2 ∧
      (turnedAt o t).worth t.2 ≤ (turnedAt o s).worth s.2 := by
  have ht := h.dominant htol hs
  obtain ⟨hturned, k, e, hk, he, hset⟩ := h
  have hβ : t.1.Dominant s.2 := by
    rw [hturned]
    exact hs.turned o
  have hpivot := (exists_dualPivot htol hβ.regular hk he).1
  obtain ⟨ε, hε⟩ := exists_signChange_turned (o := o) hs.regular
  rw [← hturned] at hε
  constructor
  · rw [hset]
    apply EntersUnbarred.set
    rw [← hε.barred]
    exact hpivot.unbarred
  · rw [turnedAt, ht.worth_turned, turnedAt, ← hturned, hset, worth, worth,
      hpivot.rhs_set hβ.regular]
    exact add_le_of_nonpos_right
      (mul_nonpos_of_nonneg_of_nonpos (hpivot.nonneg hβ) hpivot.negative.le)

private theorem DualStep.kept (htol : o.tolerance = 0) (h : DualStep o s t) (hs : DualKept p β s) :
    DualKept p β t where
  dominant := h.dominant htol hs.dominant
  entered := by
    obtain ⟨ε, hε⟩ := hs.signs
    have hentered := (h.spec htol hs.dominant).1
    unfold EntersUnbarred at hentered
    rw [hε.barred] at hentered
    exact hs.entered.trans hentered
  signs := by
    obtain ⟨ε, hε⟩ := hs.signs
    exact h.signChange hs.dominant.regular hε

/-- A run of the dual loop from a dominant basis, iteration by iteration. -/
theorem Dominant.exists_path (htol : o.tolerance = 0) (hβ : p.Dominant β) (limit : ℤ) :
    ∃ path : ℕ → DualState m n, path 0 = (p, β) ∧
      (path (p.dual o limit β).iterations).2 = (p.dual o limit β).basis ∧
      turnedAt o (path (p.dual o limit β).iterations) = (p.dual o limit β).program ∧
      (∀ t < (p.dual o limit β).iterations, DualStep o (path t) (path (t + 1))) ∧
      ∀ t ≤ (p.dual o limit β).iterations, DualKept p β (path t) := by
  obtain ⟨q, htrail, hprogram, -⟩ := p.exists_dual_trail o limit β
  obtain ⟨path, hstart, hend, hsteps⟩ := htrail.exists_path
  refine ⟨path, hstart, ?_, ?_, hsteps, ?_⟩
  · rw [hend]
  · rw [turnedAt, hend, hprogram]
  · refine Trail.forall_path (P := DualKept p β) (fun s t hs h => h.kept htol hs) hsteps ?_
    rw [hstart]
    exact ⟨hβ, .refl p β, 1, .refl p⟩

end IncrementalLP.Program
