import IncrementalLP.Proofs.Simplex.Circuit
import IncrementalLP.Proofs.Simplex.Dual
/-!
# The rule of the first column

Under the rule of the first column neither method walks in a circle. On a closed walk the point of
the primal method and the prices of the dual method would not move, and the largest column that
enters would contradict the rule where it leaves.
-/
namespace IncrementalLP.Program

open Matrix

variable {m n : ℕ} {p : Program ℚ m n} {o : SolveOptions ℚ} {β γ : Basis m n}

private theorem exists_term_pos {u v : Fin n → ℚ} (h : 0 < u ⬝ᵥ v) : ∃ i, 0 < u i * v i := by
  by_contra hnone
  rw [not_exists] at hnone
  exact absurd h (not_lt.mpr (Finset.sum_nonpos fun i _ => not_lt.mp (hnone i)))

section

variable {C : Circuit m n}

private theorem point_constant (hviable : ∀ s ≤ C.length, p.Viable (C.basis s))
    (hpivot : ∀ s : Fin C.length, ∃ θ, p.FirstPivot (C.basis s) (C.entering s) (C.leaving s) θ)
    {s : ℕ} (hs : s ≤ C.length) : p.point (C.basis s) = p.point (C.basis 0) := by
  have hobjective : ∀ s : Fin C.length, ∀ θ,
      p.FirstPivot (C.basis s) (C.entering s) (C.leaving s) θ →
      p.objective (p.point (C.basis (s + 1))) = p.objective (p.point (C.basis s)) +
        θ * p.surplus (p.prices (C.basis s)).get (C.entering s) := by
    intro s θ h
    rw [C.exchange]
    exact h.objective_set (hviable s s.isLt.le)
  have hconstant : ∀ s ≤ C.length,
      p.objective (p.point (C.basis s)) = p.objective (p.point (C.basis 0)) := by
    intro s hs
    apply C.constant (g := fun β => p.objective (p.point β)) _ hs
    intro s
    obtain ⟨θ, hθ⟩ := hpivot s
    show p.objective _ ≤ p.objective _
    rw [hobjective s θ hθ]
    have := mul_nonneg hθ.nonneg hθ.gain.le
    linarith
  induction s with
  | zero => rfl
  | succ s ih =>
      obtain ⟨θ, hθ⟩ := hpivot ⟨s, hs⟩
      have hgain := hobjective ⟨s, hs⟩ θ hθ
      rw [hconstant (s + 1) hs, hconstant s (by omega)] at hgain
      have hzero : θ = 0 := by
        have := hθ.gain.ne'
        have hprod : θ * p.surplus (p.prices (C.basis s)).get (C.entering ⟨s, hs⟩) = 0 := by
          linarith
        exact (mul_eq_zero.mp hprod).resolve_right this
      rw [← ih (by omega), C.exchange ⟨s, hs⟩, hθ.point_set (hviable s (by omega)), hzero,
        zero_smul, add_zero]

/-- The direction at one step gains at the prices of another one, and so it gains in a column that
enters somewhere. -/
private theorem exists_gaining {u v : Fin C.length} (hu : p.Regular (C.basis u))
    (hv : p.Regular (C.basis v)) (hfresh : C.entering u ∉ C.basis u)
    (hgain : 0 < p.surplus (p.prices (C.basis u)).get (C.entering u)) :
    ∃ w, C.entering w ∉ C.basis v ∧
      0 < p.surplus (p.prices (C.basis v)).get (C.entering w) *
        p.ray (C.basis u) (C.entering u) (C.entering w) := by
  have hprice : 0 < p.surplus (p.prices (C.basis v)).get ⬝ᵥ
      p.ray (C.basis u) (C.entering u) := by
    rw [surplus_dot_ray hu hfresh]
    exact hgain
  obtain ⟨i, hterm⟩ := exists_term_pos hprice
  have hout : i ∉ C.basis v := by
    intro hi
    rw [surplus_prices_of_mem hv hi, zero_mul] at hterm
    exact lt_irrefl 0 hterm
  have hfickle : ∃ s, C.entering s = i := by
    by_cases hiu : i = C.entering u
    · exact ⟨u, hiu.symm⟩
    · apply C.exists_entering u.isLt.le v.isLt.le _ hout
      by_contra hi
      rw [ray_of_not_mem hi hiu, mul_zero] at hterm
      exact lt_irrefl 0 hterm
  obtain ⟨w, rfl⟩ := hfickle
  exact ⟨w, hout, hterm⟩

/-- The largest column that enters would have to be passed over where it leaves. -/
private theorem not_primal_circuit (hviable : ∀ s ≤ C.length, p.Viable (C.basis s))
    (hpivot : ∀ s : Fin C.length, ∃ θ, p.FirstPivot (C.basis s) (C.entering s) (C.leaving s) θ) :
    False := by
  have hpoint : ∀ s ≤ C.length, p.point (C.basis s) = p.point (C.basis 0) :=
    fun s hs => point_constant hviable hpivot hs
  obtain ⟨v, hlargest⟩ := C.exists_largest
  obtain ⟨u, hleft⟩ := C.exists_left v
  obtain ⟨θ, hu⟩ := hpivot u
  obtain ⟨θ', hv⟩ := hpivot v
  have hregular := (hviable u u.isLt.le).regular
  have hunbarred : ∀ s, p.barred.get (C.entering s) = false := by
    intro s
    obtain ⟨θ, hs⟩ := hpivot s
    exact hs.unbarred
  obtain ⟨w, hout, hterm⟩ :=
    exists_gaining hregular (hviable v v.isLt.le).regular hu.fresh hu.gain
  rcases (hlargest w).lt_or_eq with hlt | heq
  · -- A smaller column has no gain at `v`; at `u` it is basic at zero and should have left.
    have hprice := hv.first (C.entering w) hlt (hunbarred w)
    have hneg : p.ray (C.basis u) (C.entering u) (C.entering w) < 0 := by
      by_contra hnonneg
      exact absurd hterm (not_lt.mpr
        (mul_nonpos_of_nonpos_of_nonneg hprice (not_lt.mp hnonneg)))
    have hmem : C.entering w ∈ C.basis u := by
      by_contra hi
      by_cases hiu : C.entering w = C.entering u
      · rw [hiu, ray_entering hu.fresh] at hneg
        linarith
      · rw [ray_of_not_mem hi hiu] at hneg
        exact lt_irrefl 0 hneg
    obtain ⟨l, hl⟩ := Basis.mem_iff.mp hmem
    have hvalue : (p.basicValues (C.basis u)).get l = 0 := by
      rw [← point_get hregular, hl, hpoint u u.isLt.le, ← hpoint v v.isLt.le]
      exact carries_point p _ _ hout
    rw [← hl, ray_get hregular hu.fresh, Left.neg_neg_iff] at hneg
    have hle := hu.leaving_le hvalue hneg
    rw [hl, hleft] at hle
    exact absurd hlt (not_lt.mpr hle)
  · -- The largest column itself gains at `v`, but the direction at `u` decreases it.
    have hpos := hu.pivot_pos (hleft ▸ hunbarred v)
    have hray := ray_get hregular hu.fresh (C.leaving u)
    rw [hleft] at hray
    rw [heq, hray] at hterm
    have := mul_pos hv.gain hpos
    linarith

end

/-- From a viable basis there are fewer pivots than ways to choose a basis. -/
theorem primal_trail_lt (htol : o.tolerance = 0) (hrule : o.rule = .bland) (hβ : p.Viable β)
    {t : ℕ} (h : Trail (p.PrimalStep o) t β γ) : t < n ^ m := by
  by_contra hlong
  obtain ⟨f, C, hbasis, -, hviable, hpivot⟩ := h.exists_basis_circuit id
    (R := fun β _ j k => ∃ θ, p.FirstPivot β j k θ)
    (fun _ _ hβ h => h.viable htol hβ)
    (by
      intro β γ hβ h
      obtain ⟨j, k, θ, hpivot, hset, hfirst⟩ := h.exists_pivot htol hβ
      exact ⟨j, k, ⟨θ, hfirst hrule⟩, hpivot.fresh, hset⟩)
    hβ (not_lt.mp hlong)
  refine @not_primal_circuit _ _ p C ?_ ?_
  · intro s hs
    rw [hbasis]
    exact hviable s hs
  · intro s
    rw [hbasis]
    exact hpivot s

section

variable {C : Circuit m n} {q : Fin C.length → Program ℚ m n}

private theorem prices_constant (hdominant : ∀ s ≤ C.length, p.Dominant (C.basis s))
    (hsign : ∀ s, ∃ ε, SignChange p (q s) ε) (hpivot : ∀ s : Fin C.length,
      ∃ ρ, (q s).FirstDualPivot (C.basis s) (C.entering s) (C.leaving s) ρ)
    {s : ℕ} (hs : s ≤ C.length) : (p.prices (C.basis s)).get = (p.prices (C.basis 0)).get := by
  have hprices : ∀ (s : Fin C.length) (t : ℕ), t ≤ C.length →
      ((q s).prices (C.basis t)).get = (p.prices (C.basis t)).get := by
    intro s t ht
    obtain ⟨ε, hε⟩ := hsign s
    exact hε.prices (hdominant t ht).costless (hdominant t ht).regular
  have hdominant' : ∀ s : Fin C.length, (q s).Dominant (C.basis s) := by
    intro s
    obtain ⟨ε, hε⟩ := hsign s
    exact (hdominant s s.isLt.le).signChange hε
  have hrhs : ∀ (s : Fin C.length) (ρ : ℚ),
      (q s).FirstDualPivot (C.basis s) (C.entering s) (C.leaving s) ρ →
      (p.prices (C.basis (s + 1))).get ⬝ᵥ p.rhs.get = (p.prices (C.basis s)).get ⬝ᵥ p.rhs.get +
        ρ * ((q s).basicValues (C.basis s)).get (C.leaving s) := by
    intro s ρ h
    obtain ⟨ε, hε⟩ := hsign s
    have := h.rhs_set (hdominant' s).regular
    rwa [← C.exchange, hprices s (s + 1) s.isLt, hprices s s s.isLt.le, hε.rhs] at this
  have hconstant : ∀ s ≤ C.length, (p.prices (C.basis s)).get ⬝ᵥ p.rhs.get =
      (p.prices (C.basis 0)).get ⬝ᵥ p.rhs.get := by
    intro s hs
    rw [← neg_inj]
    apply C.constant (g := fun β => -((p.prices β).get ⬝ᵥ p.rhs.get)) _ hs
    intro s
    obtain ⟨ρ, hρ⟩ := hpivot s
    have hfall := mul_nonpos_of_nonneg_of_nonpos (hρ.nonneg (hdominant' s)) hρ.negative.le
    have := hrhs s ρ hρ
    linarith
  induction s with
  | zero => rfl
  | succ s ih =>
      obtain ⟨ρ, hρ⟩ := hpivot ⟨s, hs⟩
      have hfall := hrhs ⟨s, hs⟩ ρ hρ
      rw [hconstant (s + 1) hs, hconstant s (by omega)] at hfall
      have hzero : ρ = 0 := by
        have hprod : ρ * ((q ⟨s, hs⟩).basicValues (C.basis s)).get (C.leaving ⟨s, hs⟩) = 0 := by
          linarith
        exact (mul_eq_zero.mp hprod).resolve_right hρ.negative.ne
      have hmove := hρ.prices_set (hdominant' ⟨s, hs⟩).regular
      rw [← C.exchange, hprices ⟨s, hs⟩ (s + 1) hs, hprices ⟨s, hs⟩ s (by omega), hzero, zero_smul,
        add_zero] at hmove
      rw [hmove]
      exact ih (by omega)

/-- The row that leaves at one step has a negative value at the point of another one, and so it has
a negative term there in a column that enters somewhere. -/
private theorem exists_failing {q : Program ℚ m n} {u v : Fin C.length}
    (hu : q.Regular (C.basis u)) (hv : q.Regular (C.basis v)) (hfresh : C.entering v ∉ C.basis v)
    (hnegative : (q.basicValues (C.basis v)).get (C.leaving v) < 0) :
    ∃ w, C.entering w ∈ C.basis u ∧
      q.tableauRow (C.basis v) (C.leaving v) (C.entering w) *
        q.point (C.basis u) (C.entering w) < 0 := by
  have hvalue : q.tableauRow (C.basis v) (C.leaving v) ⬝ᵥ q.point (C.basis u) < 0 := by
    rw [tableauRow_dot, matrix_mulVec_point hu, multipliers_dot_rhs hv]
    exact hnegative
  obtain ⟨i, hterm⟩ := exists_term_pos (u := -q.tableauRow (C.basis v) (C.leaving v))
    (by rw [neg_dotProduct]; exact neg_pos.mpr hvalue)
  rw [Pi.neg_apply, neg_mul, neg_pos] at hterm
  have hmem : i ∈ C.basis u := by
    by_contra hi
    rw [carries_point _ _ i hi, mul_zero] at hterm
    exact lt_irrefl 0 hterm
  have hfickle : ∃ s, C.entering s = i := by
    by_cases hi : i ∈ C.basis v
    · have hleaves : i = (C.basis v).get (C.leaving v) := by
        by_contra hne
        rw [tableauRow_of_mem hv hi hne, zero_mul] at hterm
        exact lt_irrefl 0 hterm
      apply C.exists_entering v.isLt.le v.isLt hi
      rw [C.exchange, Basis.mem_iff]
      rintro ⟨k, hk⟩
      rw [Basis.get_set] at hk
      split at hk
      · exact hfresh (hk ▸ hi)
      · next hne => exact hne (hv.injective (hk.trans hleaves))
    · exact C.exists_entering u.isLt.le v.isLt.le hmem hi
  obtain ⟨w, rfl⟩ := hfickle
  exact ⟨w, hmem, hterm⟩

/-- The largest column that enters would have to be passed over where it leaves. -/
private theorem not_dual_circuit (hdominant : ∀ s ≤ C.length, p.Dominant (C.basis s))
    (hsign : ∀ s, ∃ ε, SignChange p (q s) ε) (hpivot : ∀ s : Fin C.length,
      ∃ ρ, (q s).FirstDualPivot (C.basis s) (C.entering s) (C.leaving s) ρ) : False := by
  have hprices : ∀ s ≤ C.length, (p.prices (C.basis s)).get = (p.prices (C.basis 0)).get :=
    fun s hs => prices_constant hdominant hsign hpivot hs
  obtain ⟨v, hlargest⟩ := C.exists_largest
  obtain ⟨u, hleft⟩ := C.exists_left v
  obtain ⟨ρ, hu⟩ := hpivot u
  obtain ⟨ρ', hv⟩ := hpivot v
  obtain ⟨δ, hδ⟩ := hsign u
  obtain ⟨ε, hε⟩ := hsign v
  have hregular : p.Regular (C.basis u) := (hdominant u u.isLt.le).regular
  have hregularu : (q u).Regular (C.basis u) := hδ.regular hregular
  have hdominantv : (q v).Dominant (C.basis v) := (hdominant v v.isLt.le).signChange hε
  have hunbarred : ∀ s, p.barred.get (C.entering s) = false := by
    intro s
    obtain ⟨θ, hs⟩ := hpivot s
    obtain ⟨ε, hε⟩ := hsign s
    rw [← hε.barred]
    exact hs.unbarred
  obtain ⟨w, hmem, hterm⟩ :=
    exists_failing (hε.regular hregular) hdominantv.regular hv.fresh hv.negative
  obtain ⟨l, hl⟩ := Basis.mem_iff.mp hmem
  -- The sign of a column that may enter never changes.
  have hpoint : (q v).point (C.basis u) (C.entering w) =
      ((q u).basicValues (C.basis u)).get l := by
    rw [← point_get hregularu, hl, hε.point hregular, hδ.point hregular, Pi.mul_apply,
      Pi.mul_apply, hε.fixed _ (hunbarred w), hδ.fixed _ (hunbarred w)]
  rw [hpoint] at hterm
  rcases (hlargest w).lt_or_eq with hlt | heq
  · -- A smaller column is not negative at `u`; at `v` it has no surplus and should have entered.
    have hnonneg : 0 ≤ ((q u).basicValues (C.basis u)).get l := by
      by_contra hneg
      have hle := hu.first l (not_le.mp hneg)
      rw [hl, hleft] at hle
      exact absurd hlt (not_lt.mpr hle)
    have hrow : (q v).tableauRow (C.basis v) (C.leaving v) (C.entering w) < 0 := by
      by_contra hpos
      exact absurd hterm (not_lt.mpr (mul_nonneg (not_lt.mp hpos) hnonneg))
    have hout : C.entering w ∉ C.basis v := by
      intro hi
      obtain ⟨k, hk⟩ := Basis.mem_iff.mp hi
      rw [← hk, tableauRow_get hdominantv.regular] at hrow
      split at hrow
      · linarith
      · exact lt_irrefl 0 hrow
    have hsurplus : (q v).surplus ((q v).prices (C.basis v)).get (C.entering w) = 0 := by
      rw [hε.prices (hdominant v v.isLt.le).costless (hdominant v v.isLt.le).regular,
        hε.surplus _ (hunbarred w), hprices v v.isLt.le, ← hprices u u.isLt.le]
      exact surplus_prices_of_mem hregular hmem
    have hle := hv.entering_le hdominantv hout (by rw [hε.barred]; exact hunbarred w) hsurplus hrow
    exact absurd hlt (not_lt.mpr hle)
  · -- The largest column itself leaves at `u` and enters at `v`, with entries below zero.
    have hlk : l = C.leaving u := hregularu.injective (by rw [hl, hleft, heq])
    rw [heq, hlk] at hterm
    exact absurd hterm (not_lt.mpr (mul_pos_of_neg_of_neg hv.pivot_neg hu.negative).le)

end

/-- From a dominant basis there are fewer pivots than ways to choose a basis. -/
theorem dual_trail_lt (htol : o.tolerance = 0) (hrule : o.rule = .bland) (hβ : p.Dominant β)
    {t : ℕ} {s : DualState m n} (h : Trail (DualStep o) t (p, β) s) : t < n ^ m := by
  by_contra hlong
  obtain ⟨f, C, hbasis, -, hkeeps, hpivot⟩ := h.exists_basis_circuit Prod.snd
    (P := fun s => s.1.Dominant s.2 ∧ ∃ ε, SignChange p s.1 ε)
    (R := fun s t j k => (∃ ρ, t.1.FirstDualPivot s.2 j k ρ) ∧ ∃ ε, SignChange p t.1 ε)
    (fun _ _ hs h => ⟨h.dominant htol hs.1, hs.2.elim fun _ hε => h.signChange hs.1.regular hε⟩)
    (by
      intro s t hs h
      have hsign := hs.2.elim fun _ hε => h.signChange hs.1.regular hε
      obtain ⟨hturned, k, e, hk, he, hset⟩ := h
      have hregular : t.1.Regular s.2 := by
        rw [hturned]
        exact (hs.1.turned o).regular
      obtain ⟨hdual, hfirst⟩ := exists_dualPivot htol hregular hk he
      exact ⟨e.2, k, ⟨⟨e.1, hfirst hrule⟩, hsign⟩, hdual.fresh, hset⟩)
    ⟨hβ, 1, .refl p⟩ (not_lt.mp hlong)
  refine @not_dual_circuit _ _ p C (fun s => (f (s + 1)).1) ?_ (fun s => (hpivot s).2) ?_
  · intro s hs
    obtain ⟨hdominant, ε, hε⟩ := hkeeps s hs
    rw [hbasis]
    exact hdominant.signChange hε.symm
  · intro s
    rw [hbasis]
    exact (hpivot s).1

/-- No time limit, exact arithmetic, and the rule of the first column. -/
structure Patient (o : SolveOptions ℚ) : Prop where
  tolerance : o.tolerance = 0
  rule : o.rule = .bland
  time : o.timeLimit = none

private theorem Patient.after (h : Patient o) (pivots : ℕ) : Patient (o.after pivots) :=
  ⟨h.tolerance, h.rule, h.time⟩

private theorem Patient.expired (h : Patient o) (pivots : ℕ) : o.expired pivots = false := by
  rw [SolveOptions.expired, h.time]

private theorem primal_ends (ho : Patient o) (limit : ℤ)
    (hshort : ∀ t γ, Trail (p.PrimalStep o) t β γ → t < (max limit 1).toNat) :
    (Verdict.ofPrimal (p.primal o limit β).ending).status ≠ .unfinished := by
  unfold primal
  split
  · unfold withoutRows
    simp only
    split <;> nofun
  · obtain ⟨t, htrail, -, -, hstop, hexhausted⟩ := primalFrom_trail p o (max limit 1).toNat 0 β
    have hlt := hshort t _ htrail
    cases hend : (p.primalFrom o (max limit 1).toNat 0 β).ending with
    | optimal point => nofun
    | unbounded => nofun
    | iterationLimit => exact absurd (hexhausted hend) hlt.ne
    | timeLimit =>
        rw [hend] at hstop
        cases hstop with
        | timeLimit hexpired =>
            rw [ho.expired] at hexpired
            cases hexpired

private theorem primal_finishes (ho : Patient o) (hβ : p.Viable β) (limit : ℤ)
    (hlimit : n ^ m ≤ limit) :
    (Verdict.ofPrimal (p.primal o limit β).ending).status ≠ .unfinished := by
  apply primal_ends ho
  intro t γ htrail
  have hlt := primal_trail_lt ho.tolerance ho.rule hβ htrail
  have hcast : ((n ^ m : ℕ) : ℤ) = (n : ℤ) ^ m := by push_cast; rfl
  omega

private theorem primal_iterations_le (ho : Patient o) (hβ : p.Viable β) (limit : ℤ) :
    (p.primal o limit β).iterations ≤ n ^ m := by
  unfold primal
  split
  · exact Nat.zero_le _
  · obtain ⟨t, htrail, hiterations, -⟩ := primalFrom_trail p o (max limit 1).toNat 0 β
    have hlt := primal_trail_lt ho.tolerance ho.rule hβ htrail
    omega

private theorem phaseTwo_finishes (ho : Patient o) (hβ : p.Viable β) {iterations : ℕ}
    (hlimit : iterations + n ^ m ≤ o.maxIterations) (journal : List (Event ℚ)) :
    (p.phaseTwo o iterations journal β).ending.status ≠ .unfinished :=
  primal_finishes (ho.after iterations) hβ _ (by linarith)

theorem twoPhase_finishes (ho : Patient o) (hβ : p.phaseOne.Viable β)
    (hlimit : 2 * n ^ m ≤ o.maxIterations) :
    (p.twoPhase o β).ending.status ≠ .unfinished := by
  have hpow : (0 : ℤ) ≤ (n : ℤ) ^ m := by positivity
  have hfirst := primal_finishes ho hβ o.maxIterations (by linarith)
  have hphased := phased_twoPhase p o β
  generalize p.twoPhase o β = out at hphased ⊢
  cases hphased with
  | skipped hskip =>
      apply phaseTwo_finishes ho (hβ.of_skip hskip)
      push_cast
      linarith
  | unbounded | infeasible => nofun
  | iterationLimit _ hend | timeLimit _ hend =>
      rw [hend] at hfirst
      exact absurd rfl hfirst
  | finished _ hend hsum =>
      have hopt := primal_optimal ho.tolerance hβ hend
      rw [ho.tolerance] at hsum
      apply phaseTwo_finishes ho (hopt.viable.of_phaseOne hopt.x_eq (not_lt.mp hsum))
      have : ((p.phaseOne.primal o o.maxIterations β).iterations : ℤ) ≤ (n : ℤ) ^ m := by
        exact_mod_cast primal_iterations_le ho hβ o.maxIterations
      linarith

private theorem primal_finishes_of_priced (ho : Patient o) (hβ : p.Viable β)
    (hpriced : p.Priced (p.prices β).get) (limit : ℤ) :
    (Verdict.ofPrimal (p.primal o limit β).ending).status ≠ .unfinished := by
  apply primal_ends ho
  intro t γ htrail
  by_contra hlong
  obtain ⟨γ, hstep⟩ := htrail.exists_step (by omega)
  obtain ⟨j, k, θ, hpivot, -⟩ := hstep.exists_pivot ho.tolerance hβ
  exact absurd hpivot.gain (not_lt.mpr (hpriced j hpivot.unbarred))

theorem repair_finishes (ho : Patient o) (hβ : p.Dominant β) (hlimit : n ^ m ≤ o.maxIterations)
    {out : Outcome ℚ m n} (h : p.repair? o β = some out) : out.ending.status ≠ .unfinished := by
  obtain ⟨t, q, ε, htrail, -, hdominant, hprogram, hε, hstop, hexhausted, -⟩ :=
    dual_trail ho.tolerance hβ o.maxIterations
  have hlt := dual_trail_lt ho.tolerance ho.rule hβ htrail
  cases repaired_of_repair h with
  | infeasible _ => nofun
  | iterationLimit hend =>
      have hbudget := hexhausted hend
      have hcast : ((n ^ m : ℕ) : ℤ) = (n : ℤ) ^ m := by push_cast; rfl
      omega
  | timeLimit hend =>
      rw [hend] at hstop
      cases hstop with
      | timeLimit hexpired =>
          rw [ho.expired] at hexpired
          cases hexpired
  | optimal hend =>
      rw [hend] at hstop
      cases hstop with
      | optimal hnone =>
          rw [hprogram] at hnone
          have hviable := viable_of_dualLeaving ho.tolerance hdominant.regular hnone
          have hpriced := (hdominant.turned o).priced
          rw [← hprogram] at hviable hpriced
          exact primal_finishes_of_priced (ho.after _) hviable hpriced _

end IncrementalLP.Program
