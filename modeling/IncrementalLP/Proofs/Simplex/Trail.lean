import Mathlib
/-!
# Trails

A loop as a chain of steps. A chain that is longer than a finite number of places visits one of
them twice.
-/
namespace IncrementalLP

/-- A number of steps that lead from one state to another. -/
inductive Trail {σ : Type} (next : σ → σ → Prop) : ℕ → σ → σ → Prop
  | refl (a : σ) : Trail next 0 a a
  | head {t : ℕ} {a b c : σ} : next a b → Trail next t b c → Trail next (t + 1) a c

namespace Trail

variable {σ : Type} {next : σ → σ → Prop} {t : ℕ} {a c : σ}

theorem preserves {P : σ → Prop} (hstep : ∀ a b, P a → next a b → P b) (h : Trail next t a c)
    (ha : P a) : P c := by
  induction h with
  | refl a => exact ha
  | head hab _ ih => exact ih (hstep _ _ ha hab)

theorem exists_step (h : Trail next t a c) (ht : 0 < t) : ∃ b, next a b := by
  cases h with
  | refl => exact absurd ht (Nat.lt_irrefl 0)
  | head hab _ => exact ⟨_, hab⟩

theorem exists_path (h : Trail next t a c) :
    ∃ f : ℕ → σ, f 0 = a ∧ f t = c ∧ ∀ s < t, next (f s) (f (s + 1)) := by
  induction h with
  | refl a => exact ⟨fun _ => a, rfl, rfl, fun s hs => absurd hs (Nat.not_lt_zero s)⟩
  | @head t a b c hab _ ih =>
      obtain ⟨f, hf0, hft, hf⟩ := ih
      refine ⟨fun s => Nat.casesOn s a f, rfl, hft, ?_⟩
      intro s hs
      cases s with
      | zero =>
          show next a (f 0)
          rwa [hf0]
      | succ s => exact hf s (by omega)

/-- What the steps preserve holds all along a path. -/
theorem forall_path {P : σ → Prop} (hstep : ∀ a b, P a → next a b → P b) {f : ℕ → σ}
    (hf : ∀ s < t, next (f s) (f (s + 1))) (h0 : P (f 0)) : ∀ s ≤ t, P (f s) := by
  intro s
  induction s with
  | zero => exact fun _ => h0
  | succ s ih =>
      intro hs
      exact hstep _ _ (ih (by omega)) (hf s (by omega))

/-- A long trail holds a closed walk, on which every state keeps what the steps preserve. -/
theorem exists_circuit {κ : Type} [Fintype κ] (key : σ → κ) {P : σ → Prop}
    (hstep : ∀ a b, P a → next a b → P b) (h : Trail next t a c) (ha : P a)
    (hcard : Fintype.card κ ≤ t) :
    ∃ (f : ℕ → σ) (L : ℕ), 0 < L ∧ (∀ s < L, next (f s) (f (s + 1))) ∧
      (∀ s ≤ L, P (f s)) ∧ key (f L) = key (f 0) := by
  obtain ⟨f, hf0, -, hf⟩ := h.exists_path
  have hP : ∀ s ≤ t, P (f s) := forall_path hstep hf (by rwa [hf0])
  obtain ⟨i, j, hij, hkey⟩ := Fintype.exists_ne_map_eq_of_card_lt
    (fun s : Fin (t + 1) => key (f s)) (by rw [Fintype.card_fin]; omega)
  have hclosed : ∀ i j : Fin (t + 1), i < j → key (f i) = key (f j) →
      ∃ (f : ℕ → σ) (L : ℕ), 0 < L ∧ (∀ s < L, next (f s) (f (s + 1))) ∧
        (∀ s ≤ L, P (f s)) ∧ key (f L) = key (f 0) := by
    intro i j hlt hkey
    have hi : (i : ℕ) < j := hlt
    have hj := j.isLt
    refine ⟨fun s => f (i + s), j - i, by omega, ?_, ?_, ?_⟩
    · intro s hs
      exact hf (i + s) (by omega)
    · intro s hs
      exact hP (i + s) (by omega)
    · show key (f (i + (j - i))) = key (f (i + 0))
      rw [Nat.add_sub_cancel' hi.le]
      exact hkey.symm
  rcases lt_or_gt_of_ne hij with hlt | hlt
  · exact hclosed i j hlt hkey
  · exact hclosed j i hlt hkey.symm

end Trail

end IncrementalLP
