import IncrementalLP.Proofs.Simplex.Primal
/-!
# Closed walks of bases

A method that cycles walks through bases in a circle. A column that enters on such a walk also
leaves, and a quantity that never falls is constant.
-/
namespace IncrementalLP

variable {m n : ℕ}

/-- Exchanges of columns that lead back to the basis where they start. -/
structure Circuit (m n : ℕ) where
  length : ℕ
  basis : ℕ → Basis m n
  entering : Fin length → Fin n
  leaving : Fin length → Fin m
  pos : 0 < length
  exchange : ∀ s : Fin length,
    basis (s + 1) = (basis s).set (leaving s) (entering s) (leaving s).isLt
  fresh : ∀ s : Fin length, entering s ∉ basis s
  closed : basis length = basis 0

namespace Circuit

variable (c : Circuit m n) {j : Fin n}

private theorem mem_exchange (s : Fin c.length) : c.entering s ∈ c.basis (s + 1) := by
  rw [c.exchange, Basis.mem_iff]
  exact ⟨c.leaving s, by rw [Basis.get_set, if_pos rfl]⟩

private theorem mem_of_mem_succ (s : Fin c.length) (hj : c.entering s ≠ j)
    (h : j ∈ c.basis (s + 1)) : j ∈ c.basis s := by
  rw [c.exchange] at h
  obtain ⟨k, hk⟩ := Basis.mem_iff.mp h
  rw [Basis.get_set] at hk
  split at hk
  · exact absurd hk hj
  · exact Basis.mem_iff.mpr ⟨k, hk⟩

private theorem mem_succ_of_mem (s : Fin c.length) (hj : (c.basis s).get (c.leaving s) ≠ j)
    (h : j ∈ c.basis s) : j ∈ c.basis (s + 1) := by
  obtain ⟨k, hk⟩ := Basis.mem_iff.mp h
  rw [c.exchange, Basis.mem_iff]
  refine ⟨k, ?_⟩
  rw [Basis.get_set, if_neg, hk]
  rintro rfl
  exact hj hk

private theorem mem_of_mem_of_le (hj : ∀ s, c.entering s ≠ j) {a b : ℕ} (hab : a ≤ b)
    (hb : b ≤ c.length) (h : j ∈ c.basis b) : j ∈ c.basis a := by
  induction b, hab using Nat.le_induction with
  | base => exact h
  | succ b _ ih => exact ih (by omega) (c.mem_of_mem_succ ⟨b, hb⟩ (hj _) h)

/-- A column that is in one basis of the walk and not in another one enters. -/
theorem exists_entering {a b : ℕ} (ha : a ≤ c.length) (hb : b ≤ c.length)
    (hmem : j ∈ c.basis a) (hnot : j ∉ c.basis b) : ∃ s, c.entering s = j := by
  by_contra hnone
  rw [not_exists] at hnone
  apply hnot
  have hstart : j ∈ c.basis 0 := c.mem_of_mem_of_le hnone (Nat.zero_le a) ha hmem
  rw [← c.closed] at hstart
  exact c.mem_of_mem_of_le hnone hb le_rfl hstart

theorem exists_left (v : Fin c.length) :
    ∃ u : Fin c.length, (c.basis u).get (c.leaving u) = c.entering v := by
  by_contra hnone
  rw [not_exists] at hnone
  have hup : ∀ a b, a ≤ b → b ≤ c.length → c.entering v ∈ c.basis a →
      c.entering v ∈ c.basis b := by
    intro a b hab
    induction b, hab using Nat.le_induction with
    | base => exact fun _ h => h
    | succ b _ ih => exact fun hb h => c.mem_succ_of_mem ⟨b, hb⟩ (hnone _) (ih (by omega) h)
  have hend := hup _ c.length v.isLt le_rfl (c.mem_exchange v)
  rw [c.closed] at hend
  exact c.fresh v (hup 0 v (Nat.zero_le _) v.isLt.le hend)

theorem exists_largest : ∃ v, ∀ s, c.entering s ≤ c.entering v :=
  have : Nonempty (Fin c.length) := ⟨⟨0, c.pos⟩⟩
  Finite.exists_max c.entering

/-- A quantity that never falls on the walk never grows either. -/
theorem constant {g : Basis m n → ℚ}
    (hg : ∀ s : Fin c.length, g (c.basis s) ≤ g (c.basis (s + 1))) {s : ℕ} (hs : s ≤ c.length) :
    g (c.basis s) = g (c.basis 0) := by
  have hmono : ∀ a b, a ≤ b → b ≤ c.length → g (c.basis a) ≤ g (c.basis b) := by
    intro a b hab
    induction b, hab using Nat.le_induction with
    | base => exact fun _ => le_rfl
    | succ b _ ih => exact fun hb => (ih (by omega)).trans (hg ⟨b, hb⟩)
  apply le_antisymm
  · rw [← c.closed]
    exact hmono s c.length hs le_rfl
  · exact hmono 0 s (Nat.zero_le s) hs

end Circuit

theorem Trail.exists_basis_circuit {σ : Type} {next : σ → σ → Prop} {t : ℕ} {a c : σ}
    (basis : σ → Basis m n) {P : σ → Prop} {R : σ → σ → Fin n → Fin m → Prop}
    (hstep : ∀ a b, P a → next a b → P b)
    (hnext : ∀ a b, P a → next a b → ∃ j, ∃ k : Fin m, R a b j k ∧ j ∉ basis a ∧
      basis b = (basis a).set k j k.isLt)
    (h : Trail next t a c) (ha : P a) (ht : n ^ m ≤ t) :
    ∃ (f : ℕ → σ) (C : Circuit m n), (∀ s, C.basis s = basis (f s)) ∧
      (∀ s : Fin C.length, next (f s) (f (s + 1))) ∧ (∀ s ≤ C.length, P (f s)) ∧
      ∀ s : Fin C.length, R (f s) (f (s + 1)) (C.entering s) (C.leaving s) := by
  obtain ⟨f, L, hL, hf, hP, hclosed⟩ := h.exists_circuit (fun s => (basis s).get) hstep ha
    (by simpa using ht)
  choose j k hpivot hfresh hset using
    fun s : Fin L => hnext _ _ (hP s s.isLt.le) (hf s s.isLt)
  refine ⟨f, ⟨L, fun s => basis (f s), j, k, hL, hset, hfresh, ?_⟩, fun _ => rfl,
    fun s => hf s s.isLt, hP, hpivot⟩
  ext i hi
  exact congrArg Fin.val (congrFun hclosed ⟨i, hi⟩)

end IncrementalLP
