import Mathlib
import IncrementalLP.Number.Instances
import IncrementalLP.Random.Draws
/-!
# Laws of draws

What may be expected of a source of draws, and what then holds of everything that is drawn from it,
in whatever state it is. With exact numbers the twister keeps these laws.
-/
namespace IncrementalLP

/-- Draws that keep to their ranges. A value between two others may be one of them. -/
structure DrawSource.Lawful {σ : Type} (d : DrawSource σ ℚ) : Prop where
  fraction : ∀ s, (d.fraction s).1 ∈ Set.Ico 0 1
  uniform : ∀ a b s, (d.uniform a b s).1 ∈ Set.uIcc a b
  below : ∀ {n : ℕ}, 0 < n → ∀ s, (d.below n s).1 < n

namespace Twister

theorem fraction_mem (t : Twister) : (fraction t : ℚ × Twister).1 ∈ Set.Ico 0 1 := by
  have hhigh : (t.next.1 >>> 5).toNat < 2 ^ 27 := by
    have := t.next.1.toNat_lt
    rw [UInt32.toNat_shiftRight, Nat.shiftRight_eq_div_pow]
    exact Nat.div_lt_of_lt_mul this
  have hlow : (t.next.2.next.1 >>> 6).toNat < 2 ^ 26 := by
    have := t.next.2.next.1.toNat_lt
    rw [UInt32.toNat_shiftRight, Nat.shiftRight_eq_div_pow]
    exact Nat.div_lt_of_lt_mul this
  have heq : (fraction t : ℚ × Twister).1 =
      (((t.next.1 >>> 5).toNat * 2 ^ 26 + (t.next.2.next.1 >>> 6).toNat : ℕ) : ℚ) /
        ((2 ^ 53 : ℕ) : ℚ) := rfl
  rw [heq, Set.mem_Ico, div_lt_one (by positivity), Nat.cast_lt]
  exact ⟨by positivity, by omega⟩

theorem uniform_mem (a b : ℚ) (t : Twister) : (uniform a b t).1 ∈ Set.uIcc a b := by
  obtain ⟨hlow, hhigh⟩ := fraction_mem t
  show a + (b - a) * (fraction t).1 ∈ Set.uIcc a b
  rcases le_total a b with h | h
  · rw [Set.uIcc_of_le h, Set.mem_Icc]
    constructor <;> nlinarith
  · rw [Set.uIcc_of_ge h, Set.mem_Icc]
    constructor <;> nlinarith

theorem below_lt {n : ℕ} (hn : 0 < n) (t : Twister) : (below n t).1 < n := by
  suffices h : ∀ tries t, (belowWithin n (n.log2 + 1) tries t).1 < n from h _ t
  intro tries
  induction tries with
  | zero => exact fun t => Nat.mod_lt _ hn
  | succ tries ih =>
      intro t
      simp only [belowWithin]
      split
      · next hlt => exact hlt
      · exact ih _

theorem source_lawful : (source : DrawSource Twister ℚ).Lawful :=
  ⟨fraction_mem, uniform_mem, below_lt⟩

end Twister

section

variable {σ β γ ε : Type} {P : β → Prop} {Q : γ → Prop}

/-- From whatever state a computation starts, its value has a property. -/
def Always (P : β → Prop) (m : StateM σ β) : Prop := ∀ s, P (m s).1

/-- From whatever state a computation starts, it returns something that has a property. -/
def AlwaysReturns (P : β → Prop) : StateM σ (Except ε β) → Prop :=
  Always fun a => ∃ b, a = .ok b ∧ P b

theorem always_pure {b : β} (h : P b) : Always P (pure b : StateM σ β) := fun _ => h

theorem Always.bind {m : StateM σ β} {f : β → StateM σ γ} (hm : Always P m)
    (hf : ∀ b, P b → Always Q (f b)) : Always Q (m >>= f) := fun s => hf _ (hm s) _

theorem Always.imp {Q : β → Prop} {m : StateM σ β} (hm : Always P m) (h : ∀ b, P b → Q b) :
    Always Q m := fun s => h _ (hm s)

theorem always_mapM {R : β → γ → Prop} {f : β → StateM σ γ} {l : List β}
    (hf : ∀ b ∈ l, Always (R b) (f b)) : Always (List.Forall₂ R l) (l.mapM f) := by
  induction l with
  | nil =>
      rw [List.mapM_nil]
      exact always_pure .nil
  | cons b l ih =>
      rw [List.mapM_cons]
      obtain ⟨hb, hl⟩ := List.forall_mem_cons.mp hf
      exact hb.bind fun c hc => (ih hl).bind fun cs hcs => always_pure (.cons hc hcs)

private theorem always_filterAuxM (p : β → StateM σ Bool) (l acc : List β) :
    Always (fun kept => ∃ chosen, kept = chosen ++ acc ∧ chosen.reverse.Sublist l)
      (l.filterAuxM p acc) := by
  induction l generalizing acc with
  | nil => exact always_pure ⟨[], rfl, .slnil⟩
  | cons b l ih =>
      have hany : Always (fun _ => True) (p b) := fun _ => trivial
      refine hany.bind fun keep _ => (ih _).imp ?_
      rintro _ ⟨chosen, rfl, hchosen⟩
      cases keep with
      | false => exact ⟨chosen, rfl, hchosen.cons b⟩
      | true =>
          refine ⟨chosen ++ [b], by simp, ?_⟩
          rw [List.reverse_append]
          exact hchosen.cons_cons b

theorem always_filterM (p : β → StateM σ Bool) (l : List β) :
    Always (List.Sublist · l) (l.filterM p) := by
  refine (always_filterAuxM p l []).bind ?_
  rintro _ ⟨chosen, rfl, hchosen⟩
  rw [List.append_nil]
  exact always_pure hchosen

end

end IncrementalLP
