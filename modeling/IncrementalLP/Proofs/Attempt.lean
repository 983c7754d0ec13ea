import Mathlib
import IncrementalLP.Attempt
/-!
# What comes of operations

When a composed operation returns, in terms of its parts; and operations that leave the state as it
was where they fail, because all that can fail in them comes before the first change.
-/
namespace IncrementalLP

section

variable {α β ε : Type}

theorem bind_eq_ok {x : Except ε α} {f : α → Except ε β} {b : β} :
    (x >>= f) = .ok b ↔ ∃ a, x = .ok a ∧ f a = .ok b := by
  cases x <;> simp [bind, Except.bind]

theorem bind_eq_error {x : Except ε α} {f : α → Except ε β} {e : ε} :
    (x >>= f) = .error e ↔ x = .error e ∨ ∃ a, x = .ok a ∧ f a = .error e := by
  cases x <;> simp [bind, Except.bind]

@[simp] theorem pure_eq_ok {a b : α} : (pure a : Except ε α) = .ok b ↔ a = b := by
  simp [pure, Except.pure]

@[simp] theorem throw_ne_ok {e : ε} {b : β} : (throw e : Except ε β) ≠ .ok b := by
  simp [throw, throwThe, MonadExceptOf.throw]

theorem guard_eq_ok {p : Prop} [Decidable p] {e : ε} {f : α → Except ε β} {x : Except ε β}
    {b : β} : (if p then throw e >>= f else x) = .ok b ↔ ¬ p ∧ x = .ok b := by
  split
  · next h => simp [h, throw, throwThe, MonadExceptOf.throw, bind, Except.bind]
  · next h => simp [h]

theorem guard_eq_error {p : Prop} [Decidable p] {e e' : ε} {f : α → Except ε β} {x : Except ε β} :
    (if p then throw e >>= f else x) = .error e' ↔ p ∧ e = e' ∨ ¬ p ∧ x = .error e' := by
  split
  · next h => simp [h, throw, throwThe, MonadExceptOf.throw, bind, Except.bind]
  · next h => simp [h]

end

namespace Action

variable {σ τ α β γ : Type}

/-- The operation takes one state to another and answers. -/
def Returns (x : Action σ α β) (s t : σ) (b : β) : Prop :=
  (x s).state = t ∧ (x s).answer = .ok b

@[simp] theorem returns_pure {s t : σ} {b c : β} :
    Returns (pure b : Action σ α β) s t c ↔ s = t ∧ b = c := by
  simp [Returns, pure]

theorem bind_of_ok {x : Action σ α β} {f : β → Action σ α γ} {s t : σ} {b : β}
    (h : x s = ⟨t, [], .ok b⟩) : (x >>= f) s = f b t := by
  simp only [bind, h]
  rfl

theorem bind_of_error {x : Action σ α β} {f : β → Action σ α γ} {s t : σ} {e : Fault α}
    (h : x s = ⟨t, [], .error e⟩) : (x >>= f) s = ⟨t, [], .error e⟩ := by
  simp only [bind, h]

theorem answer_bind_pure (x : Action σ α β) (f : β → γ) (s : σ) :
    ((x >>= fun b => pure (f b)) s).answer = (x s).answer.map f := by
  simp only [bind]
  cases (x s).answer <;> rfl

theorem state_bind_pure (x : Action σ α β) (f : β → γ) (s : σ) :
    ((x >>= fun b => pure (f b)) s).state = (x s).state := by
  simp only [bind]
  cases (x s).answer <;> rfl

theorem returns_bind {x : Action σ α β} {f : β → Action σ α γ} {s u : σ} {c : γ} :
    Returns (x >>= f) s u c ↔ ∃ t b, Returns x s t b ∧ Returns (f b) t u c := by
  simp only [Returns, bind]
  cases (x s).answer <;> simp

@[simp] theorem returns_discard {x : Action σ α β} {s t : σ} {u : Unit} :
    Returns (x >>= fun _ => pure ()) s t u ↔ ∃ b, Returns x s t b := by
  simp only [returns_bind, returns_pure]
  constructor
  · rintro ⟨_, b, h, rfl, -⟩
    exact ⟨b, h⟩
  · rintro ⟨b, h⟩
    exact ⟨t, b, h, rfl, trivial⟩

@[simp] theorem returns_get_bind {f : σ → Action σ α γ} {s u : σ} {c : γ} :
    Returns (get >>= f) s u c ↔ Returns (f s) s u c := Iff.rfl

@[simp] theorem returns_lift_bind {r : Except (Fault α) β} {f : β → Action σ α γ} {s u : σ}
    {c : γ} :
    Returns (lift r >>= f) s u c ↔ ∃ b, r = .ok b ∧ Returns (f b) s u c := by
  simp only [Returns, lift, bind]
  cases r <;> simp

@[simp] theorem returns_modify {g : σ → σ} {s t : σ} {u : PUnit} :
    Returns (modify g : Action σ α PUnit) s t u ↔ g s = t := by
  simp [Returns, modify, modifyGet, MonadStateOf.modifyGet]

@[simp] theorem returns_modify_bind {g : σ → σ} {f : PUnit → Action σ α γ} {s u : σ} {c : γ} :
    Returns (modify g >>= f) s u c ↔ Returns (f ⟨⟩) (g s) u c := Iff.rfl

@[simp] theorem returns_set_bind {s t u : σ} {f : PUnit → Action σ α γ} {c : γ} :
    Returns (set t >>= f) s u c ↔ Returns (f ⟨⟩) t u c := Iff.rfl

@[simp] theorem not_returns_throw {f : Fault α} {s t : σ} {b : β} :
    ¬ Returns (throw f : Action σ α β) s t b := by
  simp [Returns, throw, throwThe, MonadExceptOf.throw]

@[simp] theorem returns_report {e : Event α} {s t : σ} {u : Unit} :
    Returns (report e : Action σ α Unit) s t u ↔ s = t := by
  simp [Returns, report]

@[simp] theorem returns_report_bind {e : Event α} {f : Unit → Action σ α γ} {s u : σ} {c : γ} :
    Returns (report e >>= f) s u c ↔ Returns (f ()) s u c := Iff.rfl

theorem returns_ite {p : Prop} [Decidable p] {x y : Action σ α β} {s t : σ} {b : β} :
    Returns (if p then x else y) s t b ↔ if p then Returns x s t b else Returns y s t b := by
  split <;> rfl

theorem returns_guard {p : Prop} [Decidable p] {f : Fault α} {g : β → Action σ α γ}
    {x : Action σ α γ} {s t : σ} {c : γ} :
    Returns (if p then throw f >>= g else x) s t c ↔ ¬ p ∧ Returns x s t c := by
  split
  · next h => simp [h, returns_bind, not_returns_throw]
  · next h => simp [h]

theorem returns_within {part : σ → τ} {put : τ → σ → σ} {x : Action τ α β} {s t : σ} {b : β} :
    Returns (within part put x) s t b ↔ ∃ p, Returns x (part s) p b ∧ put p s = t := by
  simp only [Returns, within]
  constructor
  · rintro ⟨hstate, hanswer⟩
    exact ⟨_, ⟨rfl, hanswer⟩, hstate⟩
  · rintro ⟨p, ⟨rfl, hanswer⟩, hput⟩
    exact ⟨hput, hanswer⟩

theorem returns_forEach_modify {f : β → σ → σ} {xs : List β} {s t : σ} {u : Unit} :
    Returns (forEach xs fun b => (modify (f b) : Action σ α PUnit)) s t u ↔
      xs.foldl (fun s b => f b s) s = t := by
  induction xs generalizing s with
  | nil => simp [forEach, returns_pure]
  | cons b xs ih =>
      simp only [forEach, returns_modify_bind, List.foldl_cons, ih]

theorem returns_forEach_modify_bind {f : β → σ → σ} {xs : List β} {g : Unit → Action σ α γ}
    {s u : σ} {c : γ} :
    Returns ((forEach xs fun b => (modify (f b) : Action σ α PUnit)) >>= g) s u c ↔
      Returns (g ()) (xs.foldl (fun s b => f b s) s) u c := by
  simp only [returns_bind, returns_forEach_modify]
  exact ⟨fun ⟨_, _, hs, h⟩ => hs ▸ h, fun h => ⟨_, (), rfl, h⟩⟩

/-- The operation takes one state to another and then fails. -/
def Fails (x : Action σ α β) (s t : σ) (f : Fault α) : Prop :=
  (x s).state = t ∧ (x s).answer = .error f

theorem fails_bind {x : Action σ α β} {g : β → Action σ α γ} {s u : σ} {f : Fault α} :
    Fails (x >>= g) s u f ↔ Fails x s u f ∨ ∃ t b, Returns x s t b ∧ Fails (g b) t u f := by
  simp only [Fails, Returns, bind]
  cases (x s).answer <;> simp

@[simp] theorem fails_get_bind {g : σ → Action σ α γ} {s u : σ} {f : Fault α} :
    Fails (get >>= g) s u f ↔ Fails (g s) s u f := Iff.rfl

@[simp] theorem fails_lift_bind {r : Except (Fault α) β} {g : β → Action σ α γ} {s u : σ}
    {f : Fault α} :
    Fails (lift r >>= g) s u f ↔
      s = u ∧ r = .error f ∨ ∃ b, r = .ok b ∧ Fails (g b) s u f := by
  simp only [Fails, lift, bind]
  cases r <;> simp

@[simp] theorem not_fails_modify {g : σ → σ} {s t : σ} {f : Fault α} :
    ¬ Fails (modify g : Action σ α PUnit) s t f := by
  simp [Fails, modify, modifyGet, MonadStateOf.modifyGet]

theorem fails_forEach {xs : List β} {g : β → Action σ α Unit} {s u : σ} {f : Fault α} :
    Fails (forEach xs g) s u f ↔
      ∃ done b rest t, xs = done ++ b :: rest ∧ Returns (forEach done g) s t () ∧
        Fails (g b) t u f := by
  induction xs generalizing s with
  | nil => simp [forEach, Fails, pure]
  | cons a xs ih =>
      rw [forEach, fails_bind]
      constructor
      · rintro (h | ⟨t, _, ha, h⟩)
        · exact ⟨[], a, xs, s, rfl, returns_pure.mpr ⟨rfl, rfl⟩, h⟩
        · obtain ⟨done, b, rest, v, rfl, hdone, hb⟩ := ih.mp h
          exact ⟨a :: done, b, rest, v, rfl, returns_bind.mpr ⟨t, (), ha, hdone⟩, hb⟩
      · rintro ⟨done, b, rest, v, hxs, hdone, hb⟩
        cases done with
        | nil =>
            obtain ⟨rfl, -⟩ := List.cons.inj hxs
            obtain ⟨rfl, -⟩ := returns_pure.mp hdone
            exact Or.inl hb
        | cons c done =>
            obtain ⟨rfl, rfl⟩ := List.cons.inj hxs
            obtain ⟨t, _, hc, hrest⟩ := returns_bind.mp hdone
            exact Or.inr ⟨t, (), hc, ih.mpr ⟨done, b, rest, v, rfl, hrest, hb⟩⟩

/-- Whatever comes of it, the operation preserves a property of states. -/
def Preserves (P : σ → Prop) (x : Action σ α β) : Prop := ∀ s, P s → P (x s).state

section

variable {P : σ → Prop}

theorem Preserves.bind {x : Action σ α β} {f : β → Action σ α γ} (hx : Preserves P x)
    (hf : ∀ b, Preserves P (f b)) : Preserves P (x >>= f) := by
  intro s hs
  simp only [Bind.bind]
  split
  · exact hf _ _ (hx s hs)
  · exact hx s hs

theorem preserves_lift_bind {r : Except (Fault α) β} {f : β → Action σ α γ}
    (hf : ∀ b, r = .ok b → Preserves P (f b)) : Preserves P (lift r >>= f) := by
  cases r with
  | error e => exact fun _ hs => hs
  | ok b => exact hf b rfl

theorem preserves_get_bind {f : σ → Action σ α γ}
    (hf : ∀ s, P s → P (f s s).state) : Preserves P (get >>= f) := hf

theorem preserves_modify {g : σ → σ} (hg : ∀ s, P s → P (g s)) :
    Preserves P (modify g : Action σ α PUnit) := hg

theorem preserves_forEach {xs : List β} {g : β → Action σ α Unit}
    (hg : ∀ b ∈ xs, Preserves P (g b)) : Preserves P (forEach xs g) := by
  induction xs with
  | nil => exact fun _ hs => hs
  | cons b xs ih =>
      apply (hg b List.mem_cons_self).bind
      exact fun _ => ih fun c hc => hg c (List.mem_cons_of_mem _ hc)

end

/-- A failure leaves the state as it was. -/
def Atomic (x : Action σ α β) : Prop :=
  ∀ s f, (x s).answer = .error f → (x s).state = s

/-- Such an operation leaves the state as it was, or it returns. -/
theorem Atomic.state_eq_or_returns {x : Action σ α β} (hx : Atomic x) (s : σ) :
    (x s).state = s ∨ ∃ b, Returns x s (x s).state b := by
  cases h : (x s).answer with
  | error f => exact Or.inl (hx s f h)
  | ok b => exact Or.inr ⟨b, rfl, h⟩

/-- Whatever holds before such an operation and wherever it returns holds after it. -/
theorem Atomic.state_induction {P : σ → Prop} {x : Action σ α β} {s : σ} (hx : Atomic x) (hs : P s)
    (hreturns : ∀ {t b}, Returns x s t b → P t) : P (x s).state := by
  rcases hx.state_eq_or_returns s with heq | ⟨b, h⟩
  · rwa [heq]
  · exact hreturns h

/-- The operation never changes the state: it looks and checks. -/
def Steady (x : Action σ α β) : Prop := ∀ s, (x s).state = s

/-- The operation never fails. -/
def Sure (x : Action σ α β) : Prop := ∀ s, ∃ b, (x s).answer = .ok b

section

variable {x : Action σ α β} {f : β → Action σ α γ}

theorem Steady.atomic (hx : Steady x) : Atomic x := fun s _ _ => hx s

theorem Sure.not_fails (hx : Sure x) (s t : σ) (e : Fault α) : ¬ Fails x s t e := by
  rintro ⟨-, h⟩
  obtain ⟨b, hb⟩ := hx s
  rw [hb] at h
  cases h

theorem Sure.atomic (hx : Sure x) : Atomic x :=
  fun s e h => absurd ⟨rfl, h⟩ (hx.not_fails s _ e)

theorem steady_get : Steady (get : Action σ α σ) := fun _ => rfl

theorem steady_lift (r : Except (Fault α) β) : Steady (lift r : Action σ α β) := fun _ => rfl

theorem steady_throw (e : Fault α) : Steady (throw e : Action σ α β) := fun _ => rfl

theorem sure_pure (b : β) : Sure (pure b : Action σ α β) := fun _ => ⟨b, rfl⟩

theorem sure_modify (g : σ → σ) : Sure (modify g : Action σ α PUnit) := fun _ => ⟨(), rfl⟩

theorem sure_report (e : Event α) : Sure (report e : Action σ α Unit) := fun _ => ⟨(), rfl⟩

theorem sure_get : Sure (get : Action σ α σ) := fun s => ⟨s, rfl⟩

theorem Sure.bind (hx : Sure x) (hf : ∀ b, Sure (f b)) : Sure (x >>= f) := by
  intro s
  obtain ⟨b, hb⟩ := hx s
  obtain ⟨c, hc⟩ := hf b (x s).state
  exact ⟨c, by simp only [Bind.bind, hb, hc]⟩

theorem Sure.ite {p : Prop} [Decidable p] {y : Action σ α β} (hx : Sure x) (hy : Sure y) :
    Sure (if p then x else y) := by
  split
  · exact hx
  · exact hy

theorem sure_forEach {xs : List β} {g : β → Action σ α Unit} (hg : ∀ b, Sure (g b)) :
    Sure (forEach xs g) := by
  induction xs with
  | nil => exact sure_pure ()
  | cons b xs ih => exact (hg b).bind fun _ => ih

/-- What follows a check may fail as well, as long as it is then without effect. -/
theorem Steady.bind_atomic (hx : Steady x) (hf : ∀ b, Atomic (f b)) : Atomic (x >>= f) := by
  intro s e h
  simp only [Bind.bind] at h ⊢
  cases hb : (x s).answer with
  | error e' => exact hx s
  | ok b =>
      rw [hb] at h
      simp only at h ⊢
      exact (hf b _ _ h).trans (hx s)

theorem Atomic.bind_sure (hx : Atomic x) (hf : ∀ b, Sure (f b)) : Atomic (x >>= f) := by
  intro s e h
  simp only [Bind.bind] at h ⊢
  cases hb : (x s).answer with
  | error e' => exact hx s e' hb
  | ok b =>
      rw [hb] at h
      obtain ⟨c, hc⟩ := hf b (x s).state
      simp only [hc] at h
      cases h

theorem Atomic.guard {p : Prop} [Decidable p] {e : Fault α} {g : τ → Action σ α β}
    (hx : Atomic x) : Atomic (if p then throw e >>= g else x) := by
  split
  · exact fun s _ _ => rfl
  · exact hx

theorem Atomic.within {part : σ → τ} {put : τ → σ → σ} {y : Action τ α β} (hy : Atomic y)
    (hput : ∀ s, put (part s) s = s) : Atomic (within part put y) := by
  intro s e h
  show put (y (part s)).state s = s
  rw [hy _ e h]
  exact hput s

end

end Action

end IncrementalLP
