import IncrementalLP.Fault
import IncrementalLP.Event
/-!
# Attempts

An operation on a state either answers or fails. In both cases it leaves a state behind and a
journal of events, so that what a failed operation has done can be said.
-/
namespace IncrementalLP

structure Attempt (σ α β : Type) where
  state : σ
  journal : List (Event α)
  answer : Except (Fault α) β

/-- An operation on a state. -/
def Action (σ α β : Type) := σ → Attempt σ α β

namespace Action

variable {σ τ α β γ : Type}

instance : Monad (Action σ α) where
  pure b := fun s => ⟨s, [], .ok b⟩
  bind x f := fun s =>
    let a := x s
    match a.answer with
    | .ok b =>
      let next := f b a.state
      ⟨next.state, a.journal ++ next.journal, next.answer⟩
    | .error e => ⟨a.state, a.journal, .error e⟩

instance : MonadExceptOf (Fault α) (Action σ α) where
  throw f := fun s => ⟨s, [], .error f⟩
  tryCatch x handler := fun s =>
    let a := x s
    match a.answer with
    | .ok _ => a
    | .error f =>
      let next := handler f a.state
      ⟨next.state, a.journal ++ next.journal, next.answer⟩

instance : MonadStateOf σ (Action σ α) where
  get := fun s => ⟨s, [], .ok s⟩
  set s := fun _ => ⟨s, [], .ok ()⟩
  modifyGet f := fun s => ⟨(f s).2, [], .ok (f s).1⟩

/-- Reports an event. -/
def report (e : Event α) : Action σ α Unit := fun s => ⟨s, [e], .ok ()⟩

/-- The answer of a computation that may fail. -/
def lift (r : Except (Fault α) β) : Action σ α β := fun s => ⟨s, [], r⟩

/-- The operation for each item of a list, one after the other. -/
def forEach (xs : List β) (x : β → Action σ α Unit) : Action σ α Unit :=
  match xs with
  | [] => pure ()
  | b :: rest => do
    x b
    forEach rest x

/-- An operation on a part of the state. -/
def within (part : σ → τ) (put : τ → σ → σ) (x : Action τ α β) : Action σ α β := fun s =>
  let a := x (part s)
  ⟨put a.state s, a.journal, a.answer⟩

end Action

end IncrementalLP
