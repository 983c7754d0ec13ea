import IncrementalLP.Fault
/-!
# Validated values

A value that was read from a description, or everything that is wrong with the description, in the
order of its parts.
-/
namespace IncrementalLP

inductive Validated (β : Type) where
  | ok (b : β)
  | refused (problems : List Problem)

namespace Validated

variable {α β γ : Type}

def map (f : β → γ) : Validated β → Validated γ
  | .ok b => .ok (f b)
  | .refused ps => .refused ps

/-- Two parts are read both, whether or not one is refused. -/
def and (f : Validated (β → γ)) (x : Validated β) : Validated γ :=
  match f, x with
  | .ok f, .ok b => .ok (f b)
  | .ok _, .refused ps => .refused ps
  | .refused ps, .ok _ => .refused ps
  | .refused ps, .refused qs => .refused (ps ++ qs)

instance : Applicative Validated where
  pure := .ok
  map := map
  seq f x := f.and (x ())

/-- A value that is refused for one reason. -/
def refuse (c : Complaint) : Validated β := .refused [⟨[], c⟩]

/-- A part of a larger description, found under a name or a number. -/
def within (place : String) : Validated β → Validated β
  | .ok b => .ok b
  | .refused ps => .refused (ps.map fun p => { p with location := place :: p.location })

/-- A check of the value as a whole. -/
def andThen (x : Validated β) (f : β → Validated γ) : Validated γ :=
  match x with
  | .ok b => f b
  | .refused ps => .refused ps

/-- All values of a list. -/
def all : List (Validated β) → Validated (List β)
  | [] => .ok []
  | x :: rest => ((x.map List.cons).and (all rest))

/-- The value, or the fault of its description. -/
def toExcept : Validated β → Except (Fault α) β
  | .ok b => .ok b
  | .refused ps => .error (.rejected ps)

/-- The value, or the first thing that is wrong with its description. -/
def firstComplaint : Validated β → Except Complaint β
  | .ok b => .ok b
  | .refused (p :: _) => .error p.complaint
  | .refused [] => .error .missing

end Validated

end IncrementalLP
