import IncrementalLP.Problem.Parts
/-!
# A sample problem

A problem with two variables that is easily solved by hand: to maximise `2x + y` under
`x + 4y ≤ 24`, `y ≤ 5`, `3x + y ≤ 20` and `x + y ≤ 9`, and a further row `6x + y ≤ 20` that cuts its
optimum off.
-/
namespace IncrementalLP.Sample

variable {α : Type} [Scalar α]

def number (n : Nat) : Extended α := .finite (Scalar.nearest (n : Rat))

def entry (e : Nat × Nat) : Nat × α := (e.1, Scalar.nearest (e.2 : Rat))

/-- The problem without names. -/
def parts : ProblemParts α where
  rows := [24, 5, 20, 9].map fun b => ⟨.atMost, number b, none⟩
  columns := [2, 1].map fun c => { Column.free with objective := number c }
  matrix :=
    { baseRows := 4
      columns := [[(0, 1), (2, 3), (3, 1)], [(0, 4), (1, 1), (2, 1), (3, 1)]].map (·.map entry)
      appended := [] }

/-- The row that cuts the optimum off. -/
def cut : Cut α where
  row := ⟨.atMost, number 20, some "c5"⟩
  entries := [(0, 6), (1, 1)].map entry

end IncrementalLP.Sample
