/-!
# Runs

Entries in consecutive runs, one run for each column (or for each appended row). The flat form of
runs is three lists: where each run starts, with the total at the end, the positions, and the
values. Every starts list without a decrease cuts a flat list into runs again.
-/
namespace IncrementalLP

/-- One list of positions with values for each run. -/
abbrev Runs (β : Type) := List (List (Nat × β))

namespace Runs

variable {β ε : Type}

/-- Where each run starts if the first one starts at `n`, and where the last one ends. -/
def startsFrom (n : Nat) : Runs β → List Nat
  | [] => [n]
  | run :: rest => n :: startsFrom (n + run.length) rest

def starts (runs : Runs β) : List Nat := runs.startsFrom 0

def positions (runs : Runs β) : List Nat := runs.flatten.map (·.1)

def values (runs : Runs β) : List β := runs.flatten.map (·.2)

/-- The number of entries. -/
def size (runs : Runs β) : Nat := runs.flatten.length

/-- The run that a place of the flat list belongs to: the last one that starts there or before. Runs
without entries start where the next one does. -/
def owner (starts : List Nat) (place : Nat) : Nat := starts.countP (· ≤ place) - 1

/-- The entries with a given position, each with the run that it belongs to. -/
def atPosition (runs : Runs β) (i : Nat) : List (Nat × β) :=
  (runs.flatten.zipIdx.filter (·.1.1 == i)).map fun e => (owner runs.starts e.2, e.1.2)

/-- Cuts a list into runs of given lengths. -/
def cut : List Nat → List ε → List (List ε)
  | [], _ => []
  | n :: lengths, xs => xs.take n :: cut lengths (xs.drop n)

/-- The differences of neighbours, in words of 64 bits. -/
def steps : List Int64 → List Int64
  | a :: b :: rest => (b - a) :: steps (b :: rest)
  | _ => []

/-- The lengths of the runs between given starts. -/
def lengths (starts : List Int64) : List Nat := (steps starts).map (·.toInt.toNat)

/-- For each entry the run that it belongs to, where runs are counted from `k`. -/
def owners (k : Nat) : List Nat → List Nat
  | [] => []
  | n :: lengths => List.replicate n k ++ owners (k + 1) lengths

/-- The least of the values that a list holds more than once. -/
def leastRepeated? (xs : List Int) : Option Int :=
  (xs.filter fun x => decide (1 < xs.count x)).min?

/-- A run comes before every later one, and within a run the lower position comes first. -/
def Before (a b : Nat × Int) : Prop := a.1 < b.1 ∨ a.1 = b.1 ∧ a.2 ≤ b.2

instance (a b : Nat × Int) : Decidable (Before a b) := inferInstanceAs (Decidable (_ ∨ _ ∧ _))

def insert (e : Nat × Int) : List (Nat × Int) → List (Nat × Int)
  | [] => [e]
  | a :: rest => if Before e a then e :: a :: rest else a :: insert e rest

/-- Entries in the order of their runs and positions. -/
def sort : List (Nat × Int) → List (Nat × Int)
  | [] => []
  | e :: rest => insert e (sort rest)

/-- The first item that equals the next one. -/
def twin? [BEq ε] : List ε → Option ε
  | a :: b :: rest => if a == b then some a else twin? (b :: rest)
  | _ => none

end Runs

end IncrementalLP
