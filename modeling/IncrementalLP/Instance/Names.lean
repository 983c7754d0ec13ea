import IncrementalLP.Fault
/-!
# Names

The names that the rows, or the columns, of an instance carry: a list with an optional name at
each ordinal. Beside it a table is kept of the names that are carried, each with its ordinal. The
checks of this module refuse every step after which a name would be carried twice.
-/
namespace IncrementalLP.Names

variable {α : Type}

/-- Names with the ordinals that carry them, in the order in which they were entered. -/
abbrev Table := List (String × Nat)

/-- The ordinal under a name. -/
def ordinal? (table : Table) (name : String) : Option Nat :=
  (table.find? (·.1 == name)).map (·.2)

/-- The table with more names, whose ordinals are counted from `k`. A name that is in it already is
a clash with the ordinal that holds it. -/
def enter (clash : String → Nat → Nat → Fault α) (table : Table) (k : Nat) :
    List (Option String) → Except (Fault α) Table
  | [] => .ok table
  | none :: rest => enter clash table (k + 1) rest
  | some name :: rest =>
    match ordinal? table name with
    | some holder => .error (clash name holder k)
    | none => enter clash (table ++ [(name, k)]) (k + 1) rest

/-- The table with the names of more entities, each of which may have one. -/
def index (kind : EntityKind) (table : Table) (k : Nat) (names : List (Option String)) :
    Except (Fault α) Table :=
  enter (fun name holder k => .duplicateName kind name holder k) table k names

/-- A name as offered: a text, or the form in which something else is shown. -/
abbrev Given := Except String String

/-- Names are texts that are not empty. -/
def checkTexts (kind : EntityKind) (k : Nat) : List Given → Except (Fault α) (List String)
  | [] => .ok []
  | .error shown :: _ => .error (.notAName kind k shown)
  | .ok name :: rest =>
    if name.isEmpty then .error (.notAName kind k "''")
    else (checkTexts kind (k + 1) rest).map (name :: ·)

/-- The ordinals from `first` to `last` are there, and there are as many names as ordinals. -/
def checkExtent (kind : EntityKind) (count given : Nat) (first last : Int) :
    Except (Fault α) Unit :=
  if first < 0 ∨ count ≤ last ∨ last < first then .error (.nameRange kind first last count)
  else if given ≠ last - first + 1 then .error (.nameCount kind given first last)
  else .ok ()

/-- The names for the ordinals from `first` to `last`, if they may be given to them, and the table
with them. The ordinals of the range give up the names that they carry. -/
def checkedRange (kind : EntityKind) (count : Nat) (table : Table) (given : List Given)
    (first last : Int) : Except (Fault α) (List String × Table) := do
  checkExtent kind count given.length first last
  let texts ← checkTexts kind first.toNat given
  let kept := table.filter fun e => decide (e.2 < first) || decide (last < e.2)
  let renewed ← enter (fun name holder k => .nameTaken kind name k holder) kept first.toNat
    (texts.map some)
  return (texts, renewed)

/-- Replaces what is at the positions from `first` on, one replacement for each. -/
def overwrite {β : Type} (rename : String → β → β) (first : Nat) (names : List String)
    (entities : List β) : List β :=
  entities.take first ++ List.zipWith rename names (entities.drop first) ++
    entities.drop (first + names.length)

end IncrementalLP.Names
