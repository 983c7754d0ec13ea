/-!
# Keyed lists

Values under names, in the order in which the names were first used.
-/
namespace IncrementalLP

abbrev Keyed (β : Type) := List (String × β)

namespace Keyed

variable {β : Type}

def get? (entries : Keyed β) (name : String) : Option β :=
  (entries.find? (·.1 == name)).map (·.2)

/-- Puts a value under a name, in the place of what was there. -/
def put (name : String) (b : β) : Keyed β → Keyed β
  | [] => [(name, b)]
  | e :: rest => if e.1 == name then (name, b) :: rest else e :: put name b rest

def drop (entries : Keyed β) (name : String) : Keyed β := entries.filter (·.1 != name)

def names (entries : Keyed β) : List String := entries.map (·.1)

end Keyed

end IncrementalLP
