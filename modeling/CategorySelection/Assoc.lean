import CategorySelection.Text
/-!
Tables whose entries keep the order in which their names first came. Giving a name a new value
leaves it in its place.
-/

namespace CategorySelection

abbrev Assoc (α : Type) := List (Text × α)

namespace Assoc

variable {α : Type}

def get? (name : Text) : Assoc α → Option α
  | [] => none
  | (n, a) :: rest => if n = name then some a else get? name rest

def has (name : Text) (table : Assoc α) : Bool := table.any (·.1 = name)

/-- Gives a name a value: in its place if it is in the table, else behind all others. -/
def put (name : Text) (value : α) : Assoc α → Assoc α
  | [] => [(name, value)]
  | (n, a) :: rest => if n = name then (n, value) :: rest else (n, a) :: put name value rest

def erase (name : Text) (table : Assoc α) : Assoc α := table.filter (·.1 ≠ name)

/-- The table of a list of entries; of entries with one name the last value counts. -/
def ofPairs (pairs : List (Text × α)) : Assoc α := pairs.foldl (fun t p => put p.1 p.2 t) []

def names (table : Assoc α) : List Text := table.map (·.1)

def sorted (table : Assoc α) : Assoc α := table.mergeSort fun p q => !decide (q.1 < p.1)

end Assoc

end CategorySelection
