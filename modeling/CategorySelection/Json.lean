import CategorySelection.Assoc
import CategorySelection.Binary64
/-!
JSON values. Whole numbers are exact and of any size; the other numbers are floating-point numbers,
the infinite ones included. An object keeps the order of its names.
-/

namespace CategorySelection

inductive Json
  | null
  | bool (value : Bool)
  | int (value : Int)
  | float (value : Binary64)
  | string (value : Text)
  | array (items : List Json)
  | object (fields : List (Text × Json))
  deriving Repr, Inhabited

namespace Json

def kindName : Json → Text
  | .null => "NoneType"
  | .bool _ => "bool"
  | .int _ => "int"
  | .float _ => "float"
  | .string _ => "str"
  | .array _ => "list"
  | .object _ => "dict"

def string? : Json → Option Text
  | .string t => some t
  | _ => none

def strings? : Json → Option (List Text)
  | .array items => items.mapM string?
  | _ => none

end Json

end CategorySelection
