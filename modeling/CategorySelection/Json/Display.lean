import CategorySelection.Binary64.Decimal
import CategorySelection.Json
import CategorySelection.Text.Quoted
/-!
Values as messages show them. A text stands for itself; inside an array or an object it is quoted.
-/

namespace CategorySelection

namespace Json

mutual

def shown : Json → Text
  | .null => "None"
  | .bool b => if b then "True" else "False"
  | .int n => Text.ofInt n
  | .float x => x.text
  | .string t => t.quoted
  | .array items => "[" ++ shownItems items ++ "]"
  | .object fields => "\x7b" ++ shownFields fields ++ "\x7d"

def shownItems : List Json → Text
  | [] => []
  | [item] => shown item
  | item :: rest => shown item ++ ", " ++ shownItems rest

def shownFields : List (Text × Json) → Text
  | [] => []
  | [(name, value)] => name.quoted ++ ": " ++ shown value
  | (name, value) :: rest =>
    name.quoted ++ ": " ++ shown value ++ ", " ++ shownFields rest

end

def display : Json → Text
  | .string t => t
  | value => value.shown

end Json

end CategorySelection
