import CategorySelection.Fault
import CategorySelection.Log.Record
import CategorySelection.Text.Blank
/-!
Tags of debugging output. A debugging record that carries a tag is shown only if its tag is switched
on; one star switches on all of them.
-/

namespace CategorySelection

namespace Log

structure Tags where
  enabled : List Text
  deriving Repr, DecidableEq, Inhabited

namespace Tags

def star : Text := "*"

/-- The tags of a list in which commas separate them. Blanks around a tag do not matter. -/
def ofText (t : Text) : Tags :=
  ⟨Text.sortedSet (((Text.split ',' t).map Text.trim).filter (· ≠ []))⟩

def allowsAll (tags : Tags) : Bool := tags.enabled.contains star

/-- Whether a tag is switched on. Only texts can be, and lists and objects cannot even be looked
for. -/
def allows (tags : Tags) (tag : Json) : Except Fault Bool :=
  if tags.allowsAll then .ok true
  else
    match tag with
    | .string t => .ok (tags.enabled.contains t)
    | .array _ | .object _ => .error (.unhashable tag.kindName)
    | _ => .ok false

def passes (tags : Tags) (level : Level) (tag : Option Json) : Except Fault Bool :=
  match tag with
  | none | some .null => .ok true
  | some tag => if level = .debug then tags.allows tag else .ok true

end Tags

end Log

end CategorySelection
