import CategorySelection.Checklist
/-!
Checklists in two parts. The names of the rows stand in an index in increasing order, where the
place of a new name is found by bisection; the marks stand in a table of their own, in the order in
which the rows came. Nothing but the operations keeps the two parts in step.
-/

namespace CategorySelection

namespace Text

/-- The place of a text in an index, behind the texts that are not greater. It is looked for between
two places, and half of what lies between them is left out at each step. -/
def placeBetween (t : Text) (index : List Text) (low high : Nat) : Nat :=
  if low < high then
    if (index[(low + high) / 2]?).any fun u => decide (t < u) then
      placeBetween t index low ((low + high) / 2)
    else placeBetween t index ((low + high) / 2 + 1) high
  else low
termination_by high - low

def insertByBisection (t : Text) (index : List Text) : List Text :=
  let place := placeBetween t index 0 index.length
  index.take place ++ t :: index.drop place

end Text

namespace Checklist

/-- A checklist in two parts: the names in increasing order, and a table of the marks. -/
structure Indexed where
  index : List Text
  marks : Assoc Mark
  deriving Repr, DecidableEq

namespace Indexed

def has (name : Text) (i : Indexed) : Bool := i.marks.has name

def mark (name : Text) (i : Indexed) : Except Fault Mark :=
  match i.marks.get? name with
  | some mark => .ok mark
  | none => .error (.missingRow name)

/-- The rows in the order of the index; every name in it must have a mark. -/
def rows (i : Indexed) : Except Fault (Assoc Mark) :=
  i.index.mapM fun name => (name, ·) <$> i.mark name

/-- The checklist of some categories and some with the words for their marks. All of them are
neutral until the words are looked at. -/
def ofLabels (names : List Text) (labels : Assoc Text) : Except Fault Indexed := do
  let index := Text.sortedSet (names ++ labels.names)
  Category.checkNames index
  let marks ← labels.foldlM (fun marks (name,
    label) => (Assoc.put name · marks) <$> Mark.ofLabel label)
    (index.map fun name => (name, .neutral))
  return ⟨index, marks⟩

def addRow (name : Text) : Action Indexed Bool := do
  let i ← Action.world
  if i.has name then return false
  else do
    Action.ofExcept (Category.checkName name)
    Action.setWorld ⟨Text.insertByBisection name i.index, i.marks.put name .neutral⟩
    return true

/-- Takes a row away, if it is there. The name must then stand in the index. -/
def removeRow (name : Text) : Action Indexed Unit := do
  let i ← Action.world
  if i.has name then
    if name ∈ i.index then Action.setWorld ⟨i.index.erase name, i.marks.erase name⟩
    else Action.fail (.foreign .value "list.remove(x): x not in list")

def putMark (name : Text) (mark : Mark) : Action Indexed Unit :=
  Action.change fun i => { i with marks := i.marks.put name mark }

/-- Marks a category by the word for the mark. A row that is missing is added before the word is
looked at. -/
def setLabel (name label : Text) : Action Indexed Unit := do
  let _ ← addRow name
  let mark ← Action.ofExcept (Mark.ofLabel label)
  putMark name mark
  Action.record (markRecord name mark.label)

def setFlags (name : Text) (included excluded : Bool) : Action Indexed Mark := do
  let mark := Mark.ofFlags included excluded
  setLabel name mark.label
  return mark

def clear (name : Text) : Action Indexed Unit := do
  if (← Action.world).has name then putMark name .neutral

def clearAll : Action Indexed Unit :=
  Action.change fun i => { i with
    marks := i.index.foldl (fun marks name => marks.put name .neutral) i.marks }

end Indexed

end Checklist

end CategorySelection
