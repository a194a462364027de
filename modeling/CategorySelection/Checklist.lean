import CategorySelection.Expression
/-!
Checklists. A checklist has a row for every category it shows, in increasing order of the names, and
every row has a mark.
-/

namespace CategorySelection

/-- The rows of a checklist: the names of the categories and their marks. -/
structure Checklist where
  rows : Assoc Mark := []
  deriving Repr, DecidableEq

namespace Checklist

def names (c : Checklist) : List Text := c.rows.names

def mark? (name : Text) (c : Checklist) : Option Mark := c.rows.get? name

def has (name : Text) (c : Checklist) : Bool := c.rows.has name

def mark (name : Text) (c : Checklist) : Except Fault Mark :=
  match c.mark? name with
  | some mark => .ok mark
  | none => .error (.missingRow name)

def insertRow (row : Text × Mark) : Assoc Mark → Assoc Mark
  | [] => [row]
  | r :: rest => if row.1 < r.1 then row :: r :: rest else r :: insertRow row rest

def withMark (name : Text) (mark : Mark) (c : Checklist) : Checklist :=
  ⟨c.rows.map fun row => if row.1 = name then (name, mark) else row⟩

/-- The checklist of some categories and some marked ones; where a category has no mark it is
neutral. -/
def ofMarks (names : List Text) (marks : Assoc Mark) : Except Fault Checklist := do
  let all := Text.sortedSet (names ++ marks.names)
  Category.checkNames all
  return ⟨all.map fun name => (name, (marks.get? name).getD .neutral)⟩

/-- The checklist of some categories and some with the words for their marks. A wrong name is
reported before a wrong word. -/
def ofLabels (names : List Text) (labels : Assoc Text) : Except Fault Checklist := do
  Category.checkNames (Text.sortedSet (names ++ labels.names))
  let marks ← labels.mapM fun (name, label) => (name, ·) <$> Mark.ofLabel label
  ofMarks names marks

def unknownNames (known marked : List Text) : List Text :=
  Text.sortedSet (marked.filter (· ∉ known))

def unknownRecords (known marked : List Text) : List Log.Record :=
  match unknownNames known marked with
  | [] => []
  | names =>
    [Log.note "state" Log.Level.info
      ("Expression references categories missing from the catalog: " ++ Text.join ", " names)]

def start {σ : Type} (known : List Text) (marks : Assoc Mark) : Action σ Checklist := do
  Action.write (unknownRecords known marks.names)
  Action.ofExcept (ofMarks known marks)

def startLabelled {σ : Type} (known : List Text) (labels : Assoc Text) : Action σ Checklist := do
  Action.write (unknownRecords known labels.names)
  Action.ofExcept (ofLabels known labels)

def add (name : Text) (c : Checklist) : Except Fault Checklist :=
  if c.has name then .ok c
  else do
    Category.checkName name
    return ⟨insertRow (name, .neutral) c.rows⟩

def remove (name : Text) (c : Checklist) : Checklist := ⟨c.rows.erase name⟩

def clear (name : Text) (c : Checklist) : Checklist := c.withMark name .neutral

def clearAll (c : Checklist) : Checklist := ⟨c.rows.map fun row => (row.1, .neutral)⟩

def set (name : Text) (mark : Mark) (c : Checklist) : Except Fault Checklist :=
  (·.withMark name mark) <$> c.add name

def included (c : Checklist) : List Text := Expression.namesMarked .included c.rows

def excluded (c : Checklist) : List Text := Expression.namesMarked .excluded c.rows

def selected (c : Checklist) : Assoc Mark := c.rows.filter (·.2 ≠ .neutral)

def expression (c : Checklist) : Text := Expression.write c.rows

def shown (c : Checklist) : Text :=
  "CategoryStateModel(" ++
    Text.join ", " (c.rows.map fun (name, mark) => name ++ "=" ++ mark.label) ++ ")"

def markRecord (name label : Text) : Log.Record :=
  { Log.note "state" Log.Level.debug ("Category " ++ name ++ " set to " ++ label) with
    context := .ofCategory name, tag := some (.string "state") }

def addRow (name : Text) : Action Checklist Bool := do
  let c ← Action.world
  Action.setWorld (← Action.ofExcept (c.add name))
  return !c.has name

def setMark (name : Text) (mark : Mark) : Action Checklist Unit := do
  let c ← Action.world
  Action.setWorld (← Action.ofExcept (c.set name mark))
  Action.record (markRecord name mark.label)

/-- Marks a category by the word for the mark. A row that is missing is added before the word is
looked at. -/
def setLabel (name label : Text) : Action Checklist Unit := do
  discard <| addRow name
  setMark name (← Action.ofExcept (Mark.ofLabel label))

def setFlags (name : Text) (included excluded : Bool) : Action Checklist Mark := do
  let mark := Mark.ofFlags included excluded
  setMark name mark
  return mark

end Checklist

end CategorySelection
